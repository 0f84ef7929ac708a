import Librocks.Store.Lifecycle

/-!
# Returned buffers

Reference: `src/impl/StoreImpl.cpp`.

A value or a key leaves the store as a pointer to a new buffer and a length. An empty one is no
buffer at all: `get_`, `findMinKey` and `findMaxKey` allocate only for a slice that is not empty,
and return null otherwise. So the null pointer of `findMinKey` does not say that the Kind is empty;
`find_extremes` says what it does say.

The length is reset once the arguments have been accepted. `Call.run_agrees_iff`: the length agrees
with the buffer that is returned, unless the arguments are refused and the variable held something
else.
-/

namespace Librocks

open Rocks

/-- The length says how long the buffer is, and is zero if there is none. -/
def LengthAgrees (len : Option ℕ) (data : Option Bytes) : Prop :=
  len = some (data.elim 0 List.length)

namespace StoreImpl

/-- Nothing is returned, and the length is what it was. -/
theorem lengthAgrees_none_iff {n : ℕ} : LengthAgrees (some n) none ↔ n = 0 := Option.some_inj

variable {s : StoreImpl} {db : Db} {kd : KindImpl} {a : Answers}

/-! ## The extreme keys -/

/-- What `findMinKey` and `findMaxKey` answer when the iteration succeeds. -/
theorem findKey_extreme (h : OpenWith s db) (hv : kd.isValid = true) (hit : a.iterator = true)
    (hseek : a.seek = none) (extreme : Family → Option Bytes) (status : Option ℤ) (len : ℕ) :
    s.findKey a extreme status (.impl kd) len
      = .ok ({ status := assign Status.ok status,
               resultLen := some ((extreme (db.data kd.handle)).getD []).length,
               data := (extreme (db.data kd.handle)).bind buffer }, s) :=
  findKey_sought h hv hit extreme status len (by rw [hseek, Option.isNone_none, if_pos rfl])

/-- The reply gives out the key. -/
def Reply.HasKey (r : Reply) (key : Bytes) : Prop := r.data = some key ∧ r.resultLen = some key.length

/-- The reply is a null pointer and length zero. -/
def Reply.HasNone (r : Reply) : Prop := r.data = none ∧ r.resultLen = some 0

/-- The reply of `findKey` to a found key, or to none. -/
theorem hasKey_of_ne_nil {r : Reply} {found : Option Bytes} (hdata : r.data = found.bind buffer)
    (hlen : r.resultLen = some (found.getD []).length) {key : Bytes} (hkey : found = some key)
    (hne : key ≠ []) : r.HasKey key := by
  subst hkey
  have hfull : ¬ key.isEmpty = true := by simpa using hne
  exact ⟨hdata.trans (if_neg hfull), hlen⟩

theorem hasNone_iff {r : Reply} {found : Option Bytes} (hdata : r.data = found.bind buffer)
    (hlen : r.resultLen = some (found.getD []).length) :
    r.HasNone ↔ ∀ key, found = some key → key = [] := by
  constructor
  · rintro ⟨-, hzero⟩ key rfl
    rw [hlen, Option.some_inj] at hzero
    exact List.length_eq_zero_iff.mp hzero
  · intro hnil
    cases found with
    | none => exact ⟨hdata, hlen⟩
    | some key =>
      obtain rfl := hnil key rfl
      exact ⟨hdata, hlen⟩

/-- **The extreme keys.** When the iteration succeeds, `findMinKey` returns the least key of the
Kind and `findMaxKey` the greatest one, unless that is the empty key: then they return null, as they
do for an empty Kind. -/
theorem find_extremes (h : OpenWith s db) (hv : kd.isValid = true) (hit : a.iterator = true)
    (hseek : a.seek = none) (status : Option ℤ) (len : ℕ) :
    ∃ rMin rMax, s.findMinKey a status (.impl kd) len = .ok (rMin, s) ∧
      s.findMaxKey a status (.impl kd) len = .ok (rMax, s) ∧
      rMin.status = assign Status.ok status ∧ rMax.status = assign Status.ok status ∧
      (db.data kd.handle ≠ ∅ → [] ∉ db.data kd.handle →
        ∃ key ∈ db.data kd.handle, rMin.HasKey key ∧ ∀ k ∈ db.data kd.handle, key ≤ k) ∧
      (rMin.HasNone ↔ db.data kd.handle = ∅ ∨ [] ∈ db.data kd.handle) ∧
      ((∃ k ∈ db.data kd.handle, k ≠ []) →
        ∃ key ∈ db.data kd.handle, rMax.HasKey key ∧ ∀ k ∈ db.data kd.handle, k ≤ key) ∧
      (rMax.HasNone ↔ ∀ k ∈ db.data kd.handle, k = []) := by
  refine ⟨_, _, findKey_extreme h hv hit hseek FMap.firstKey status len,
    findKey_extreme h hv hit hseek FMap.lastKey status len, rfl, rfl, ?_, ?_, ?_, ?_⟩
  · intro hne hnil
    obtain ⟨k, hk⟩ := (FMap.eq_empty_or_exists_mem _).resolve_left hne
    obtain ⟨key, hkey⟩ := FMap.exists_firstKey hk
    obtain ⟨hmem, hle⟩ := FMap.firstKey_eq_some_iff.mp hkey
    have hfull : key ≠ [] := by
      rintro rfl
      exact hnil hmem
    exact ⟨key, hmem, hasKey_of_ne_nil rfl rfl hkey hfull, hle⟩
  · rw [hasNone_iff rfl rfl]
    constructor
    · intro hnil
      refine (FMap.eq_empty_or_exists_mem _).imp_right ?_
      rintro ⟨k, hk⟩
      obtain ⟨key, hkey⟩ := FMap.exists_firstKey hk
      obtain rfl := hnil key hkey
      exact (FMap.firstKey_eq_some_iff.mp hkey).1
    · rintro (hempty | hnil) key hkey
      · rw [hempty, FMap.firstKey_empty] at hkey
        cases hkey
      · exact Bytes.eq_nil_of_le_nil ((FMap.firstKey_eq_some_iff.mp hkey).2 [] hnil)
  · rintro ⟨k, hk, hne⟩
    obtain ⟨key, hkey⟩ := FMap.exists_lastKey hk
    obtain ⟨hmem, hle⟩ := FMap.lastKey_eq_some_iff.mp hkey
    have hfull : key ≠ [] := by
      rintro rfl
      exact hne (Bytes.eq_nil_of_le_nil (hle k hk))
    exact ⟨key, hmem, hasKey_of_ne_nil rfl rfl hkey hfull, hle⟩
  · rw [hasNone_iff rfl rfl]
    constructor
    · intro hnil k hk
      obtain ⟨key, hkey⟩ := FMap.exists_lastKey hk
      obtain rfl := hnil key hkey
      exact Bytes.eq_nil_of_le_nil ((FMap.lastKey_eq_some_iff.mp hkey).2 k hk)
    · intro hnil key hkey
      exact hnil key (FMap.lastKey_eq_some_iff.mp hkey).1

/-- The default Kind with the one key given. -/
private def withKey (key : Bytes) : StoreImpl :=
  Call.after {} (.put (some 0) (.impl DefaultKind) (some key) [1]) created

private theorem mem_single {key k : Bytes} : k ∈ Finmap.insert key [1] (∅ : Family) ↔ k = key := by
  rw [Finmap.mem_insert]
  exact or_iff_left Finmap.notMem_empty

theorem find_extremes_single :
    ∃ rMin rMax, (withKey [7]).findMinKey {} (some 5) (.impl DefaultKind) 9 = .ok (rMin, withKey [7]) ∧
      (withKey [7]).findMaxKey {} (some 5) (.impl DefaultKind) 9 = .ok (rMax, withKey [7]) ∧
      rMin.HasKey [7] ∧ rMax.HasKey [7] := by
  obtain ⟨db, hopen, hdata⟩ : ∃ db, (withKey [7]).OpenWith db ∧
      db.data DefaultKind.handle = Finmap.insert [7] [1] (∅ : Family) := ⟨_, ⟨rfl, rfl⟩, rfl⟩
  have hmem : ∀ k, k ∈ db.data DefaultKind.handle ↔ k = [7] := fun k => by rw [hdata, mem_single]
  have hvalid : DefaultKind.isValid = true := rfl
  have hit : ({} : Answers).iterator = true := rfl
  obtain ⟨rMin, rMax, hmin, hmax, -, -, hleast, -, hgreatest, -⟩ :=
    find_extremes hopen hvalid hit rfl (some 5) 9
  have hseven : [7] ∈ db.data DefaultKind.handle := (hmem [7]).mpr rfl
  have hne : db.data DefaultKind.handle ≠ ∅ := by
    intro hempty
    rw [hempty] at hseven
    exact Finmap.notMem_empty hseven
  have hnil : [] ∉ db.data DefaultKind.handle := by
    rw [hmem]
    decide
  obtain ⟨key, hkey, hhas, -⟩ := hleast hne hnil
  obtain ⟨key', hkey', hhas', -⟩ := hgreatest ⟨[7], hseven, by decide⟩
  rw [hmem] at hkey hkey'
  subst hkey hkey'
  exact ⟨rMin, rMax, hmin, hmax, hhas, hhas'⟩

/-- The default Kind with the empty key as its only one: both methods answer as if it were empty. -/
theorem empty_key_hidden :
    ∃ db, (withKey []).OpenWith db ∧ [] ∈ db.data DefaultKind.handle ∧
      (withKey []).findMinKey {} (some 5) (.impl DefaultKind) 9
        = .ok ({ status := some Status.ok, resultLen := some 0, data := none }, withKey []) ∧
      (withKey []).findMaxKey {} (some 5) (.impl DefaultKind) 9
        = .ok ({ status := some Status.ok, resultLen := some 0, data := none }, withKey []) := by
  obtain ⟨db, hopen, hdata⟩ : ∃ db, (withKey []).OpenWith db ∧
      db.data DefaultKind.handle = Finmap.insert [] [1] (∅ : Family) := ⟨_, ⟨rfl, rfl⟩, rfl⟩
  have hmem : ∀ k, k ∈ db.data DefaultKind.handle ↔ k = [] := fun k => by rw [hdata, mem_single]
  have hnil : [] ∈ db.data DefaultKind.handle := (hmem []).mpr rfl
  have hle : ∀ k ∈ db.data DefaultKind.handle, k = [] := fun k hk => (hmem k).mp hk
  have hfirst : FMap.firstKey (db.data DefaultKind.handle) = some [] :=
    FMap.firstKey_eq_some_iff.mpr ⟨hnil, fun k hk => (hle k hk).ge⟩
  have hlast : FMap.lastKey (db.data DefaultKind.handle) = some [] :=
    FMap.lastKey_eq_some_iff.mpr ⟨hnil, fun k hk => (hle k hk).le⟩
  have hvalid : DefaultKind.isValid = true := rfl
  have hit : ({} : Answers).iterator = true := rfl
  refine ⟨db, hopen, hnil, ?_, ?_⟩
  · refine (findKey_extreme hopen hvalid hit rfl FMap.firstKey (some 5) 9).trans ?_
    rw [hfirst]
    rfl
  · refine (findKey_extreme hopen hvalid hit rfl FMap.lastKey (some 5) 9).trans ?_
    rw [hlast]
    rfl

/-! ## Lengths -/

/-- What the length variable holds before a call that returns a buffer, if the pointer is not null.
-/
def Call.length : Call → Option ℕ
  | .get _ _ len _ | .updateIfPresent _ _ len _ _ | .singleRemoveIfPresent _ _ len _
  | .removeIfPresent _ _ len _ => len
  | .findMinKey _ _ len | .findMaxKey _ _ len => some len
  | _ => none

/-- The arguments are refused before the length is reset. `findMinKey` and `findMaxKey` reset it
after the dynamic cast of the Kind, the others before that. -/
def Call.Refused : Call → Prop
  | .get _ kind _ key | .updateIfPresent _ kind _ key _ | .singleRemoveIfPresent _ kind _ key
  | .removeIfPresent _ kind _ key => key = none ∨ kind.isValid = false
  | .findMinKey _ kind _ | .findMaxKey _ kind _ => kind.isValid = false ∨ kind.toKindImpl = none
  | _ => False

/-- A call that was refused, and one that was not. -/
theorem agrees_of_refused {refused : Prop} {n : ℕ} (h : refused) :
    LengthAgrees (some n) none ↔ (refused → n = 0) := by
  rw [lengthAgrees_none_iff]
  exact ⟨fun hn _ => hn, fun hn => hn h⟩

theorem agrees_of_not_refused {refused : Prop} {n : ℕ} {len : Option ℕ} {data : Option Bytes}
    (h : ¬ refused) (hagrees : LengthAgrees len data) :
    LengthAgrees len data ↔ (refused → n = 0) :=
  iff_of_true hagrees fun hno => absurd hno h

theorem get_agrees {status st : Option ℤ} {kind : Kind} {key : Bytes} {len : ℕ} {data : Option Bytes}
    (hrun : s.get_ a status kind 0 key = .ok (st, len, data)) : LengthAgrees (some len) data := by
  cases kind with
  | other name valid =>
    cases hrun
    rfl
  | impl k =>
    simp only [get_, Kind.toKindImpl] at hrun
    obtain ⟨db, -, hrun⟩ := exists_of_bind_eq_ok hrun
    cases hget : db.get a.get k.handle key with
    | error e =>
      rw [hget] at hrun
      cases hrun
      rfl
    | ok value =>
      rw [hget] at hrun
      cases value <;> cases hrun <;> rfl

theorem ifPresent_agrees
    {write : Option ℤ → Kind → Bytes → StoreImpl → Except Halt (Option ℤ × StoreImpl)} {kind : Kind}
    {status : Option ℤ} {key : Bytes} {x : Option ℤ × ℕ × Option Bytes × StoreImpl}
    (hrun : ifPresent a write kind status key s = .ok x) : LengthAgrees (some x.2.1) x.2.2.1 := by
  obtain ⟨⟨st, len, data⟩, hget, hrun⟩ := exists_of_bind_eq_ok hrun
  simp only at hrun
  split_ifs at hrun
  · obtain ⟨y, -, hrest⟩ := exists_of_bind_eq_ok hrun
    cases hrest
    exact get_agrees hget
  · cases hrun
    exact get_agrees hget

/-- The frame of the reading operations resets the length once the arguments are accepted. -/
theorem readOp_agrees_iff
    {body : Option ℤ → Bytes → StoreImpl → Except Halt (Option ℤ × ℕ × Option Bytes × StoreImpl)}
    (hbody : ∀ status key s x, body status key s = .ok x → LengthAgrees (some x.2.1) x.2.2.1)
    {status : Option ℤ} {kind : Kind} {n : ℕ} {key : Option Bytes} {r : Reply} {s' : StoreImpl}
    (hrun : s.readOp body status kind (some n) key = .ok (r, s')) :
    LengthAgrees r.resultLen r.data ↔ (key = none ∨ kind.isValid = false → n = 0) := by
  cases key with
  | none =>
    cases hrun
    exact agrees_of_refused (.inl rfl)
  | some key =>
    cases hv : kind.isValid with
    | false =>
      simp only [readOp, hv] at hrun
      cases hrun
      exact agrees_of_refused (.inr rfl)
    | true =>
      refine agrees_of_not_refused (by simp) ?_
      simp only [readOp, hv, if_true, validateOpen] at hrun
      by_cases hopen : s.isOpen = true
      · simp only [if_pos hopen] at hrun
        obtain ⟨x, hx, hrun⟩ := exists_of_bind_eq_ok hrun
        cases hrun
        exact hbody _ _ _ x hx
      · simp only [if_neg hopen] at hrun
        cases hrun
        rfl

theorem findKey_agrees_iff {extreme : Family → Option Bytes} {status : Option ℤ} {kind : Kind} {n : ℕ}
    {r : Reply} {s' : StoreImpl} (hrun : s.findKey a extreme status kind n = .ok (r, s')) :
    LengthAgrees r.resultLen r.data ↔ (kind.isValid = false ∨ kind.toKindImpl = none → n = 0) := by
  cases hv : kind.isValid with
  | false =>
    simp only [findKey, hv] at hrun
    cases hrun
    exact agrees_of_refused (.inl rfl)
  | true =>
    cases kind with
    | other name valid =>
      simp only [findKey, hv, if_true, Kind.toKindImpl] at hrun
      cases hrun
      exact agrees_of_refused (.inr rfl)
    | impl k =>
      refine agrees_of_not_refused (by simp [Kind.toKindImpl]) ?_
      simp only [findKey, hv, if_true, Kind.toKindImpl, validateOpen] at hrun
      by_cases hopen : s.isOpen = true
      · simp only [if_pos hopen] at hrun
        obtain ⟨db, -, hrun⟩ := exists_of_bind_eq_ok hrun
        cases hit : a.iterator with
        | false =>
          simp only [hit] at hrun
          cases hrun
          rfl
        | true =>
          simp only [hit, if_true] at hrun
          generalize (if a.seek.isNone = true then extreme (db.data k.handle) else none) = found at hrun
          cases found with
          | none =>
            cases hrun
            rfl
          | some key => cases key <;> cases hrun <;> rfl
      · simp only [if_neg hopen] at hrun
        cases hrun
        rfl

/-- **The length of a returned buffer**, for every method of the store that returns one. -/
theorem Call.run_agrees_iff {c : Call} {n : ℕ} (hlen : c.length = some n) {r : Reply} {s' : StoreImpl}
    (hrun : c.run a s = .ok (r, s')) :
    LengthAgrees r.resultLen r.data ↔ (c.Refused → n = 0) := by
  cases c with
  | get status kind len key =>
    obtain rfl : len = some n := hlen
    refine readOp_agrees_iff (fun status key s x hx => ?_) hrun
    obtain ⟨y, hget, hx⟩ := exists_of_bind_eq_ok hx
    cases hx
    exact get_agrees hget
  | updateIfPresent status kind len key value | singleRemoveIfPresent status kind len key
  | removeIfPresent status kind len key =>
    obtain rfl : len = some n := hlen
    exact readOp_agrees_iff (fun _ _ _ _ hx => ifPresent_agrees hx) hrun
  | findMinKey status kind len | findMaxKey status kind len =>
    obtain rfl : len = n := Option.some.inj hlen
    exact findKey_agrees_iff hrun
  | _ => cases hlen

end StoreImpl

end Librocks
