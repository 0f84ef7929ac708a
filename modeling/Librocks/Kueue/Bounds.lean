import Librocks.Kueue.Construct
import Librocks.Kueue.HandOut

/-!
# What the constructor makes of the two extreme keys

The constructor reads the smallest and the greatest key of the Kind and nothing in between, and it does
not ask an iterator whether its seek failed. `bounds_true_iff` says when a queue that is built on an
interval of keys has its true bounds, and that no later put through it overwrites a message then.
`accepted_iff` says which contents of the Kind are accepted when all reads succeed, and which of those
are queues.
-/

namespace Librocks

open Rocks

namespace KueueImpl

/-! ## Reading the extreme keys -/

/-- The constructor gets the Kind `kd` from `getOrCreateKind`, which leaves the store `s₁`. -/
structure Obtains (aKind : Answers) (id : Bytes) (s : StoreImpl) (kd : KindImpl) (s₁ : StoreImpl) :
    Prop where
  call : s.getOrCreateKind aKind (some Status.ok) id = .ok (some Status.ok, kd, s₁)
  valid : kd.isValid = true

/-- The key that an iterator shows: none on an empty Kind, and none after a seek that failed. -/
def reading (a : Answers) (extreme : Family → Option Bytes) (m : Family) : Option UInt64 :=
  if a.seek.isNone then (extreme m).bind asKey else none

variable {s s₁ : StoreImpl} {db : Db} {kd : KindImpl} {aKind aMin aMax : Answers} {id : Bytes}

/-- Given an iterator, `findMinKey` and `findMaxKey` report Ok whether or not the seek failed. -/
theorem findKey_reading (h : s.OpenWith db) (hv : kd.isValid = true) {a : Answers}
    (hit : a.iterator = true) (extreme : Family → Option Bytes) (len : ℕ) :
    ∃ r, s.findKey a extreme (some Status.ok) (.impl kd) len = .ok (r, s) ∧
      r.status = some Status.ok ∧ foundKey r = reading a extreme (db.data kd.handle) := by
  refine ⟨_, StoreImpl.findKey_sought h hv hit extreme (some Status.ok) len rfl, rfl, ?_⟩
  rw [foundKey_sought, reading]
  cases a.seek <;> rfl

/-- A Kind comes from an open store, and leaves it open. -/
theorem Obtains.openWith (hs : s.Sound) (h : Obtains aKind id s kd s₁) :
    s.isOpen = true ∧ ∃ db, s₁.OpenWith db := by
  cases hopen : s.isOpen with
  | false =>
    have hrun := h.call
    simp only [StoreImpl.getOrCreateKind, StoreImpl.validateOpen_closed hopen] at hrun
    exact absurd hrun (by simp [pure, Except.pure, Status.closed, Status.ok])
  | true =>
    obtain ⟨db, hw⟩ := hs.openWith hopen
    obtain ⟨st, kd', s', db', hrun, hcr⟩ :=
      StoreImpl.getOrCreateKind_open hw aKind (some Status.ok) id
    rw [h.call] at hrun
    cases hrun
    exact ⟨rfl, db', hcr.toOpenWith⟩

/-- **Construction from what the iterators show.** -/
theorem new_read (hs : s.Sound) (h : Obtains aKind id s kd s₁) (hopen : s₁.OpenWith db)
    (hmin : aMin.iterator = true) (hmax : aMax.iterator = true) :
    new aKind aMin aMax id s
      = .ok (init (.impl kd) (reading aMin FMap.firstKey (db.data kd.handle))
          (reading aMax FMap.lastKey (db.data kd.handle)), s₁) := by
  obtain ⟨rMin, hrunMin, hstMin, hfoundMin⟩ := findKey_reading hopen h.valid hmin FMap.firstKey 0
  obtain ⟨rMax, hrunMax, hstMax, hfoundMax⟩ :=
    findKey_reading hopen h.valid hmax FMap.lastKey (rMin.resultLen.getD 0)
  obtain ⟨hisOpen, -⟩ := h.openWith hs
  have hvalidate : s.validateOpen (some Status.ok) = (true, some Status.ok, s) := by
    simp [StoreImpl.validateOpen, hisOpen]
  simp only [new, StoreImpl.getKindManager, hvalidate, if_true, h.call, ok_bind, h.valid, and_self,
    StoreImpl.findMinKey, hrunMin, hstMin, StoreImpl.findMaxKey, hrunMax, hstMax, hfoundMin,
    hfoundMax]
  rfl

/-- Otherwise the queue is not valid. -/
theorem new_unread (hs : s.Sound)
    (hno : ¬ ((∃ kd s₁, Obtains aKind id s kd s₁) ∧ aMin.iterator = true ∧ aMax.iterator = true)) :
    ∃ q s', new aKind aMin aMax id s = .ok (q, s') ∧ q.isValid_ = false := by
  cases hisOpen : s.isOpen with
  | false =>
    obtain ⟨s', hnew, -⟩ := new_closed hisOpen aKind aMin aMax id
    exact ⟨_, s', hnew, rfl⟩
  | true =>
    obtain ⟨db, hw⟩ := hs.openWith hisOpen
    obtain ⟨st, kd, s', db', hkind, hcr⟩ :=
      StoreImpl.getOrCreateKind_open hw aKind (some Status.ok) id
    have h' := hcr.toOpenWith
    simp only [new, StoreImpl.getKindManager, hw.validateOpen_eq, assign_some, if_true, hkind, ok_bind]
    by_cases hgot : st = some Status.ok ∧ kd.isValid = true
    swap
    · exact ⟨_, s', by rw [if_neg hgot]; rfl, rfl⟩
    rw [if_pos hgot]
    obtain ⟨rfl, hv⟩ := hgot
    cases hmin : aMin.iterator with
    | false =>
      simp only [StoreImpl.findMinKey, StoreImpl.findKey_noIterator h' hv hmin, ok_bind]
      exact ⟨_, s', rfl, rfl⟩
    | true =>
      cases hmax : aMax.iterator with
      | true => exact absurd ⟨⟨kd, s', hkind, hv⟩, hmin, hmax⟩ hno
      | false =>
        obtain ⟨rMin, hrunMin, hstMin, -⟩ := findKey_reading h' hv hmin FMap.firstKey 0
        simp only [StoreImpl.findMinKey, hrunMin, ok_bind, hstMin, if_true, StoreImpl.findMaxKey,
          StoreImpl.findKey_noIterator h' hv hmax]
        exact ⟨_, s', rfl, rfl⟩

/-! ## The numbers that it computes -/

theorem toInt_toInt64 (x : UInt64) : x.toInt64.toInt = (x.toNat : ℤ).bmod (2 ^ 64) :=
  BitVec.toInt_eq_toNat_bmod x.toBitVec

theorem toInt64_nonneg_iff (x : UInt64) : x.toInt64 ≥ 0 ↔ x.toNat < 2 ^ 63 := by
  have hlt := x.toNat_lt
  have hzero : (0 : Int64).toInt = 0 := rfl
  rw [ge_iff_le, Int64.le_iff_toInt_le, hzero, toInt_toInt64, Int.bmod_def]
  split <;> omega

/-- The distance from a key to the one after another. -/
theorem toNat_succ_sub {a k : UInt64} (h : a ≤ k) :
    (k + 1 - a).toNat = (k.toNat + 1 - a.toNat) % 2 ^ 64 := by
  have hk := k.toNat_lt
  have hle := UInt64.le_iff_toNat_le.mp h
  rw [UInt64.toNat_sub, UInt64.toNat_add, show (1 : UInt64).toNat = 1 from rfl]
  omega

section Init

variable (kind : Kind) (mn : Option UInt64)

@[simp] theorem init_minKey (mx : Option UInt64) : (init kind mn mx).minKey = mn.getD MIN_KEY := by
  simp only [init]
  split <;> rfl

/-- A greatest key of the right length that is not below the smallest one. -/
theorem init_some {k : UInt64} :
    (init kind mn (some k)).maxKey = k + 1 ∧
      ((init kind mn (some k)).isValid_ = true ↔
        (mn.getD MIN_KEY).toNat ≤ k.toNat ∧ (k.toNat + 1 - (mn.getD MIN_KEY).toNat < 2 ^ 63 ∨
          k.toNat + 1 - (mn.getD MIN_KEY).toNat = 2 ^ 64)) ∧
      ((init kind mn (some k)).isValid_ = true → (init kind mn (some k)).count.toInt
        = ((k.toNat + 1 - (mn.getD MIN_KEY).toNat) % 2 ^ 64 : ℕ)) := by
  have hk := k.toNat_lt
  by_cases hge : mn.getD MIN_KEY ≤ k
  · have hle := UInt64.le_iff_toNat_le.mp hge
    have hdiff := toNat_succ_sub hge
    have hinit : init kind mn (some k) =
        { queueKind := some kind, minKey := mn.getD MIN_KEY, maxKey := k + 1,
          count := (k + 1 - mn.getD MIN_KEY).toInt64,
          isValid_ := decide ((k + 1 - mn.getD MIN_KEY).toInt64 ≥ 0) } := by
      simp only [init, Option.getD_some, ge_iff_le, if_pos hge]
    rw [hinit]
    simp only [decide_eq_true_eq, toInt64_nonneg_iff, hdiff]
    refine ⟨trivial, by omega, fun hlt => ?_⟩
    rw [toInt_toInt64, hdiff, Int.bmod_def]
    split <;> omega
  · have hlt : ¬ (mn.getD MIN_KEY).toNat ≤ k.toNat := fun hle => hge (UInt64.le_iff_toNat_le.mpr hle)
    have hinit : init kind mn (some k) =
        { queueKind := some kind, minKey := mn.getD MIN_KEY, maxKey := k + 1 } := by
      simp only [init, Option.getD_some, ge_iff_le, if_neg hge]
    rw [hinit]
    exact ⟨rfl, iff_of_false (by simp) (fun h => hlt h.1), fun hno => absurd hno (by simp)⟩

/-- No greatest key, or one of another length. -/
theorem init_none :
    (init kind mn none).maxKey = 0 ∧ (init kind mn none).count = 0 ∧
      ((init kind mn none).isValid_ = true ↔ mn.getD MIN_KEY = 0) := by
  by_cases hge : mn.getD MIN_KEY ≤ MIN_KEY
  · have hzero : mn.getD MIN_KEY = 0 := UInt64.le_zero_iff.mp hge
    have hinit : init kind mn none = { queueKind := some kind, minKey := 0, isValid_ := true } := by
      simp only [init, Option.getD_none, ge_iff_le, hzero]
      rfl
    rw [hinit]
    exact ⟨rfl, rfl, iff_of_true rfl hzero⟩
  · have hne : mn.getD MIN_KEY ≠ 0 := fun hzero => hge (by rw [hzero]; exact UInt64.le_refl _)
    have hinit : init kind mn none = { queueKind := some kind, minKey := mn.getD MIN_KEY } := by
      simp only [init, Option.getD_none, ge_iff_le, if_neg hge]
    rw [hinit]
    exact ⟨rfl, rfl, iff_of_false (by simp) hne⟩

end Init

/-! ## Intervals of keys -/

end KueueImpl

/-- The keys of the map are the codes of the numbers from `lo` up to `hi`. -/
structure Spans (m : Family) (lo hi : ℕ) : Prop where
  le : lo ≤ hi
  hi_le : hi ≤ 2 ^ 64
  keys : ∀ k, k ∈ m ↔ ∃ i, lo ≤ i ∧ i < hi ∧ code i = k

/-- The live keys of the family span an interval, and only live keys were overwritten. -/
structure Covers (h : Handle) (db : Db) (lo hi : ℕ) : Prop extends Spans (db.data h) lo hi where
  live : ∀ k, db.overwritten h k = true → k ∈ db.data h

namespace Spans

open KueueImpl

variable {m : Family} {lo hi : ℕ}

theorem firstKey_eq (hc : Spans m lo hi) :
    FMap.firstKey m = if lo < hi then some (code lo) else none := by
  have hle := hc.hi_le
  split_ifs with hlt
  · rw [FMap.firstKey_eq_some_iff]
    refine ⟨(hc.keys _).mpr ⟨lo, le_rfl, hlt, rfl⟩, fun x hx => ?_⟩
    obtain ⟨i, h₁, h₂, rfl⟩ := (hc.keys x).mp hx
    exact (code_strictMonoOn.le_iff_le (Set.mem_Iio.mpr (by omega)) (Set.mem_Iio.mpr (by omega))).mpr h₁
  · by_contra hne
    obtain ⟨k, hk⟩ := Option.ne_none_iff_exists'.mp hne
    obtain ⟨i, h₁, h₂, -⟩ := (hc.keys k).mp (FMap.firstKey_eq_some_iff.mp hk).1
    omega

theorem lastKey_eq (hc : Spans m lo hi) :
    FMap.lastKey m = if lo < hi then some (code (hi - 1)) else none := by
  have hle := hc.hi_le
  split_ifs with hlt
  · rw [FMap.lastKey_eq_some_iff]
    refine ⟨(hc.keys _).mpr ⟨hi - 1, by omega, by omega, rfl⟩, fun x hx => ?_⟩
    obtain ⟨i, h₁, h₂, rfl⟩ := (hc.keys x).mp hx
    exact (code_strictMonoOn.le_iff_le (Set.mem_Iio.mpr (by omega))
      (Set.mem_Iio.mpr (by omega))).mpr (by omega)
  · by_contra hne
    obtain ⟨k, hk⟩ := Option.ne_none_iff_exists'.mp hne
    obtain ⟨i, h₁, h₂, -⟩ := (hc.keys k).mp (FMap.lastKey_eq_some_iff.mp hk).1
    omega

theorem reading_first (hc : Spans m lo hi) (a : Answers) :
    reading a FMap.firstKey m
      = if a.seek = none ∧ lo < hi then some (UInt64.ofNat lo) else none := by
  rw [reading, hc.firstKey_eq]
  cases a.seek with
  | some e => rfl
  | none => by_cases hlt : lo < hi <;> simp [hlt]

theorem reading_last (hc : Spans m lo hi) (a : Answers) :
    reading a FMap.lastKey m
      = if a.seek = none ∧ lo < hi then some (UInt64.ofNat (hi - 1)) else none := by
  rw [reading, hc.lastKey_eq]
  cases a.seek with
  | some e => rfl
  | none => by_cases hlt : lo < hi <;> simp [hlt]

theorem card_keys (hc : Spans m lo hi) : m.keys.card = hi - lo := by
  have hle := hc.le
  have hhi := hc.hi_le
  have hinj : Set.InjOn code (Set.Ico lo (lo + (hi - lo))) := by
    refine code_injOn.mono fun i hi' => ?_
    simp only [Set.mem_Ico, Set.mem_Iio] at hi' ⊢
    omega
  obtain ⟨vs, hlen, rfl⟩ := FMap.exists_segment_of_mem_iff hinj fun k => by
    rw [hc.keys, Nat.add_sub_cancel' hle]
  rw [← hlen] at hinj
  rw [FMap.card_keys_segment hinj, hlen]

end Spans

namespace KueueImpl

variable {s s₁ : StoreImpl} {db : Db} {kd : KindImpl} {aKind aMin aMax : Answers} {id : Bytes}

/-- The bounds and the count of a queue on a Kind with the keys from `lo` up to `hi`. -/
structure TrueBounds (q : KueueImpl) (lo hi : ℕ) : Prop where
  keys : lo < hi → q.minKey.toNat = lo ∧ (q.maxKey - 1).toNat = hi - 1
  empty : lo = hi → q.minKey = 0 ∧ q.maxKey = 0
  count : q.count.toInt = hi - lo

/-- Seeks that fail on a Kind with the keys from `lo` up to `hi` so that the queue is taken for valid
with the wrong bounds: the smallest key is missed and is not zero, or the greatest key is missed and the
smallest one is zero or missed too. With every key in use the count is wrong even if no seek fails. -/
def Misread (aMin aMax : Answers) (lo hi : ℕ) : Prop :=
  lo < hi ∧
    ((aMin.seek ≠ none ∧ aMax.seek = none ∧ 0 < lo ∧ hi < 2 ^ 63) ∨
      (aMin.seek ≠ none ∧ aMax.seek = none ∧ hi = 2 ^ 64) ∨
      (aMax.seek ≠ none ∧ (aMin.seek ≠ none ∨ lo = 0)) ∨
      (aMin.seek = none ∧ aMax.seek = none ∧ lo = 0 ∧ hi = 2 ^ 64))

/-- An empty Kind looks the same whether or not a seek fails. -/
theorem trueBounds_empty (kind : Kind) (n : ℕ) : TrueBounds (init kind none none) n n := by
  refine ⟨fun hno => absurd hno (lt_irrefl n), fun _ => ?_, ?_⟩
  · exact ⟨init_minKey _ _ _, (init_none _ _).1⟩
  · rw [(init_none _ _).2.1, sub_self]
    rfl

/-- With the greatest key missed, the bounds of a valid queue are wrong, since its count is zero. -/
theorem trueBounds_of_none {lo hi : ℕ} (hlt : lo < hi) (kind : Kind) (mn : Option UInt64) :
    ((init kind mn none).isValid_ = true → TrueBounds (init kind mn none) lo hi) ↔
      (mn.getD MIN_KEY).toNat ≠ 0 := by
  obtain ⟨-, hcount, hvalid⟩ := init_none kind mn
  have hwrong : ¬ TrueBounds (init kind mn none) lo hi := by
    intro hb
    have hlen := hb.count
    rw [hcount] at hlen
    have hzero : (0 : Int64).toInt = 0 := rfl
    omega
  rw [imp_iff_not hwrong, hvalid, ← UInt64.toNat_inj]
  rfl

/-- With the greatest key read and `n` for the smallest one, they are right if `n` is. -/
theorem trueBounds_of_some {lo hi n : ℕ} (hlt : lo < hi) (hhi : hi ≤ 2 ^ 64) (hn : n < hi) (kind : Kind)
    (mn : Option UInt64) (hmn : (mn.getD MIN_KEY).toNat = n) {q : KueueImpl}
    (hq : q = init kind mn (some (UInt64.ofNat (hi - 1)))) :
    (q.isValid_ = true → TrueBounds q lo hi) ↔
      (hi - n < 2 ^ 63 ∨ hi - n = 2 ^ 64 → n = lo ∧ hi - n < 2 ^ 64) := by
  have hlast : (UInt64.ofNat (hi - 1)).toNat = hi - 1 :=
    UInt64.toNat_ofNat_of_lt' (by simp only [UInt64.size]; omega)
  have hmax : (UInt64.ofNat (hi - 1) + 1 - 1).toNat = hi - 1 := by
    rw [UInt64.add_sub_cancel, hlast]
  have hlength : hi - 1 + 1 - n = hi - n := by omega
  obtain ⟨hmaxKey, hvalid, hcount⟩ := init_some kind mn (k := UInt64.ofNat (hi - 1))
  have hminKey := init_minKey kind mn (some (UInt64.ofNat (hi - 1)))
  rw [← hq] at hmaxKey hvalid hcount hminKey
  rw [hlast, hmn, hlength] at hvalid hcount
  have hiff : q.isValid_ = true → (TrueBounds q lo hi ↔ n = lo ∧ hi - n < 2 ^ 64) := by
    intro hv
    constructor
    · intro hb
      have hmin := (hb.keys hlt).1
      rw [hminKey, hmn] at hmin
      have hlen := hb.count
      rw [hcount hv] at hlen
      omega
    · rintro ⟨rfl, hlen⟩
      refine ⟨fun _ => ⟨by rw [hminKey, hmn], by rw [hmaxKey, hmax]⟩, fun hno => absurd hno hlt.ne, ?_⟩
      rw [hcount hv, Nat.mod_eq_of_lt hlen]
      omega
  rw [imp_congr_right hiff, hvalid]
  exact imp_congr_left (and_iff_right (by omega))

theorem trueBounds_iff {m : Family} {lo hi : ℕ} (hc : Spans m lo hi) (kind : Kind)
    (aMin aMax : Answers) {q : KueueImpl}
    (hq : q = init kind (reading aMin FMap.firstKey m) (reading aMax FMap.lastKey m)) :
    (q.isValid_ = true → TrueBounds q lo hi) ↔ ¬ Misread aMin aMax lo hi := by
  have hle := hc.le
  have hhi := hc.hi_le
  rw [hc.reading_first, hc.reading_last] at hq
  by_cases hlt : lo < hi
  swap
  · obtain rfl : lo = hi := by omega
    simp only [hlt, and_false, if_false] at hq
    subst hq
    exact iff_of_true (fun _ => trueBounds_empty kind lo) fun hm => hlt hm.1
  have hlo : (UInt64.ofNat lo).toNat = lo :=
    UInt64.toNat_ofNat_of_lt' (by simp only [UInt64.size]; omega)
  simp only [hlt, and_true] at hq
  cases hsMin : aMin.seek with
  | none =>
    simp only [hsMin, if_true] at hq
    cases hsMax : aMax.seek with
    | none =>
      simp only [hsMax, if_true] at hq
      have hmis : Misread aMin aMax lo hi ↔ lo = 0 ∧ hi = 2 ^ 64 := by
        simp [Misread, hsMin, hsMax, hlt]
      rw [trueBounds_of_some hlt hhi hlt kind (some (UInt64.ofNat lo)) hlo hq, hmis]
      omega
    | some e =>
      simp only [hsMax, reduceCtorEq, if_false] at hq
      have hmis : Misread aMin aMax lo hi ↔ lo = 0 := by
        simp [Misread, hsMin, hsMax, hlt]
      rw [hq, trueBounds_of_none hlt, Option.getD_some, hlo, hmis]
  | some e =>
    simp only [hsMin, reduceCtorEq, if_false] at hq
    have hzero : ((none : Option UInt64).getD MIN_KEY).toNat = 0 := rfl
    cases hsMax : aMax.seek with
    | none =>
      simp only [hsMax, if_true] at hq
      have hmis : Misread aMin aMax lo hi ↔ (0 < lo ∧ hi < 2 ^ 63) ∨ hi = 2 ^ 64 := by
        simp [Misread, hsMin, hsMax, hlt]
      rw [trueBounds_of_some hlt hhi (by omega) kind none hzero hq, hmis]
      omega
    | some e' =>
      simp only [hsMax, reduceCtorEq, if_false] at hq
      have hmis : Misread aMin aMax lo hi := by
        simp [Misread, hsMin, hsMax, hlt]
      rw [hq, trueBounds_of_none hlt, hzero]
      exact iff_of_false (by simp) (by simpa using hmis)

/-! ## Later puts -/

/-- Every key of the Kind, live or left over, is one of the `n` keys from `first` on, and the next put
goes to the key after those. -/
structure Ahead (kd : KindImpl) (first : UInt64) (n : ℕ) (x : KueueImpl × StoreImpl) : Prop where
  kind : x.1.queueKind = some (.impl kd)
  maxKey : x.1.maxKey = first + UInt64.ofNat n
  keys : ∃ db, x.2.OpenWith db ∧
    ∀ k, k ∈ db.data kd.handle ∨ db.overwritten kd.handle k = true →
      ∃ i < n, k = putU64BE (first + UInt64.ofNat i)

namespace Ahead

variable {first : UInt64} {n : ℕ} {x y : KueueImpl × StoreImpl} {q q' : KueueImpl}

/-- The next put does not overwrite, as long as not all keys were used. -/
theorem notMem (h : Ahead kd first n x) (hn : n < 2 ^ 64) :
    ∃ db, x.2.OpenWith db ∧ putU64BE x.1.maxKey ∉ db.data kd.handle := by
  obtain ⟨db, hopen, hkeys⟩ := h.keys
  refine ⟨db, hopen, fun hmem => ?_⟩
  obtain ⟨i, hi, heq⟩ := hkeys _ (.inl hmem)
  have hkey : first + UInt64.ofNat n = first + UInt64.ofNat i := by
    have := congrArg getU64BE heq
    rwa [getU64BE_putU64BE, getU64BE_putU64BE, h.maxKey] at this
  have hnum := congrArg UInt64.toNat ((UInt64.add_right_inj first).mp hkey)
  rw [UInt64.toNat_ofNat_of_lt' hn, UInt64.toNat_ofNat_of_lt' (lt_trans hi hn)] at hnum
  omega

/-- A store with the same content. -/
theorem untouched (h : Ahead kd first n (q, s)) {s' : StoreImpl} {db db' : Db} (hopen : s.OpenWith db)
    (hu : StoreImpl.Untouched s db s' db') : Ahead kd first n (q, s') where
  kind := h.kind
  maxKey := h.maxKey
  keys := by
    obtain ⟨db₁, hopen₁, hkeys⟩ := h.keys
    obtain rfl : db = db₁ := hopen.db_eq hopen₁.txnDb
    refine ⟨db', hu.toOpenWith, fun k hk => hkeys k ?_⟩
    rwa [hu.content.data, hu.content.overwritten] at hk

/-- A `SingleDelete` of whatever key, with whatever effect on a key that was overwritten. -/
theorem singleDelete (h : Ahead kd first n (q, s)) {s' : StoreImpl} {db db' : Db} {key : Bytes}
    {undefined : Option Bytes} (hopen : s.OpenWith db) (hopen' : s'.OpenWith db')
    (hw : StoreImpl.Wrote (.singleDelete kd.handle key undefined) db db') :
    Ahead kd first n (q, s') where
  kind := h.kind
  maxKey := h.maxKey
  keys := by
    obtain ⟨db₁, hopen₁, hkeys⟩ := h.keys
    obtain rfl : db = db₁ := hopen.db_eq hopen₁.txnDb
    refine ⟨db', hopen', fun k hk => hkeys k ?_⟩
    rw [hw.data, hw.overwritten] at hk
    by_cases hover : db.overwritten kd.handle key = true
    · -- the environment may leave the key, which was known before
      cases undefined with
      | none =>
        simp only [Db.apply, hover, if_true, Db.setFamily, Function.update_self,
          Finmap.mem_erase] at hk
        exact hk.imp And.right id
      | some v =>
        simp only [Db.apply, hover, if_true, Db.setFamily, Function.update_self,
          Finmap.mem_insert] at hk
        rcases hk with (rfl | hk) | hk
        · exact .inr hover
        · exact .inl hk
        · exact .inr hk
    · simp only [Db.apply, hover, Bool.false_eq_true, if_false, Db.setFamily, Db.setOverwritten,
        Function.update_self] at hk
      rcases hk with hk | hk
      · exact .inl (Finmap.mem_erase.mp hk).2
      · refine .inr ?_
        by_cases hkey : k = key
        · subst hkey
          simp at hk
        · simpa [Function.update_of_ne hkey] using hk

theorem put (h : Ahead kd first n (q, s)) {s' : StoreImpl} {db db' : Db} {v : Bytes}
    (hopen : s.OpenWith db) (hopen' : s'.OpenWith db')
    (hw : StoreImpl.Wrote (.put kd.handle (putU64BE q.maxKey) v) db db')
    (hkind : q'.queueKind = q.queueKind) (hmax : q'.maxKey = q.maxKey + 1) :
    Ahead kd first (n + 1) (q', s') where
  kind := hkind.trans h.kind
  maxKey := by
    show q'.maxKey = _
    rw [hmax, show q.maxKey = _ from h.maxKey, UInt64.ofNat_add, UInt64.add_assoc]
    rfl
  keys := by
    obtain ⟨db₁, hopen₁, hkeys⟩ := h.keys
    obtain rfl : db = db₁ := hopen.db_eq hopen₁.txnDb
    refine ⟨db', hopen', fun k hk => ?_⟩
    rw [hw.data, hw.overwritten] at hk
    simp only [Db.apply, Db.setFamily, Db.setOverwritten, Function.update_self] at hk
    by_cases hkey : k = putU64BE q.maxKey
    · exact ⟨n, Nat.lt_succ_self n, by rw [hkey, show q.maxKey = _ from h.maxKey]⟩
    · have hold : k ∈ db.data kd.handle ∨ db.overwritten kd.handle k = true := by
        rcases hk with hk | hk
        · exact .inl ((Finmap.mem_insert.mp hk).resolve_left hkey)
        · exact .inr (by simpa [Function.update_of_ne hkey] using hk)
      obtain ⟨i, hi, heq⟩ := hkeys k hold
      exact ⟨i, Nat.lt_succ_of_lt hi, heq⟩

/-- The queue may change in whatever leaves `maxKey` and the Kind. -/
theorem congr (h : Ahead kd first n (q, s)) (hkind : q'.queueKind = q.queueKind)
    (hmax : q'.maxKey = q.maxKey) : Ahead kd first n (q', s) :=
  ⟨hkind.trans h.kind, hmax.trans h.maxKey, h.keys⟩

theorem getKindRef_eq (h : Ahead kd first n (q, s)) : q.getKindRef = .ok (.impl kd) := by
  have hkind : q.queueKind = some (.impl kd) := h.kind
  simp only [getKindRef, hkind]

/-- `singleRemove` of whatever key. -/
theorem singleRemove (h : Ahead kd first n (q, s)) {a : Answers} {state st : Option ℤ} {key : Bytes}
    {s' : StoreImpl} (hrun : s.singleRemove a state (.impl kd) (some key) = .ok (st, s')) :
    Ahead kd first n (q, s') := by
  obtain ⟨db, hopen, -⟩ := h.keys
  obtain ⟨st', s₁, db', hrun', hres⟩ := StoreImpl.voidWrite_open hopen a
    (fun key fam => .singleDelete fam key a.undefined) state (.impl kd) (some key)
  obtain ⟨rfl, rfl⟩ := Prod.mk.inj (Except.ok.inj (hrun.symm.trans hrun'))
  rcases hres with ⟨c, -, -, hu⟩ | ⟨k, key', hk, hkey, -, hcom⟩
  · exact h.untouched hopen hu
  · cases hk
    cases hkey
    exact h.singleDelete hopen hcom.toOpenWith hcom.toWrote

theorem takeNow (h : Ahead kd first n (q, s)) {a : Answers} {status : Option ℤ} {valLen : Option ℕ}
    {r : Reply} {s' : StoreImpl} (hrun : q.takeNow a status valLen s = .ok (r, q', s')) :
    Ahead kd first n (q', s') := by
  obtain ⟨db, hopen, -⟩ := h.keys
  obtain ⟨r', s₁, db', hrun', hres⟩ := StoreImpl.ifPresent_open hopen a
    (fun key fam => .singleDelete fam key a.undefined) (localState status) (.impl kd) valLen
    (some (putU64BE q.minKey))
  have hcall : s.singleRemoveIfPresent a (localState status) (.impl kd) valLen
      (some (putU64BE q.minKey)) = .ok (r', s₁) := hrun'
  simp only [KueueImpl.takeNow, h.getKindRef_eq, ok_bind, hcall] at hrun
  obtain ⟨-, hx⟩ := Prod.mk.inj (Except.ok.inj hrun)
  obtain ⟨rfl, rfl⟩ := Prod.mk.inj hx
  have hstore : Ahead kd first n (q, s₁) := by
    rcases hres with ⟨c, -, -, hu⟩ | ⟨k, key', value, hk, hkey, -, -, -, -, hcom⟩
    · exact h.untouched hopen hu
    · cases hk
      cases hkey
      exact h.singleDelete hopen hcom.toOpenWith hcom.toWrote
  split <;> exact hstore.congr rfl rfl

theorem readNow (h : Ahead kd first n (q, s)) {a : Answers} {status : Option ℤ} {valLen : Option ℕ}
    {pKey : Option UInt64} {r : Reply} {s' : StoreImpl}
    (hrun : q.readNow a status valLen pKey s = .ok (r, q', s')) : Ahead kd first n (q', s') := by
  obtain ⟨db, hopen, -⟩ := h.keys
  obtain ⟨r', hget, -⟩ := StoreImpl.get_open hopen a (localState status) (.impl kd) valLen
    (some (putU64BE q.minKey))
  simp only [KueueImpl.readNow, h.getKindRef_eq, ok_bind, hget] at hrun
  obtain ⟨-, hx⟩ := Prod.mk.inj (Except.ok.inj hrun)
  obtain ⟨rfl, rfl⟩ := Prod.mk.inj hx
  exact h

theorem clearLoop (h : Ahead kd first n (q, s)) (as : ℕ → Answers) {m i : ℕ} {state st : Option ℤ}
    {s' : StoreImpl} (hrun : clearLoop as (.impl kd) m i state q s = .ok (st, q', s')) :
    Ahead kd first n (q', s') := by
  induction m generalizing i state q s with
  | zero =>
    cases hrun
    exact h
  | succ m ih =>
    unfold KueueImpl.clearLoop at hrun
    split_ifs at hrun
    · obtain ⟨⟨st₁, s₁⟩, hcall, hrest⟩ := exists_of_bind_eq_ok hrun
      have h₁ := h.singleRemove hcall
      simp only at hrest
      split_ifs at hrest
      · have h₂ : Ahead kd first n (q.removed, s₁) := h₁.congr rfl rfl
        exact ih h₂ hrest
      · cases hrest
        exact h₁
    · cases hrun
      exact h

end Ahead

/-- The puts of a run. -/
def puts (ls : List Label) : ℕ :=
  ls.countP fun l => match l.call with
    | .put .. => true
    | _ => false

/-- The wait of the operations with a timeout changes nothing before the body. -/
theorem Ahead.waitFor {first : UInt64} {n : ℕ} {q q' : KueueImpl} {s s' : StoreImpl}
    (h : Ahead kd first n (q, s)) {timeout : ℤ} {status : Option ℤ} {valLen : Option ℕ}
    {pKey : Option UInt64} {body : Except Halt (Reply × KueueImpl × StoreImpl)} {r : Reply}
    (hbody : body = .ok (r, q', s') → Ahead kd first n (q', s'))
    (hrun : q.waitFor timeout status valLen pKey s body = .ok (r, q', s')) :
    Ahead kd first n (q', s') := by
  unfold KueueImpl.waitFor at hrun
  split_ifs at hrun
  · exact hbody hrun
  · cases hrun
    exact h
  · cases hrun
    exact h

section Calls

variable {first : UInt64} {n : ℕ} {q q' : KueueImpl} {s s' : StoreImpl}

/-- A put uses the next key if it succeeds, and none if it fails. -/
theorem Ahead.of_put (h : Ahead kd first n (q, s)) {a : Answers} {status st : Option ℤ} {v : Bytes}
    (hrun : q.put a status v s = .ok (st, q', s')) : ∃ n' ≤ n + 1, Ahead kd first n' (q', s') := by
  unfold KueueImpl.put at hrun
  split_ifs at hrun
  · obtain ⟨db, hopen, -⟩ := h.keys
    obtain ⟨c, s₂, db', hcall, hres⟩ := StoreImpl.voidWrite_open hopen a
      (fun key fam => .put fam key v) (localState status) (.impl kd) (some (putU64BE q.maxKey))
    have hput : s.put a (localState status) (.impl kd) (some (putU64BE q.maxKey)) v = .ok (c, s₂) :=
      hcall
    simp only [h.getKindRef_eq, ok_bind, hput] at hrun
    rcases hres with ⟨c', hc, rfl, hu⟩ | ⟨k, key, hk, hkey, rfl, hcom⟩
    · have hne : assign c' (localState status) ≠ some Status.ok := by
        simpa [localState] using hc
      rw [if_neg hne] at hrun
      cases hrun
      exact ⟨n, Nat.le_succ n, (h.untouched hopen hu).congr rfl (UInt64.add_sub_cancel _ _)⟩
    · cases hk
      cases hkey
      have hok : assign Status.ok (localState status) = some Status.ok := rfl
      rw [if_pos hok] at hrun
      cases hrun
      exact ⟨n + 1, le_rfl, h.put hopen hcom.toOpenWith hcom.toWrote rfl rfl⟩
  · cases hrun
    exact ⟨n, Nat.le_succ n, h⟩

theorem Ahead.of_take (h : Ahead kd first n (q, s)) {a : Answers} {status : Option ℤ}
    {valLen : Option ℕ} {r : Reply} (hrun : q.take a status valLen s = .ok (r, q', s')) :
    Ahead kd first n (q', s') := by
  unfold KueueImpl.take at hrun
  split_ifs at hrun
  · exact h.takeNow hrun
  · cases hrun
    exact h

theorem Ahead.of_erase (h : Ahead kd first n (q, s)) {a : Answers} {key : UInt64} {b : Bool}
    (hrun : q.erase a key s = .ok (b, q', s')) : Ahead kd first n (q', s') := by
  by_cases hhit : q.isValid_ = true ∧ key = q.minKey
  · simp only [KueueImpl.erase, if_pos hhit, if_pos hhit.2, h.getKindRef_eq, ok_bind] at hrun
    obtain ⟨⟨st, s₂⟩, hcall, hrest⟩ := exists_of_bind_eq_ok hrun
    have h₂ := h.singleRemove hcall
    obtain ⟨-, hx⟩ := Prod.mk.inj (Except.ok.inj hrest)
    obtain ⟨rfl, rfl⟩ := Prod.mk.inj hx
    split <;> exact h₂.congr rfl rfl
  · simp only [KueueImpl.erase, if_neg hhit] at hrun
    cases hrun
    exact h

theorem Ahead.of_clear (h : Ahead kd first n (q, s)) {as : ℕ → Answers} {status st : Option ℤ}
    (hrun : q.clear as status s = .ok (st, q', s')) : Ahead kd first n (q', s') := by
  unfold KueueImpl.clear at hrun
  split_ifs at hrun
  · simp only [h.getKindRef_eq, ok_bind] at hrun
    obtain ⟨⟨st', q₂, s₂⟩, hloop, hrest⟩ := exists_of_bind_eq_ok hrun
    cases hrest
    exact h.clearLoop as hloop
  · cases hrun
    exact h

/-- **One call** uses at most one more key, and only if it is a put. -/
theorem Ahead.step {x y : KueueImpl × StoreImpl} {l : Label} (h : Ahead kd first n x)
    (hst : Step x l y) : ∃ n' ≤ n + puts [l], Ahead kd first n' y := by
  obtain ⟨q, s⟩ := x
  obtain ⟨q', s'⟩ := y
  obtain ⟨call, as, outcome⟩ := l
  have hsame : ∀ {m}, Ahead kd first n (q', s') → ∃ n' ≤ n + m, Ahead kd first n' (q', s') :=
    fun h' => ⟨n, Nat.le_add_right _ _, h'⟩
  cases call with
  | put status v =>
    obtain ⟨⟨st, q₁, s₁⟩, hrun, hx⟩ := exists_of_map_eq_ok hst
    cases hx
    exact h.of_put hrun
  | take status valLen =>
    obtain ⟨⟨r, q₁, s₁⟩, hrun, hx⟩ := exists_of_map_eq_ok hst
    cases hx
    exact hsame (h.of_take hrun)
  | takeTimed status valLen timeout =>
    obtain ⟨⟨r, q₁, s₁⟩, hrun, hx⟩ := exists_of_map_eq_ok hst
    cases hx
    exact hsame (h.waitFor (fun hbody => h.takeNow hbody) hrun)
  | readNext status valLen pKey timeout =>
    obtain ⟨⟨r, q₁, s₁⟩, hrun, hx⟩ := exists_of_map_eq_ok hst
    cases hx
    exact hsame (h.waitFor (fun hbody => h.readNow hbody) hrun)
  | erase key =>
    obtain ⟨⟨b, q₁, s₁⟩, hrun, hx⟩ := exists_of_map_eq_ok hst
    cases hx
    exact hsame (h.of_erase hrun)
  | clear status =>
    obtain ⟨⟨st, q₁, s₁⟩, hrun, hx⟩ := exists_of_map_eq_ok hst
    cases hx
    exact hsame (h.of_clear hrun)

end Calls

theorem Ahead.run {first : UInt64} {n : ℕ} {x y : KueueImpl × StoreImpl} {ls : List Label}
    (h : Ahead kd first n x) (hrun : Run Step x ls y) : ∃ n' ≤ n + puts ls, Ahead kd first n' y := by
  induction hrun generalizing n with
  | nil => exact ⟨n, le_rfl, h⟩
  | cons hst _ ih =>
    obtain ⟨n₁, hn₁, h₁⟩ := h.step hst
    obtain ⟨n₂, hn₂, h₂⟩ := ih h₁
    refine ⟨n₂, ?_, h₂⟩
    simp only [puts, List.countP_cons, List.countP_nil] at hn₁ hn₂ ⊢
    omega

/-- In every run of calls through the queue with fewer than `2 ^ 64` messages in all, those counted that
were there before it, the key of the next put is free. -/
def NeverOverwrites (q : KueueImpl) (s : StoreImpl) (before : ℕ) : Prop :=
  ∀ ls x, Run Step (q, s) ls x → before + puts ls < 2 ^ 64 →
    ∃ db kd, x.2.OpenWith db ∧ x.1.queueKind = some (.impl kd) ∧
      putU64BE x.1.maxKey ∉ db.data kd.handle

theorem TrueBounds.neverOverwrites {q : KueueImpl} {lo hi : ℕ} (hb : TrueBounds q lo hi)
    (hkind : q.queueKind = some (.impl kd)) (hopen : s.OpenWith db) (hc : Covers kd.handle db lo hi) :
    NeverOverwrites q s (hi - lo) := by
  intro ls x hrun hlt
  have hle := hc.le
  have hahead : Ahead kd q.minKey (hi - lo) (q, s) := by
    refine ⟨hkind, ?_, db, hopen, fun k hk => ?_⟩
    · by_cases hne : lo < hi
      · obtain ⟨hmin, hmax⟩ := hb.keys hne
        have hmin' : q.minKey = UInt64.ofNat lo := by rw [← hmin, UInt64.ofNat_toNat]
        have hmax' : q.maxKey - 1 = UInt64.ofNat (hi - 1) := by rw [← hmax, UInt64.ofNat_toNat]
        rw [hmin', ← UInt64.ofNat_add, show lo + (hi - lo) = hi - 1 + 1 by omega, UInt64.ofNat_add,
          ← hmax', show UInt64.ofNat 1 = 1 from rfl, UInt64.sub_add_cancel]
      · obtain rfl : lo = hi := by omega
        obtain ⟨hmin, hmax⟩ := hb.empty rfl
        show q.maxKey = _
        rw [hmin, hmax, Nat.sub_self]
        rfl
    · have hmem : k ∈ db.data kd.handle := hk.elim id (hc.live k)
      obtain ⟨i, h₁, h₂, rfl⟩ := (hc.keys k).mp hmem
      refine ⟨i - lo, by omega, ?_⟩
      have hmin' : q.minKey = UInt64.ofNat lo := by
        rw [← (hb.keys (by omega)).1, UInt64.ofNat_toNat]
      rw [hmin', ← UInt64.ofNat_add, Nat.add_sub_cancel' h₁]
      rfl
  obtain ⟨n, hn, hx⟩ := hahead.run hrun
  obtain ⟨db', hopen', hfree⟩ := hx.notMem (by omega)
  exact ⟨db', kd, hopen', hx.kind, hfree⟩

/-- **True bounds.** On a Kind with an interval of keys, a valid queue has the true bounds and count, and
no later put through it overwrites a message, exactly when the seeks do not misread the Kind. -/
theorem bounds_true_iff (hs : s.Sound) (aKind aMin aMax : Answers) (id : Bytes) {lo hi : ℕ}
    (hkeys : ∀ kd s₁ db, Obtains aKind id s kd s₁ → s₁.OpenWith db → Covers kd.handle db lo hi) :
    ∃ q s', new aKind aMin aMax id s = .ok (q, s') ∧
      ((q.isValid_ = true → TrueBounds q lo hi ∧ NeverOverwrites q s' (hi - lo)) ↔
        ¬ ((∃ kd s₁, Obtains aKind id s kd s₁) ∧ (aMin.iterator = true ∧ aMax.iterator = true) ∧
          Misread aMin aMax lo hi)) := by
  by_cases hread : (∃ kd s₁, Obtains aKind id s kd s₁) ∧ aMin.iterator = true ∧ aMax.iterator = true
  · obtain ⟨⟨kd, s₁, hgot⟩, hmin, hmax⟩ := hread
    obtain ⟨-, db, hopen⟩ := hgot.openWith hs
    have hc := hkeys kd s₁ db hgot hopen
    have hiff := trueBounds_iff hc.toSpans (.impl kd) aMin aMax rfl
    refine ⟨_, s₁, new_read hs hgot hopen hmin hmax, ?_⟩
    constructor
    · rintro himp ⟨-, -, hmis⟩
      exact hiff.mp (fun hv => (himp hv).1) hmis
    · intro hno hv
      have hb := hiff.mpr (fun hmis => hno ⟨⟨kd, s₁, hgot⟩, ⟨hmin, hmax⟩, hmis⟩) hv
      exact ⟨hb, hb.neverOverwrites (init_queueKind _ _ _) hopen hc⟩
  · obtain ⟨q, s', hnew, hinvalid⟩ := new_unread hs hread
    refine ⟨q, s', hnew, iff_of_true (fun hv => ?_) fun hno => hread ⟨hno.1, hno.2.1⟩⟩
    rw [hinvalid] at hv
    exact absurd hv (by decide)

/-- A store that was just created: the new Kind is empty and both keys are zero. -/
theorem bounds_true_iff_created :
    ∃ q s', new {} {} {} [113] .created = .ok (q, s') ∧ q.isValid_ = true ∧ TrueBounds q 0 0 ∧
      NeverOverwrites q s' 0 := by
  have hsound : StoreImpl.created.Sound := fun _ => rfl
  have hkeys : ∀ kd s₁ db, Obtains {} [113] .created kd s₁ → s₁.OpenWith db →
      Covers kd.handle db 0 0 := by
    intro kd s₁ db hgot hopen
    cases hgot.call
    obtain ⟨-, hdb⟩ := hopen
    cases hdb
    exact ⟨⟨le_rfl, Nat.zero_le _,
      fun k => ⟨fun hk => absurd hk Finmap.notMem_empty, fun ⟨i, _, hi, _⟩ => absurd hi (Nat.not_lt_zero i)⟩⟩,
      fun k hk => absurd (show false = true from hk) (by decide)⟩
  obtain ⟨q, s', hnew, hiff⟩ := bounds_true_iff hsound {} {} {} [113] hkeys
  have hvalid : q.isValid_ = true := by
    rw [new_created] at hnew
    cases hnew
    rfl
  have hboth := hiff.mpr (fun hno => absurd hno.2.2.1 (lt_irrefl 0)) hvalid
  exact ⟨q, s', hnew, hvalid, hboth.1, hboth.2⟩

private def oneStored : KueueImpl × StoreImpl := (Call.put (some 0) [7]).after (fun _ => {}) created

private def missed : Answers := { seek := some .ioError }

/-- Both seeks fail on a Kind with one message, under key zero. The queue is valid and thinks it is
empty, and its first put overwrites the message. -/
theorem seeks_missed :
    ∃ q s' db, new {} missed missed [113] oneStored.2 = .ok (q, s') ∧ s'.OpenWith db ∧
      Covers createdKind.handle db 0 1 ∧ (db.data createdKind.handle).lookup (putU64BE 0) = some [7] ∧
      q.isValid_ = true ∧ q.count = 0 ∧ ¬ TrueBounds q 0 1 ∧
      ∃ y, Step (q, s') ⟨.put (some 0) [8], fun _ => {}, .reply { status := some 0 }⟩ y ∧
        ∀ db', y.2.OpenWith db' →
          (db'.data createdKind.handle).lookup (putU64BE 0) = some [8] := by
  refine ⟨_, _, _, rfl, ⟨rfl, rfl⟩, ⟨⟨by decide, by decide, fun k => ?_⟩, fun k hk => ?_⟩, rfl, rfl, rfl,
    fun hb => absurd hb.count (by decide), _, Call.step_after rfl, ?_⟩
  · show k ∈ Finmap.insert (putU64BE 0) [7] (∅ : Family) ↔ _
    rw [Finmap.mem_insert]
    constructor
    · rintro (rfl | hk)
      · exact ⟨0, le_rfl, by decide, rfl⟩
      · exact absurd hk Finmap.notMem_empty
    · rintro ⟨i, -, hi, rfl⟩
      obtain rfl : i = 0 := by omega
      exact .inl rfl
  · have hk : Function.update (fun _ : Bytes => false) (putU64BE 0) false k = true := hk
    simp [Function.update_apply] at hk
  · rintro db' ⟨-, hdb⟩
    cases hdb
    rfl

/-! ## Contents that are accepted -/

/-- The number of the smallest key, and zero if there is none of the right length. -/
def lowest (m : Family) : ℕ := (((FMap.firstKey m).bind asKey).map UInt64.toNat).getD 0

/-- The number after that of the greatest key, and zero if there is none of the right length. -/
def beyond (m : Family) : ℕ := (((FMap.lastKey m).bind asKey).map fun k => k.toNat + 1).getD 0

/-- What the constructor finds out about a content: whether the two extreme keys are in order, and
whether their distance fits into the count. -/
def Accepted (m : Family) : Prop :=
  if beyond m = 0 then lowest m = 0
  else lowest m < beyond m ∧ (beyond m - lowest m < 2 ^ 63 ∨ beyond m - lowest m = 2 ^ 64)

/-- The map holds as many entries as the queue counts, and one under each of the keys from `minKey` on
that are counted. -/
structure WellFormed (q : KueueImpl) (m : Family) : Prop where
  card : (m.keys.card : ℤ) = q.count.toInt
  present : ∀ i < q.count.toInt.toNat, putU64BE (q.minKey + UInt64.ofNat i) ∈ m

theorem lowest_lt (m : Family) : lowest m < 2 ^ 64 := by
  unfold lowest
  cases (FMap.firstKey m).bind asKey with
  | none => decide
  | some k => exact k.toNat_lt

theorem beyond_le (m : Family) : beyond m ≤ 2 ^ 64 := by
  unfold beyond
  cases (FMap.lastKey m).bind asKey with
  | none => decide
  | some k => exact k.toNat_lt

/-- What is built from the extreme keys. -/
structure Bounds (q : KueueImpl) (m : Family) : Prop where
  minKey : q.minKey.toNat = lowest m
  maxKey : q.maxKey = UInt64.ofNat (beyond m)
  count : q.count.toInt = ((beyond m - lowest m) % 2 ^ 64 : ℕ)

theorem init_bounds (kind : Kind) (m : Family) {q : KueueImpl}
    (hq : q = init kind ((FMap.firstKey m).bind asKey) ((FMap.lastKey m).bind asKey)) :
    (q.isValid_ = true ↔ Accepted m) ∧ (q.isValid_ = true → Bounds q m) := by
  have hlow : (((FMap.firstKey m).bind asKey).getD MIN_KEY).toNat = lowest m := by
    unfold lowest
    cases (FMap.firstKey m).bind asKey <;> rfl
  have hminKey : q.minKey.toNat = lowest m := by rw [hq, init_minKey, hlow]
  cases hlast : (FMap.lastKey m).bind asKey with
  | none =>
    have hbeyond : beyond m = 0 := by simp only [beyond, hlast]; rfl
    rw [hlast] at hq
    obtain ⟨hmaxKey, hcount, hvalid⟩ := init_none kind ((FMap.firstKey m).bind asKey)
    rw [← hq] at hmaxKey hcount hvalid
    refine ⟨?_, fun _ => ⟨hminKey, by rw [hmaxKey, hbeyond]; rfl, ?_⟩⟩
    · rw [hvalid, Accepted, if_pos hbeyond, ← hlow, ← UInt64.toNat_inj]
      rfl
    · rw [hcount, hbeyond]
      simp
  | some k =>
    have hbeyond : beyond m = k.toNat + 1 := by simp only [beyond, hlast]; rfl
    rw [hlast] at hq
    obtain ⟨hmaxKey, hvalid, hcount⟩ := init_some kind ((FMap.firstKey m).bind asKey) (k := k)
    rw [← hq, hlow] at hvalid hcount
    rw [← hq] at hmaxKey
    refine ⟨?_, fun hv => ⟨hminKey, ?_, ?_⟩⟩
    · rw [hvalid, Accepted, if_neg (by omega), hbeyond, Nat.lt_succ_iff]
    · rw [hmaxKey, hbeyond, UInt64.ofNat_add, UInt64.ofNat_toNat]
      rfl
    · rw [hcount hv, hbeyond]

theorem lowest_of_spans {m : Family} {lo hi : ℕ} (hspan : Spans m lo hi) (hlt : lo < hi) :
    lowest m = lo := by
  have hhi := hspan.hi_le
  simp only [lowest, hspan.firstKey_eq, if_pos hlt, Option.bind_some, asKey_code, Option.map_some,
    Option.getD_some]
  exact UInt64.toNat_ofNat_of_lt' (by simp only [UInt64.size]; omega)

theorem beyond_of_spans {m : Family} {lo hi : ℕ} (hspan : Spans m lo hi) (hlt : lo < hi) :
    beyond m = hi := by
  have hhi := hspan.hi_le
  simp only [beyond, hspan.lastKey_eq, if_pos hlt, Option.bind_some, asKey_code, Option.map_some,
    Option.getD_some]
  rw [UInt64.toNat_ofNat_of_lt' (by simp only [UInt64.size]; omega)]
  omega

/-- The extreme keys of an interval tell its length, unless it has all keys. -/
theorem length_of_spans {m : Family} {lo hi : ℕ} (hspan : Spans m lo hi) (hlen : hi - lo < 2 ^ 64) :
    (beyond m - lowest m) % 2 ^ 64 = hi - lo := by
  by_cases hlt : lo < hi
  · rw [lowest_of_spans hspan hlt, beyond_of_spans hspan hlt, Nat.mod_eq_of_lt hlen]
  · have hbeyond : beyond m = 0 := by
      simp only [beyond, hspan.lastKey_eq, if_neg hlt]
      rfl
    rw [hbeyond]
    omega

/-- A map with `n` entries and one under each of the `n` keys from `lo` on has no other. -/
theorem spans_of_card {m : Family} (lo : ℕ) {n : ℕ} (htop : lo + n ≤ 2 ^ 64) (hcard : m.keys.card = n)
    (hpresent : ∀ i < n, code (lo + i) ∈ m) : Spans m lo (lo + n) := by
  have hinj : Set.InjOn (fun i => code (lo + i)) (Finset.range n) := by
    intro i hi j hj heq
    simp only [Finset.coe_range, Set.mem_Iio] at hi hj
    have := code_injOn (Set.mem_Iio.mpr (by omega)) (Set.mem_Iio.mpr (by omega)) heq
    omega
  have hsub : (Finset.range n).image (fun i => code (lo + i)) ⊆ m.keys := by
    intro k hk
    obtain ⟨i, hi, rfl⟩ := Finset.mem_image.mp hk
    exact Finmap.mem_keys.mpr (hpresent i (Finset.mem_range.mp hi))
  have hle : m.keys.card ≤ ((Finset.range n).image fun i => code (lo + i)).card := by
    rw [Finset.card_image_of_injOn hinj, Finset.card_range, hcard]
  have heq := Finset.eq_of_subset_of_card_le hsub hle
  refine ⟨Nat.le_add_right _ _, htop, fun k => ?_⟩
  rw [← Finmap.mem_keys, ← heq, Finset.mem_image]
  constructor
  · rintro ⟨i, hi, rfl⟩
    have := Finset.mem_range.mp hi
    exact ⟨lo + i, Nat.le_add_right _ _, by omega, rfl⟩
  · rintro ⟨i, h₁, h₂, rfl⟩
    exact ⟨i - lo, Finset.mem_range.mpr (by omega), by rw [Nat.add_sub_cancel' h₁]⟩

/-- An accepted content is well-formed exactly when it is an interval of keys, other than all of them. -/
theorem wellFormed_iff {m : Family} {q : KueueImpl} (hb : Bounds q m) :
    WellFormed q m ↔ ∃ lo hi, Spans m lo hi ∧ hi - lo < 2 ^ 64 := by
  have hlow := lowest_lt m
  have hbeyond := beyond_le m
  have hminKey : q.minKey = UInt64.ofNat (lowest m) := by rw [← hb.minKey, UInt64.ofNat_toNat]
  have hkey : ∀ i, putU64BE (q.minKey + UInt64.ofNat i) = code (lowest m + i) := by
    intro i
    rw [hminKey, code, UInt64.ofNat_add]
  have hcount : q.count.toInt.toNat = (beyond m - lowest m) % 2 ^ 64 := by
    rw [hb.count, Int.toNat_natCast]
  constructor
  · rintro ⟨hcard, hpresent⟩
    rw [hb.count] at hcard
    rw [hcount] at hpresent
    have hmod : (beyond m - lowest m) % 2 ^ 64 ≤ beyond m - lowest m := Nat.mod_le _ _
    have hlt : (beyond m - lowest m) % 2 ^ 64 < 2 ^ 64 := Nat.mod_lt _ (by decide)
    have hspan := spans_of_card (lowest m) (by omega) (Int.ofNat.inj hcard) fun i hi => by
      rw [← hkey]
      exact hpresent i hi
    exact ⟨_, _, hspan, by omega⟩
  · rintro ⟨lo, hi, hspan, hlen⟩
    have hlength := length_of_spans hspan hlen
    refine ⟨?_, fun i hi' => ?_⟩
    · rw [hspan.card_keys, hb.count, hlength]
    · rw [hcount, hlength] at hi'
      rw [hkey, lowest_of_spans hspan (by omega), hspan.keys]
      exact ⟨lo + i, Nat.le_add_right _ _, by omega, rfl⟩

/-- A `take` that finds an entry under `minKey` returns it with Ok, if nothing fails. -/
theorem take_present {q : KueueImpl} (hopen : s.OpenWith db) (hv : q.isValid_ = true)
    (hkind : q.queueKind = some (.impl kd)) (hkd : kd.isValid = true) (hpos : q.count > 0)
    (hmem : putU64BE q.minKey ∈ db.data kd.handle) {a : Answers} (ha : StoreImpl.Faultless a) (c : ℤ)
    (len : ℕ) :
    ∃ r x, q.take a (some c) (some len) s = .ok (r, x) ∧ r.status = some Status.ok := by
  obtain ⟨v, hl⟩ := Finmap.mem_iff.mp hmem
  obtain ⟨s', hcall⟩ := StoreImpl.singleRemoveIfPresent_faultless hopen ha hkd c len hl
  have hne : q.count ≠ 0 := fun h0 => by
    rw [h0] at hpos
    exact absurd hpos (by decide)
  simp only [take, hv, if_true, if_neg hne, takeNow, getKindRef, hkind, ok_bind, localState,
    Option.getD_some, hcall]
  exact ⟨_, _, rfl, rfl⟩

/-- **What the constructor accepts**, when all reads succeed: a content whose two extreme keys are in
order and not too far apart. The queue then has the bounds of these keys. The content is that of a queue
exactly when it is an interval of keys, and the next `take` returns Ok if it is one, or else if the
smallest key has the length of a key. -/
theorem accepted_iff (hs : s.Sound) (hgot : Obtains aKind id s kd s₁) (hopen : s₁.OpenWith db)
    (hiter : aMin.iterator = true ∧ aMax.iterator = true)
    (hseek : aMin.seek = none ∧ aMax.seek = none) :
    ∃ q, new aKind aMin aMax id s = .ok (q, s₁) ∧
      (q.isValid_ = true ↔ Accepted (db.data kd.handle)) ∧
      (q.isValid_ = true →
        Bounds q (db.data kd.handle) ∧
        (WellFormed q (db.data kd.handle) ↔
          ∃ lo hi, Spans (db.data kd.handle) lo hi ∧ hi - lo < 2 ^ 64) ∧
        (q.count > 0 → WellFormed q (db.data kd.handle) ∨
            (∃ key, FMap.firstKey (db.data kd.handle) = some key ∧ key.length = 8) →
          ∀ a c len, StoreImpl.Faultless a →
            ∃ r x, q.take a (some c) (some len) s₁ = .ok (r, x) ∧ r.status = some Status.ok)) := by
  have hreading : ∀ {a : Answers} {extreme : Family → Option Bytes}, a.seek = none →
      reading a extreme (db.data kd.handle) = (extreme (db.data kd.handle)).bind asKey := by
    intro a extreme h
    rw [reading, h]
    rfl
  have hnew := new_read hs hgot hopen hiter.1 hiter.2
  rw [hreading hseek.1, hreading hseek.2] at hnew
  obtain ⟨hvalid, hbounds⟩ := init_bounds (.impl kd) (db.data kd.handle) rfl
  refine ⟨_, hnew, hvalid, fun hv => ⟨hbounds hv, wellFormed_iff (hbounds hv), ?_⟩⟩
  intro hpos hentry a c len ha
  refine take_present hopen hv (init_queueKind _ _ _) hgot.valid hpos ?_ ha c len
  rcases hentry with hwf | ⟨key, hfirst, hlen⟩
  · have hlt : 0 < (init (.impl kd) ((FMap.firstKey (db.data kd.handle)).bind asKey)
        ((FMap.lastKey (db.data kd.handle)).bind asKey)).count.toInt.toNat := by
      have hpos' := Int64.lt_iff_toInt_lt.mp hpos
      have hzero : (0 : Int64).toInt = 0 := rfl
      omega
    have hmem := hwf.present 0 hlt
    rwa [show UInt64.ofNat 0 = 0 from rfl, UInt64.add_zero] at hmem
  · rw [init_minKey, hfirst, Option.bind_some, asKey, if_pos hlen, Option.getD_some,
      putU64BE_getU64BE hlen]
    exact (FMap.firstKey_eq_some_iff.mp hfirst).1

/-- The store that was just created, with a new and empty Kind. -/
theorem accepted_iff_created :
    ∃ q s₁, new {} {} {} [113] .created = .ok (q, s₁) ∧ q.isValid_ = true ∧
      ∀ db, s₁.OpenWith db → WellFormed q (db.data createdKind.handle) := by
  have hsound : StoreImpl.created.Sound := fun _ => rfl
  have hgot : Obtains {} [113] .created createdKind created.2 := ⟨rfl, rfl⟩
  obtain ⟨db, hopen, hc⟩ := created_contiguous
  have hiter : ({} : Answers).iterator = true := rfl
  obtain ⟨q, hnew, -, hall⟩ := accepted_iff hsound hgot hopen ⟨hiter, hiter⟩ ⟨rfl, rfl⟩
  have hvalid : q.isValid_ = true := by
    rw [new_created] at hnew
    cases hnew
    rfl
  refine ⟨q, created.2, hnew, hvalid, fun db' hopen' => ?_⟩
  obtain rfl : db = db' := hopen.db_eq hopen'.txnDb
  exact (hall hvalid).2.1.mpr ⟨0, 0, ⟨hc.le, hc.hi_le, hc.keys⟩, by decide⟩

/-- A Kind with a key of one byte and the key of a queue. -/
private def mixed : StoreImpl :=
  StoreImpl.Call.after {} (.put (some 0) (.impl createdKind) (some (putU64BE 5)) [2])
    (StoreImpl.Call.after {} (.put (some 0) (.impl createdKind) (some [0]) [1]) created.2)

/-- Such a Kind is accepted, although it holds two entries and the queue counts six, and although there
is nothing under `minKey`, so that `take` reports NotFound. -/
theorem mixed_keys_accepted :
    ∃ q db, new {} {} {} [113] mixed = .ok (q, mixed) ∧ mixed.OpenWith db ∧ q.isValid_ = true ∧
      q.count = 6 ∧ (db.data createdKind.handle).keys.card = 2 ∧
      putU64BE q.minKey ∉ db.data createdKind.handle ∧ ¬ WellFormed q (db.data createdKind.handle) ∧
      (q.take {} (some 0) (some 0) mixed).map (fun x => x.1.status) = .ok (some Status.notFound) := by
  have hsound : mixed.Sound := fun _ => rfl
  have hgot : Obtains {} [113] mixed createdKind mixed := ⟨rfl, rfl⟩
  obtain ⟨db, hopen, hdata⟩ : ∃ db, mixed.OpenWith db ∧ db.data createdKind.handle
      = Finmap.insert (putU64BE 5) [2] (Finmap.insert [0] [1] (∅ : Family)) := ⟨_, ⟨rfl, rfl⟩, rfl⟩
  have hiter : ({} : Answers).iterator = true := rfl
  have hnew := new_read hsound hgot hopen hiter hiter
  rw [hdata] at hnew
  have hmem : ∀ k, k ∈ Finmap.insert (putU64BE 5) [2] (Finmap.insert [0] [1] (∅ : Family)) ↔
      k = putU64BE 5 ∨ k = [0] := by
    intro k
    rw [Finmap.mem_insert, Finmap.mem_insert]
    exact or_congr_right (or_iff_left Finmap.notMem_empty)
  have hfirst : FMap.firstKey (Finmap.insert (putU64BE 5) [2] (Finmap.insert [0] [1] (∅ : Family)))
      = some [0] := by
    rw [FMap.firstKey_eq_some_iff]
    refine ⟨(hmem _).mpr (.inr rfl), fun x hx => ?_⟩
    rcases (hmem x).mp hx with rfl | rfl <;> decide
  have hlast : FMap.lastKey (Finmap.insert (putU64BE 5) [2] (Finmap.insert [0] [1] (∅ : Family)))
      = some (putU64BE 5) := by
    rw [FMap.lastKey_eq_some_iff]
    refine ⟨(hmem _).mpr (.inl rfl), fun x hx => ?_⟩
    rcases (hmem x).mp hx with rfl | rfl <;> decide
  have hreadings : reading {} FMap.firstKey
        (Finmap.insert (putU64BE 5) [2] (Finmap.insert [0] [1] (∅ : Family))) = none ∧
      reading {} FMap.lastKey
        (Finmap.insert (putU64BE 5) [2] (Finmap.insert [0] [1] (∅ : Family))) = some 5 := by
    simp only [reading, hfirst, hlast]
    exact ⟨rfl, rfl⟩
  rw [hreadings.1, hreadings.2] at hnew
  have hcard : (db.data createdKind.handle).keys.card = 2 := by
    rw [hdata]
    rfl
  refine ⟨_, db, hnew, hopen, rfl, rfl, hcard, ?_, fun hwf => ?_, rfl⟩
  · rw [hdata, hmem]
    decide
  · have := hwf.card
    rw [hcard] at this
    exact absurd this (by decide)

end KueueImpl

end Librocks
