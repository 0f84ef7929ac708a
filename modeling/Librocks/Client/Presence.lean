import Librocks.Client.KVStore
import Librocks.Store.Refinement

/-!
# What a read tells a client

Reference: `src/client/KVStore.cpp`, `src/impl/StoreImpl.cpp` (`get_`), `include/client/bytes.h`.

The store says with its status whether a key is present. `KVStore` accepts Ok and NotFound alike and
returns a `bytes` object, which is made of the buffer and the length, and an empty value has no
buffer. So what `get`, `updateIfPresent` and `removeIfPresent` return is the value of the key, or
the empty object (`returned_content`), and it tells whether the key was present if and only if the
value is not empty (`reads_tell_presence`).
-/

namespace Librocks

open Rocks

namespace BytesObj

/-- The object for a content: without a buffer if it is empty. -/
def ofContent (content : Bytes) : BytesObj Bytes := .new (StoreImpl.buffer content) content.length

/-- The bytes behind `data()`. -/
def content (b : BytesObj Bytes) : Bytes := b.data_.getD []

/-- Everything a client can ask an object for. -/
def observe (b : BytesObj Bytes) : ℕ × Option Bytes × Bool × Bool :=
  (b.size, b.data, b.toBool, b.isEmpty)

theorem ofContent_content (content : Bytes) : (ofContent content).content = content := by
  cases content <;> rfl

/-- The observers tell the contents apart. -/
theorem observe_ofContent_iff (bs cs : Bytes) :
    (ofContent bs).observe = (ofContent cs).observe ↔ bs = cs := by
  constructor
  · intro h
    have hdata : (ofContent bs).data_ = (ofContent cs).data_ := congrArg (fun o => o.2.1) h
    rw [← ofContent_content bs, ← ofContent_content cs, content, content, hdata]
  · rintro rfl
    rfl

end BytesObj

namespace StoreImpl

variable {s s' : StoreImpl} {db : Db} {a : Answers}

/-- What the store finds under a key view of a Kind. -/
def lookup (db : Db) : Kind → Option Bytes → Option Bytes
  | .impl k, some key => (db.data k.handle).lookup key
  | _, _ => none

/-- The reply to a read: the value, or nothing and NotFound, or a code that is neither of the two.
-/
inductive Reads (found : Option Bytes) (r : Reply) : Prop
  | present {value : Bytes} (hf : found = some value) (hdata : r.data = buffer value)
      (hlen : r.resultLen = some value.length)
  | absent (hf : found = none) (hdata : r.data = none) (hlen : r.resultLen = some 0)
      (hst : r.status = some Status.notFound)
  | refused {c : ℤ} (hok : c ≠ Status.ok) (hnf : c ≠ Status.notFound) (hst : r.status = some c)

/-- The frame of the reads, around a body whose results are like those of `get_`. -/
theorem readOp_reads {c : ℤ} {kind : Kind} {key : Option Bytes} {r : Reply}
    {body : Option ℤ → Bytes → StoreImpl → Except Halt (Option ℤ × ℕ × Option Bytes × StoreImpl)}
    (hbody : ∀ key' x, key = some key' → body (some Status.ok) key' s = .ok x →
      Reads (lookup db kind (some key')) (replyOf x).1)
    (h : OpenWith s db) (hrun : s.readOp body (some c) kind (some 0) key = .ok (r, s')) :
    Reads (lookup db kind key) r := by
  rcases readOp_open h body (some c) kind (some 0) key with hno | ⟨key', rfl, hgo⟩
  · rw [hno] at hrun
    cases hrun
    exact .refused (c := Status.invalidArgument) (by decide) (by decide) rfl
  · rw [hgo] at hrun
    obtain ⟨x, hx, heq⟩ := exists_of_map_eq_ok hrun
    have hreads := hbody key' x rfl hx
    rw [heq] at hreads
    exact hreads

theorem get_reads {c : ℤ} {kind : Kind} {key : Option Bytes} {r : Reply} (h : OpenWith s db)
    (hrun : s.get a (some c) kind (some 0) key = .ok (r, s')) : Reads (lookup db kind key) r := by
  refine readOp_reads (fun key' x _ hx => ?_) h hrun
  cases kind with
  | other name valid =>
    cases hx
    exact .refused (c := Status.invalidArgument) (by decide) (by decide) rfl
  | impl k =>
    rcases getBody_open h a (some Status.ok) k key' with ⟨value, hl, hget⟩ | ⟨hl, hget⟩ | ⟨e, hget⟩
    · rw [hget] at hx
      cases hx
      exact .present hl rfl rfl
    · rw [hget] at hx
      cases hx
      exact .absent hl rfl rfl rfl
    · rw [hget] at hx
      cases hx
      exact .refused (readError_code_ne e).1 (readError_code_ne e).2 rfl

/-- The old value is returned whatever becomes of the write. -/
theorem ifPresent_reads (write : Bytes → Handle → Write) {c : ℤ} {kind : Kind} {key : Option Bytes}
    {r : Reply} (h : OpenWith s db)
    (hrun : s.readOp (ifPresent a (fun status kind key s => s.txWrite a (write key) status kind) kind)
      (some c) kind (some 0) key = .ok (r, s')) : Reads (lookup db kind key) r := by
  refine readOp_reads (fun key' x _ hx => ?_) h hrun
  cases kind with
  | other name valid =>
    cases hx
    exact .refused (c := Status.invalidArgument) (by decide) (by decide) rfl
  | impl k =>
    rcases getBody_open h a (some Status.ok) k key' with ⟨value, hl, hget⟩ | ⟨hl, hget⟩ | ⟨e, hget⟩
    · simp only [ifPresent, hget, ok_bind, if_true] at hx
      obtain ⟨y, -, hx⟩ := exists_of_bind_eq_ok hx
      cases hx
      exact .present hl rfl rfl
    · simp only [ifPresent, hget, ok_bind] at hx
      cases hx
      exact .absent hl rfl rfl rfl
    · have hne : (some e.1.code : Option ℤ) ≠ some Status.ok := by
        simpa using (readError_code_ne e).1
      simp only [ifPresent, hget, ok_bind, assign_some, if_neg hne] at hx
      cases hx
      exact .refused (readError_code_ne e).1 (readError_code_ne e).2 rfl

end StoreImpl

namespace KVStore

variable {kv kv' : KVStore} {s : StoreImpl} {db : Db} {a : Answers} {kind : Kind} {key : Option Bytes}

/-- The client's store is open on the database. -/
def OpenWith (kv : KVStore) (db : Db) : Prop := ∃ s, kv.store = some s ∧ s.OpenWith db

/-- The methods that return what is, or was, stored under a key. -/
inductive Read
  | get
  | updateIfPresent (value : Bytes)
  | singleRemoveIfPresent
  | removeIfPresent

def Read.run (a : Answers) (kind : Kind) (key : Option Bytes) (kv : KVStore) :
    Read → Except Halt (Ended (BytesObj Bytes))
  | .get => kv.get a kind key
  | .updateIfPresent value => kv.updateIfPresent a kind key value
  | .singleRemoveIfPresent => kv.singleRemoveIfPresent a kind key
  | .removeIfPresent => kv.removeIfPresent a kind key

/-- A `bytes` object that is returned was made from the value, or from nothing. -/
theorem callBytes_returned {call : StoreImpl → Except Halt (StoreImpl.Reply × StoreImpl)}
    {found : Option Bytes} {b : BytesObj Bytes} (hs : kv.store = some s)
    (hreads : ∀ r s', call s = .ok (r, s') → StoreImpl.Reads found r)
    (hrun : kv.callBytes isOkOrNotFound call = .ok (.ok b, kv')) :
    b = .ofContent (found.getD []) := by
  simp only [callBytes, deref_eq hs, ok_bind] at hrun
  obtain ⟨⟨r, s'⟩, hcall, hrun⟩ := exists_of_bind_eq_ok hrun
  obtain ⟨hret, rfl⟩ := Prod.mk.inj (Except.ok.inj hrun)
  obtain ⟨hacc, rfl⟩ := orThrow_eq_ok rfl hret
  cases hreads r s' hcall with
  | present hf hdata hlen => rw [hf, hdata, hlen]; rfl
  | absent hf hdata hlen _ => rw [hf, hdata, hlen]; rfl
  | refused hok hnf hst =>
    -- such a status is thrown, and nothing is returned
    rw [hst] at hacc
    simp [isOkOrNotFound, statusOf, hok, hnf] at hacc

/-- **What a read returns** is the value of the key, or the empty object if there is none. -/
theorem returned_content (read : Read) (h : kv.OpenWith db) {b : BytesObj Bytes}
    (hrun : read.run a kind key kv = .ok (.ok b, kv')) :
    b = .ofContent ((StoreImpl.lookup db kind key).getD []) := by
  obtain ⟨s, hs, hw⟩ := h
  cases read with
  | get => exact callBytes_returned hs (fun r s' => StoreImpl.get_reads hw) hrun
  | updateIfPresent value =>
    exact callBytes_returned hs
      (fun r s' => StoreImpl.ifPresent_reads (fun key fam => .put fam key value) hw) hrun
  | singleRemoveIfPresent =>
    exact callBytes_returned hs
      (fun r s' => StoreImpl.ifPresent_reads (fun key fam => .singleDelete fam key a.undefined) hw) hrun
  | removeIfPresent =>
    exact callBytes_returned hs
      (fun r s' => StoreImpl.ifPresent_reads (fun key fam => .delete fam key) hw) hrun

/-- A `put` that returns has stored the value, under a key of a valid Kind. -/
theorem put_returned (h : kv.OpenWith db) {value : Bytes}
    (hrun : kv.put a kind key value = .ok (.ok (), kv')) :
    ∃ k key' db', kind = .impl k ∧ k.isValid = true ∧ key = some key' ∧ kv'.OpenWith db' ∧
      StoreImpl.lookup db' kind key = some value := by
  obtain ⟨s, hs, hw⟩ := h
  simp only [put, callVoid, deref_eq hs, ok_bind] at hrun
  obtain ⟨⟨st, s'⟩, hput, hrun⟩ := exists_of_bind_eq_ok hrun
  obtain ⟨hret, rfl⟩ := Prod.mk.inj (Except.ok.inj hrun)
  obtain ⟨hacc, -⟩ := orThrow_eq_ok rfl hret
  obtain ⟨st', t, db', hput', hres⟩ := StoreImpl.voidWrite_open hw a
    (fun key fam => .put fam key value) (some Status.ok) kind key
  obtain ⟨rfl, rfl⟩ := Prod.mk.inj (Except.ok.inj (hput'.symm.trans hput))
  rcases hres with ⟨c, hc, rfl, -⟩ | ⟨k, key', rfl, rfl, -, hcom⟩
  · simp [isOk, statusOf, hc] at hacc
  · refine ⟨k, key', db', rfl, ?_, rfl, ⟨t, rfl, hcom.toOpenWith⟩, ?_⟩
    · -- the store refuses a Kind that is not valid
      by_contra hv
      have hkind : (Kind.impl k).isValid = false := by simpa [Kind.isValid] using hv
      simp only [StoreImpl.put, StoreImpl.voidOp, hkind] at hput
      cases hput
      cases hacc
    · simp only [StoreImpl.lookup, hcom.toWrote.put_data, Function.update_self]
      exact Finmap.lookup_insert _

/-- A read that does not fail in RocksDB returns. -/
theorem get_returns (h : kv.OpenWith db) {k : KindImpl} (hv : k.isValid = true) (key : Bytes)
    (ha : a.get = none) : ∃ b, kv.get a (.impl k) (some key) = .ok (.ok b, kv) := by
  obtain ⟨s, hs, hw⟩ := h
  obtain rfl : kv = ⟨some s⟩ := by
    cases kv
    exact congrArg KVStore.mk hs
  have hvalid : (Kind.impl k).isValid = true := hv
  obtain ⟨st, len, data, hget, hst⟩ : ∃ st len data,
      s.get_ a (some Status.ok) (.impl k) 0 key = .ok (some st, len, data) ∧
        isOkOrNotFound st = true := by
    simp only [StoreImpl.get_, Kind.toKindImpl, hw.deref_eq, ok_bind, Db.get, ha]
    cases (db.data k.handle).lookup key with
    | none => exact ⟨_, _, _, rfl, rfl⟩
    | some value => cases value <;> exact ⟨_, _, _, rfl, rfl⟩
  obtain ⟨-, hret⟩ | ⟨hrefused, -⟩ :=
    orThrow_cases isOkOrNotFound rfl (some st) (BytesObj.new data len)
  · refine ⟨.new data len, ?_⟩
    simp only [get, callBytes, deref, ok_bind, StoreImpl.get, StoreImpl.readOp, hvalid, if_true,
      hw.validateOpen_eq, assign_some, hget]
    exact congrArg (fun x => Except.ok (x, (⟨some s⟩ : KVStore))) hret
  · exact absurd (hst.symm.trans hrefused) (by decide)

/-- **Presence.** A value that was put can be read back, whatever it is. What a client gets for it
differs from what it gets for an absent key if and only if the value is not empty; and the same
holds of any two contents, the one with the key and the other without it, for each method that
returns the old value. -/
theorem reads_tell_presence (h : kv.OpenWith db) (kind : Kind) (key : Option Bytes) :
    (∀ a value kv', kv.put a kind key value = .ok (.ok (), kv') → ∀ b : Answers, b.get = none →
      ∃ r, kv'.get b kind key = .ok (.ok r, kv') ∧ r.content = value ∧ r.size = value.length ∧
        ∀ kv₀ db₀ kind₀ key₀ b₀ r₀ kv₁, OpenWith kv₀ db₀ → StoreImpl.lookup db₀ kind₀ key₀ = none →
          kv₀.get b₀ kind₀ key₀ = .ok (.ok r₀, kv₁) → (r.observe ≠ r₀.observe ↔ value ≠ [])) ∧
    ∀ (read : Read) a r kv' value, read.run a kind key kv = .ok (.ok r, kv') →
      StoreImpl.lookup db kind key = some value →
        ∀ kv₀ db₀ a₀ r₀ kv₁, OpenWith kv₀ db₀ → StoreImpl.lookup db₀ kind key = none →
          read.run a₀ kind key kv₀ = .ok (.ok r₀, kv₁) → (r.observe ≠ r₀.observe ↔ value ≠ []) := by
  constructor
  · intro a value kv' hput b hb
    obtain ⟨k, key', db', rfl, hv, rfl, hw', hfound⟩ := put_returned h hput
    obtain ⟨r, hget⟩ := get_returns hw' hv key' hb
    have hr := returned_content .get hw' hget
    rw [hfound, Option.getD_some] at hr
    subst hr
    refine ⟨_, hget, BytesObj.ofContent_content value, rfl, ?_⟩
    intro kv₀ db₀ kind₀ key₀ b₀ r₀ kv₁ hw₀ habsent hget₀
    have hr₀ := returned_content .get hw₀ hget₀
    rw [habsent] at hr₀
    rw [hr₀, ne_eq, BytesObj.observe_ofContent_iff]
    rfl
  · intro read a r kv' value hread hfound kv₀ db₀ a₀ r₀ kv₁ hw₀ habsent hread₀
    have hr := returned_content read h hread
    have hr₀ := returned_content read hw₀ hread₀
    rw [hfound] at hr
    rw [habsent] at hr₀
    rw [hr, hr₀, ne_eq, BytesObj.observe_ofContent_iff]
    rfl

/-- A client of a store that was just created. -/
private def blank : KVStore := .ofStore (some .created)

private def stored (value : Bytes) : KVStore :=
  match blank.put {} (.impl StoreImpl.DefaultKind) (some [1]) value with
  | .ok (_, kv) => kv
  | .error _ => blank

theorem reads_tell_presence_stored :
    ∃ db, (stored [7]).OpenWith db ∧
      StoreImpl.lookup db (.impl StoreImpl.DefaultKind) (some [1]) = some [7] ∧
      ∃ r r₀ kv₁ kv₂,
        (stored [7]).removeIfPresent {} (.impl StoreImpl.DefaultKind) (some [1]) = .ok (.ok r, kv₁) ∧
        blank.removeIfPresent {} (.impl StoreImpl.DefaultKind) (some [1]) = .ok (.ok r₀, kv₂) ∧
        r.observe ≠ r₀.observe := by
  have hopen : (stored [7]).OpenWith _ := ⟨_, rfl, rfl, rfl⟩
  have hblank : blank.OpenWith _ := ⟨_, rfl, rfl, rfl⟩
  refine ⟨_, hopen, rfl, _, _, _, _, rfl, rfl, ?_⟩
  exact ((reads_tell_presence hopen (.impl StoreImpl.DefaultKind) (some [1])).2 .removeIfPresent {}
    _ _ [7] rfl rfl blank _ {} _ _ hblank rfl rfl).mpr (by decide)

/-- An empty value reads like an absent key. -/
theorem empty_value_hidden :
    ∃ r kv', blank.put {} (.impl StoreImpl.DefaultKind) (some [1]) [] = .ok (.ok (), kv') ∧
      kv'.get {} (.impl StoreImpl.DefaultKind) (some [1]) = .ok (.ok r, kv') ∧
      blank.get {} (.impl StoreImpl.DefaultKind) (some [1]) = .ok (.ok r, blank) :=
  ⟨_, _, rfl, rfl, rfl⟩

end KVStore

end Librocks
