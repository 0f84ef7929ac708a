import Librocks.Kueue.Spec
import Librocks.Store.Lifecycle

/-!
# Building a queue on its Kind

Nothing about `minKey`, `maxKey` and `count` is stored. The constructor reads the two extreme keys of
the Kind and computes the rest. On a Kind whose keys are the codes of an interval this gives back the
queue that is stored there (`init_rep`), also when the interval ends at the last key there is and
`maxKey` wraps around to zero. An empty Kind starts again at key zero.
-/

namespace Librocks

open Rocks

/-- The keys of the family are the codes of the numbers from `lo` up to `hi`, each put once. -/
structure Contiguous (h : Handle) (db : Db) (lo hi : ℕ) : Prop where
  le : lo ≤ hi
  hi_le : hi ≤ 2 ^ 64
  keys : ∀ k, k ∈ db.data h ↔ ∃ i, lo ≤ i ∧ i < hi ∧ code i = k
  once : ∀ k ∈ db.data h, db.overwritten h k = false

/-- A contiguous Kind stores a queue. An empty one stores the queue that starts at zero. -/
theorem Contiguous.exists_stored {h : Handle} {db : Db} {lo hi : ℕ} (hc : Contiguous h db lo hi) :
    ∃ f, Stored h db f ∧ f.msgs.length = hi - lo ∧ f.lo = (if lo < hi then lo else 0) := by
  have hinj : Set.InjOn code (Set.Ico lo (lo + (hi - lo))) :=
    code_injOn.mono fun i hi' => by
      have := hc.le
      have := hc.hi_le
      have := hi'.2
      simp only [Set.mem_Iio]
      omega
  obtain ⟨vs, hlen, hvs⟩ := FMap.exists_segment_of_mem_iff (m := db.data h) hinj (by
    intro k
    rw [hc.keys, Nat.add_sub_cancel' hc.le])
  by_cases hlt : lo < hi
  · refine ⟨⟨lo, vs⟩, ⟨hvs, hc.once, ?_⟩, hlen, (if_pos hlt).symm⟩
    have := hc.hi_le
    simp only [Fifo.top, hlen]
    omega
  · obtain rfl : vs = [] := List.length_eq_zero_iff.mp (by omega)
    exact ⟨⟨0, []⟩, ⟨hvs, hc.once, Nat.zero_le _⟩, hlen, (if_neg hlt).symm⟩

namespace KueueImpl

/-! ## The keys that the constructor finds -/

/-- A key of the Kind, read as the constructor reads it. -/
def asKey (key : Bytes) : Option UInt64 := if key.length = 8 then some (getU64BE key) else none

@[simp] theorem asKey_code (n : ℕ) : asKey (code n) = some (UInt64.ofNat n) := by
  simp [asKey, code]

/-- The key that the constructor makes of what was found. -/
theorem foundKey_sought {status : Option ℤ} (found : Option Bytes) :
    foundKey { status, resultLen := some (found.getD []).length, data := found.bind StoreImpl.buffer }
      = found.bind asKey := by
  cases found with
  | none => rfl
  | some key =>
    cases key with
    | nil => rfl
    | cons b bs => simp [foundKey, asKey, StoreImpl.buffer]

/-- `findMinKey` and `findMaxKey` with a seek that does not fail, or on an empty Kind: given an iterator
they report Ok, and with an Ok they found the extreme key. -/
theorem findKey_found {s : StoreImpl} {db : Db} (h : s.OpenWith db) {a : Answers}
    (extreme : Family → Option Bytes) {kd : KindImpl} (len : ℕ) (hv : kd.isValid = true)
    (hseek : a.seek = none ∨ extreme (db.data kd.handle) = none) :
    ∃ r, s.findKey a extreme (some Status.ok) (.impl kd) len = .ok (r, s) ∧
      (a.iterator = true → r.status = some Status.ok) ∧
      (r.status = some Status.ok → foundKey r = (extreme (db.data kd.handle)).bind asKey) := by
  cases hit : a.iterator with
  | false =>
    exact ⟨_, StoreImpl.findKey_noIterator h hv hit extreme (some Status.ok) len,
      fun hno => absurd hno (by decide), fun hst => absurd hst (by decide)⟩
  | true =>
    have hfound : (if a.seek.isNone then extreme (db.data kd.handle) else none)
        = extreme (db.data kd.handle) := by
      rcases hseek with hseek | hnone
      · rw [hseek, Option.isNone_none, if_pos rfl]
      · rw [hnone, ite_self]
    exact ⟨_, StoreImpl.findKey_sought h hv hit extreme (some Status.ok) len hfound, fun _ => rfl,
      fun _ => foundKey_sought _⟩

theorem init_queueKind (kind : Kind) (smallestKey greatestKey : Option UInt64) :
    (init kind smallestKey greatestKey).queueKind = some kind := by
  simp only [init]
  split <;> rfl

/-- The two seeks of the constructor find the extreme keys of the Kind: they do not fail, or there are
none. -/
def Sought (aMin aMax : Answers) (m : Family) : Prop := (aMin.seek = none ∧ aMax.seek = none) ∨ m = ∅

theorem Sought.min {aMin aMax : Answers} {m : Family} (h : Sought aMin aMax m) :
    aMin.seek = none ∨ FMap.firstKey m = none :=
  h.imp And.left fun hm => by rw [hm, FMap.firstKey_empty]

theorem Sought.max {aMin aMax : Answers} {m : Family} (h : Sought aMin aMax m) :
    aMax.seek = none ∨ FMap.lastKey m = none :=
  h.imp And.right fun hm => by rw [hm, FMap.lastKey_empty]

/-- What the constructor makes of the Kind `kd`. -/
structure Built (aMin aMax : Answers) (db : Db) (kd : KindImpl) (q : KueueImpl) : Prop where
  kind : kd.isValid = true
  /-- Both keys were read if the queue is valid, and if there were iterators. -/
  init : Sought aMin aMax (db.data kd.handle) →
    q.isValid_ = true ∨ (aMin.iterator = true ∧ aMax.iterator = true) →
    q = KueueImpl.init (.impl kd) ((FMap.firstKey (db.data kd.handle)).bind asKey)
      ((FMap.lastKey (db.data kd.handle)).bind asKey)

/-- The constructor on an open store returns, leaves the store open, and builds a valid queue only
on a Kind, from the two extreme keys in it. -/
theorem new_open {s : StoreImpl} {db : Db} (h : s.OpenWith db) (aKind aMin aMax : Answers)
    (id : Bytes) :
    ∃ q s' db', new aKind aMin aMax id s = .ok (q, s') ∧ s'.OpenWith db' ∧
      (q.isValid_ = true → ∃ kd : KindImpl, q.queueKind = some (.impl kd)) ∧
      ∀ kd : KindImpl, q.queueKind = some (.impl kd) → Built aMin aMax db' kd q := by
  obtain ⟨st, kd, s', db', hkind, hcr⟩ :=
    StoreImpl.getOrCreateKind_open h aKind (some Status.ok) id
  have h' := hcr.toOpenWith
  simp only [new, StoreImpl.getKindManager, h.validateOpen_eq, assign_some, if_true, hkind, ok_bind]
  by_cases hgot : st = some Status.ok ∧ kd.isValid = true
  · obtain ⟨rfl, hv⟩ := hgot
    obtain ⟨rMin, hmin⟩ := StoreImpl.findKey_open h' aMin FMap.firstKey (some Status.ok) (.impl kd) 0
    have hmin' : aMin.seek = none ∨ FMap.firstKey (db'.data kd.handle) = none →
        (aMin.iterator = true → rMin.status = some Status.ok) ∧
        (rMin.status = some Status.ok →
          foundKey rMin = (FMap.firstKey (db'.data kd.handle)).bind asKey) := by
      intro hseek
      obtain ⟨r, hr, hfound⟩ := findKey_found h' FMap.firstKey 0 hv hseek
      obtain ⟨rfl, -⟩ := Prod.mk.inj (Except.ok.inj (hmin.symm.trans hr))
      exact hfound
    simp only [hv, and_self, if_true, StoreImpl.findMinKey, hmin, ok_bind]
    by_cases hminOk : rMin.status = some Status.ok
    · obtain ⟨rMax, hmax⟩ := StoreImpl.findKey_open h' aMax FMap.lastKey (some Status.ok) (.impl kd)
        (rMin.resultLen.getD 0)
      have hmax' : aMax.seek = none ∨ FMap.lastKey (db'.data kd.handle) = none →
          (aMax.iterator = true → rMax.status = some Status.ok) ∧
          (rMax.status = some Status.ok →
            foundKey rMax = (FMap.lastKey (db'.data kd.handle)).bind asKey) := by
        intro hseek
        obtain ⟨r, hr, hfound⟩ := findKey_found h' FMap.lastKey (rMin.resultLen.getD 0) hv hseek
        obtain ⟨rfl, -⟩ := Prod.mk.inj (Except.ok.inj (hmax.symm.trans hr))
        exact hfound
      simp only [hminOk, if_true, StoreImpl.findMaxKey, hmax, ok_bind]
      by_cases hmaxOk : rMax.status = some Status.ok
      · simp only [hmaxOk, if_true]
        refine ⟨_, s', db', rfl, h', fun _ => ⟨kd, init_queueKind _ _ _⟩, fun kd' hkd => ?_⟩
        rw [init_queueKind] at hkd
        cases hkd
        exact ⟨hv, fun hs _ => by rw [(hmin' hs.min).2 hminOk, (hmax' hs.max).2 hmaxOk]⟩
      · simp only [if_neg hmaxOk]
        refine ⟨_, s', db', rfl, h', fun hvq => absurd hvq (by simp), fun kd' hkd => ?_⟩
        cases hkd
        exact ⟨hv, fun hs hread => (hread.elim (fun hno => absurd hno (by simp))
          fun hit => absurd ((hmax' hs.max).1 hit.2) hmaxOk)⟩
    · simp only [if_neg hminOk]
      refine ⟨_, s', db', rfl, h', fun hvq => absurd hvq (by simp), fun kd' hkd => ?_⟩
      cases hkd
      exact ⟨hv, fun hs hread => (hread.elim (fun hno => absurd hno (by simp))
        fun hit => absurd ((hmin' hs.min).1 hit.1) hminOk)⟩
  · simp only [if_neg hgot]
    exact ⟨_, s', db', rfl, h', fun hvq => absurd hvq (by simp), fun _ hkd => absurd hkd (by simp)⟩

/-- A constructor call that returned. -/
theorem new_built {s s' : StoreImpl} {db db' : Db} (h : s.OpenWith db) {aKind aMin aMax : Answers}
    {id : Bytes} {q : KueueImpl} {kd : KindImpl} (hnew : new aKind aMin aMax id s = .ok (q, s'))
    (hopen : s'.OpenWith db') (hkind : q.queueKind = some (.impl kd)) :
    Built aMin aMax db' kd q := by
  obtain ⟨q₁, s₁, db₁, hnew₁, hopen₁, -, hbuilt⟩ := new_open h aKind aMin aMax id
  obtain ⟨rfl, rfl⟩ := Prod.mk.inj (Except.ok.inj (hnew.symm.trans hnew₁))
  obtain rfl : db' = db₁ := hopen.db_eq hopen₁.txnDb
  exact hbuilt kd hkind

/-- On a closed store the constructor builds an invalid queue. -/
theorem new_closed {s : StoreImpl} (h : s.isOpen = false) (aKind aMin aMax : Answers) (id : Bytes) :
    ∃ s', new aKind aMin aMax id s = .ok ({}, s') ∧ s'.isOpen = false := by
  simp only [new, StoreImpl.getKindManager, StoreImpl.validateOpen_closed h, assign_some]
  exact ⟨_, rfl, h⟩

/-! ## What is built on a stored queue -/

/-- The keys and the counter of a queue on a Kind that stores `f`. -/
theorem init_stored {h : Handle} {db : Db} {f : Fifo} (hst : Stored h db f)
    (hzero : f.msgs = [] → f.lo = 0) (kind : Kind) :
    init kind ((FMap.firstKey (db.data h)).bind asKey) ((FMap.lastKey (db.data h)).bind asKey)
      = { queueKind := some kind, minKey := UInt64.ofNat f.lo, maxKey := UInt64.ofNat f.top,
          count := Int64.ofInt f.msgs.length,
          isValid_ := decide (Int64.ofInt f.msgs.length ≥ 0) } := by
  cases hm : f.msgs with
  | nil =>
    have hlo := hzero hm
    rw [hst.data, hm, FMap.segment_nil, FMap.firstKey_empty, FMap.lastKey_empty, Fifo.top, hm, hlo]
    simp [init, MIN_KEY]
  | cons m rest =>
    have hne : f.msgs ≠ [] := by simp [hm]
    have hpos := List.length_pos_of_ne_nil hne
    have htop := hst.top_le
    have hmono : StrictMonoOn code (Set.Ico f.lo (f.lo + f.msgs.length)) :=
      code_strictMonoOn.mono fun _ hi => lt_of_lt_of_le hi.2 htop
    have hlast : UInt64.ofNat (f.lo + f.msgs.length - 1) + 1 = UInt64.ofNat f.top := by
      rw [show f.top = f.lo + f.msgs.length - 1 + 1 by simp only [Fifo.top]; omega,
        UInt64.ofNat_add]
      rfl
    have hge : UInt64.ofNat (f.lo + f.msgs.length - 1) ≥ UInt64.ofNat f.lo := by
      simp only [Fifo.top] at htop
      have hlo : f.lo < 2 ^ 64 := by omega
      have hlast : f.lo + f.msgs.length - 1 < 2 ^ 64 := by omega
      rw [ge_iff_le, UInt64.le_iff_toNat_le, UInt64.toNat_ofNat_of_lt' hlo,
        UInt64.toNat_ofNat_of_lt' hlast]
      omega
    have hcount : (UInt64.ofNat f.top - UInt64.ofNat f.lo).toInt64
        = Int64.ofInt f.msgs.length := by
      rw [Fifo.top, UInt64.ofNat_add, UInt64.add_comm, UInt64.add_sub_cancel, UInt64.toInt64_ofNat',
        Int64.ofInt_eq_ofNat]
    rw [hst.data, FMap.segment_firstKey hmono hne, FMap.segment_lastKey hmono hne]
    simp only [init, Option.bind_some, asKey_code, Option.getD_some, if_pos hge, hlast, hcount, ← hm]

/-- **Construction.** A valid queue built on a contiguous Kind represents what is stored there. -/
theorem init_rep {s : StoreImpl} {db : Db} (hopen : s.OpenWith db) {kd : KindImpl} {f : Fifo}
    (hst : Stored kd.handle db f) (hzero : f.msgs = [] → f.lo = 0) {q : KueueImpl}
    (hq : q = init (.impl kd) ((FMap.firstKey (db.data kd.handle)).bind asKey)
      ((FMap.lastKey (db.data kd.handle)).bind asKey)) (hvalid : q.isValid_ = true) :
    Rep kd (q, s) f ∧ q.count ≥ 0 := by
  rw [init_stored hst hzero] at hq
  subst hq
  refine ⟨?_, of_decide_eq_true hvalid⟩
  exact { valid := hvalid, kind := rfl, stored := ⟨db, hopen, hst⟩, minKey := rfl, maxKey := rfl,
          count := rfl }

/-- A count that is not negative, of fewer than `2 ^ 64` messages, did not overflow. -/
theorem Rep.length_lt {kd : KindImpl} {q : KueueImpl} {s : StoreImpl} {f : Fifo}
    (h : Rep kd (q, s) f) (hcount : q.count ≥ 0) (hlen : f.msgs.length < 2 ^ 64) :
    f.msgs.length < 2 ^ 63 := by
  have hpos : 0 ≤ q.count.toInt := Int64.le_iff_toInt_le.mp hcount
  rw [show q.count = _ from h.count, Int64.toInt_ofInt, Int.bmod_def] at hpos
  simp only [Int64.size] at hpos
  split at hpos <;> omega

/-- A valid queue that the constructor built on a contiguous Kind, from the extreme keys in it. -/
theorem new_rep {s s' : StoreImpl} {db db' : Db} (h : s.OpenWith db) {aKind aMin aMax : Answers}
    {id : Bytes} {q : KueueImpl} {kd : KindImpl} {lo hi : ℕ}
    (hnew : new aKind aMin aMax id s = .ok (q, s')) (hvalid : q.isValid_ = true)
    (hopen : s'.OpenWith db') (hkind : q.queueKind = some (.impl kd))
    (hsought : Sought aMin aMax (db'.data kd.handle)) (hc : Contiguous kd.handle db' lo hi) :
    ∃ f, (Rep kd (q, s') f ∧ q.count ≥ 0) ∧ db'.data kd.handle = FMap.segment code f.lo f.msgs ∧
      f.msgs.length = hi - lo ∧ f.lo = (if lo < hi then lo else 0) := by
  have hbuilt := new_built h hnew hopen hkind
  obtain ⟨f, hst, hlen, hlo⟩ := hc.exists_stored
  have hzero : f.msgs = [] → f.lo = 0 := by
    intro hnil
    rw [hnil] at hlen
    rw [hlo, if_neg]
    simp only [List.length_nil] at hlen
    omega
  exact ⟨f, init_rep hopen hst hzero (hbuilt.init hsought (.inl hvalid)) hvalid, hst.data, hlen, hlo⟩

/-- The Kind of a queue that was just created is empty. -/
theorem created_contiguous : ∃ db, created.2.OpenWith db ∧ Contiguous createdKind.handle db 0 0 := by
  refine ⟨_, ⟨rfl, rfl⟩, le_rfl, Nat.zero_le _, fun k => ?_, fun k hk => ?_⟩
  · exact ⟨fun hk => absurd hk Finmap.notMem_empty, fun ⟨i, _, hi, _⟩ => absurd hi (Nat.not_lt_zero i)⟩
  · exact absurd hk Finmap.notMem_empty

theorem created_rep : Rep createdKind created ⟨0, []⟩ := by
  obtain ⟨db, hopen, hc⟩ := created_contiguous
  have hcreated : StoreImpl.created.OpenWith (Db.created.beginTransaction true none).2 := ⟨rfl, rfl⟩
  obtain ⟨⟨lo, msgs⟩, ⟨hrep, -⟩, -, hlen, hlo⟩ :=
    new_rep hcreated new_created rfl hopen rfl (.inl ⟨rfl, rfl⟩) hc
  obtain rfl : msgs = [] := List.length_eq_zero_iff.mp hlen
  obtain rfl : lo = 0 := hlo
  exact hrep

end KueueImpl

end Librocks
