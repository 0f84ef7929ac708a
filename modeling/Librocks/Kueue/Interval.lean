import Librocks.Kueue.Fifo

/-!
# Arbitrary arguments to `erase`

`erase` compares its argument with `minKey` and does not look at `count`. On an empty queue the key
`minKey` has no message; the `SingleDelete` of the absent key reports Ok, and `erase` counts a removal
that did not happen (`erase_empty_queue`). This is the only way for a client to break the counters
with a key: as long as no `erase` hits `minKey` of an empty queue, and neither `maxKey` nor `count`
overflows, they stay the ends and the length of the stored interval (`interval_invariant`).
-/

namespace Librocks

open Rocks

namespace KueueImpl

/-- The calls that keep the counters: no `erase` of `minKey` at count zero, and no put that finds
`maxKey` or `count` at the last value of its type. -/
structure Careful (x : KueueImpl × StoreImpl) (l : Label) : Prop where
  erase : ∀ key, l.call = .erase key → key = x.1.minKey → x.1.count ≠ 0
  put : ∀ status v, l.call = .put status v → x.1.maxKey ≠ MAX_KEY ∧ x.1.count ≠ Int64.maxValue

/-- The queue represents `f`, and neither its keys nor its length overflow. -/
structure Bounded (kd : KindImpl) (x : KueueImpl × StoreImpl) (f : Fifo) : Prop
    extends Rep kd x f where
  top_lt : f.top < 2 ^ 64
  length_lt : f.msgs.length < 2 ^ 63

variable {kd : KindImpl} {x y : KueueImpl × StoreImpl} {f : Fifo} {l : Label}

theorem Bounded.minKey_toNat (h : Bounded kd x f) : x.1.minKey.toNat = f.lo := by
  have hlo : f.lo < 2 ^ 64 := lt_of_le_of_lt (Nat.le_add_right _ _) h.top_lt
  rw [h.minKey, UInt64.toNat_ofNat_of_lt' hlo]

theorem Bounded.maxKey_toNat (h : Bounded kd x f) : x.1.maxKey.toNat = f.top := by
  rw [h.maxKey, UInt64.toNat_ofNat_of_lt' h.top_lt]

theorem Bounded.count_eq (h : Bounded kd x f) : x.1.count.toInt = f.msgs.length :=
  Rep.count_toInt (q := x.1) (s := x.2) h.toRep h.length_lt

theorem Bounded.admissible (h : Bounded kd x f) (hc : Careful x l) : Admissible l.call f where
  put _ _ _ := h.top_lt
  erase key hl hkey :=
    Rep.msgs_ne_nil (q := x.1) (s := x.2) h.toRep (hc.erase key hl (hkey.trans h.minKey.symm))

/-- A careful call follows the discipline and overflows nothing. -/
theorem Bounded.step (h : Bounded kd x f) (hc : Careful x l) (hstep : Step x l y) :
    ∃ f', f.Step l f' ∧ Bounded kd y f' := by
  rcases run_rep (q := x.1) (s := x.2) h.toRep l.call l.answers (h.admissible hc) with
    ⟨hblocked, -⟩ | ⟨o, z, f', hrun, hrep, hf⟩
  · exact absurd (hblocked.symm.trans hstep) (by simp)
  · obtain ⟨rfl, rfl⟩ := Prod.mk.inj (Except.ok.inj (hrun.symm.trans hstep))
    refine ⟨f', hf, ?_⟩
    have htop := h.top_lt
    have hlen := h.length_lt
    rcases hf.evolves with ⟨status, v, hput, rfl⟩ | ⟨n, hn, rfl⟩
    · obtain ⟨hmax, hcount⟩ := hc.put status v hput
      refine { toRep := hrep, top_lt := ?_, length_lt := ?_ }
      · rw [Fifo.top_push]
        have hne : f.top ≠ 2 ^ 64 - 1 := fun he =>
          hmax (UInt64.toNat_inj.mp (h.maxKey_toNat.trans he))
        omega
      · have hne : (f.msgs.length : ℤ) ≠ 2 ^ 63 - 1 := fun he =>
          hcount (Int64.toInt_inj.mp (h.count_eq.trans he))
        simp only [Fifo.push, List.length_append, List.length_singleton]
        omega
    · refine { toRep := hrep, top_lt := by rwa [Fifo.top_drop hn], length_lt := ?_ }
      simp only [Fifo.drop, List.length_drop]
      omega

/-- The keys of the Kind are those from `minKey` up to `maxKey`. -/
theorem Bounded.mem_iff (h : Bounded kd x f) {db : Db} (hst : Stored kd.handle db f) (k : Bytes) :
    k ∈ db.data kd.handle ↔ ∃ key : UInt64, x.1.minKey ≤ key ∧ key < x.1.maxKey ∧ putU64BE key = k := by
  have htop := h.top_lt
  rw [hst.data, FMap.mem_segment]
  constructor
  · rintro ⟨i, h₁, h₂, rfl⟩
    have hi : i < 2 ^ 64 := lt_trans h₂ htop
    refine ⟨UInt64.ofNat i, ?_, ?_, rfl⟩
    · rw [UInt64.le_iff_toNat_le, h.minKey_toNat, UInt64.toNat_ofNat_of_lt' hi]
      exact h₁
    · rw [UInt64.lt_iff_toNat_lt, h.maxKey_toNat, UInt64.toNat_ofNat_of_lt' hi]
      exact h₂
  · rintro ⟨key, h₁, h₂, rfl⟩
    rw [UInt64.le_iff_toNat_le, h.minKey_toNat] at h₁
    rw [UInt64.lt_iff_toNat_lt, h.maxKey_toNat] at h₂
    exact ⟨key.toNat, h₁, h₂, code_toNat key⟩

/-- An `erase` that returns true found a message under its key and removed it. -/
theorem Bounded.erase_true (h : Bounded kd x f) {db : Db} (hst : Stored kd.handle db f)
    {key : UInt64} {as : ℕ → Answers} (hc : Careful x ⟨.erase key, as, .erased true⟩)
    (hstep : Step x ⟨.erase key, as, .erased true⟩ y) :
    ∃ m db', (db.data kd.handle).lookup (putU64BE key) = some m ∧ y.2.OpenWith db' ∧
      db'.data kd.handle = (db.data kd.handle).erase (putU64BE key) := by
  obtain ⟨_, ⟨rfl, hne, rfl⟩, hy⟩ := h.step hc hstep
  obtain ⟨db', hopen', hst'⟩ := hy.stored
  obtain ⟨m, rest, hm⟩ := List.exists_cons_of_ne_nil hne
  refine ⟨m, db', hst.lookup_head hm, hopen', ?_⟩
  have hinj := hst.injOn
  simp only [Fifo.top, hm] at hinj
  rw [hst'.data, hst.data, hm]
  simp only [Fifo.drop, hm, List.drop_one, List.tail_cons]
  exact (FMap.segment_erase_head hinj).symm

/-- **The counters describe the stored interval.** In every run of careful calls from a valid queue on
a contiguous Kind that does not reach up to the last key: `count` is not negative and is the distance
from `minKey` to `maxKey`, the Kind holds exactly the keys in between, under which lie the messages
that were put and not yet taken, erased or cleared, and an `erase` that returns true has removed the
message under its key. -/
theorem interval_invariant {s s₁ : StoreImpl} {db db₁ : Db} {aKind aMin aMax : Answers} {id : Bytes}
    {q : KueueImpl} {kd : KindImpl} {lo hi : ℕ} (hopen : s.OpenWith db)
    (hnew : new aKind aMin aMax id s = .ok (q, s₁)) (hvalid : q.isValid_ = true)
    (hmin : aMin.seek = none) (hmax : aMax.seek = none) (hopen₁ : s₁.OpenWith db₁)
    (hkind : q.queueKind = some (.impl kd)) (hc : Contiguous kd.handle db₁ lo hi)
    (hhi : hi < 2 ^ 64) :
    ∃ f₀ : Fifo, db₁.data kd.handle = FMap.segment code f₀.lo f₀.msgs ∧
      ∀ ls x, Run (guarded Careful Step) (q, s₁) ls x →
        ∃ f db', Run Fifo.Step f₀ ls f ∧ x.2.OpenWith db' ∧
          db'.data kd.handle = FMap.segment code x.1.minKey.toNat f.msgs ∧
          0 ≤ x.1.count.toInt ∧ x.1.minKey ≤ x.1.maxKey ∧
          x.1.count.toInt = x.1.maxKey.toNat - x.1.minKey.toNat ∧
          (∀ k, k ∈ db'.data kd.handle ↔
            ∃ key : UInt64, x.1.minKey ≤ key ∧ key < x.1.maxKey ∧ putU64BE key = k) ∧
          ∀ key as y, Careful x ⟨.erase key, as, .erased true⟩ →
            Step x ⟨.erase key, as, .erased true⟩ y →
            ∃ m db'', (db'.data kd.handle).lookup (putU64BE key) = some m ∧ y.2.OpenWith db'' ∧
              db''.data kd.handle = (db'.data kd.handle).erase (putU64BE key) := by
  obtain ⟨f₀, ⟨hrep, hcount⟩, hdata, hlen, hlo⟩ :=
    new_rep hopen hnew hvalid hopen₁ hkind (.inl ⟨hmin, hmax⟩) hc
  have htop : f₀.top < 2 ^ 64 := by
    have := hc.le
    simp only [Fifo.top, hlen, hlo]
    split_ifs <;> omega
  have hb₀ : Bounded kd (q, s₁) f₀ :=
    { toRep := hrep, top_lt := htop, length_lt := hrep.length_lt hcount (by omega) }
  refine ⟨f₀, hdata, fun ls x hrun => ?_⟩
  obtain ⟨f, hf, hb⟩ :=
    hrun.simulates (R := Bounded kd) (fun _ _ _ _ hb hst => hb.step hst.1 hst.2) hb₀
  obtain ⟨db', hopen', hst⟩ := hb.stored
  have hle : f.lo ≤ f.top := Nat.le_add_right _ _
  refine ⟨f, db', hf, hopen', ?_, ?_, ?_, ?_, hb.mem_iff hst,
    fun key as y hcall hstep => hb.erase_true hst hcall hstep⟩
  · rw [hb.minKey_toNat]
    exact hst.data
  · rw [hb.count_eq]
    exact Int.natCast_nonneg _
  · rw [UInt64.le_iff_toNat_le, hb.minKey_toNat, hb.maxKey_toNat]
    exact hle
  · rw [hb.count_eq, hb.minKey_toNat, hb.maxKey_toNat, Fifo.top]
    push_cast
    ring

private def putNine : Call := .put (some 0) [9]

private def ninePut : KueueImpl × StoreImpl := putNine.after (fun _ => {}) created

/-- A key that was guessed: `erase(0)` on a queue that holds one message. -/
theorem interval_invariant_put_erase :
    ∃ y m db', Run (guarded Careful Step) created
        [⟨putNine, fun _ => {}, .reply { status := some 0 }⟩] ninePut ∧
      Step ninePut ⟨.erase 0, fun _ => {}, .erased true⟩ y ∧ y.2.OpenWith db' ∧
      (∀ db, ninePut.2.OpenWith db →
        (db.data createdKind.handle).lookup (putU64BE 0) = some m ∧
          db'.data createdKind.handle = (db.data createdKind.handle).erase (putU64BE 0)) := by
  obtain ⟨db, hopen, hc⟩ := created_contiguous
  have hcreated : StoreImpl.created.OpenWith (Db.created.beginTransaction true none).2 := ⟨rfl, rfl⟩
  obtain ⟨f₀, -, hruns⟩ :=
    interval_invariant hcreated new_created rfl rfl rfl hopen rfl hc (by decide)
  have hput : Step created ⟨putNine, fun _ => {}, .reply { status := some 0 }⟩ ninePut :=
    Call.step_after rfl
  have herase : Step ninePut ⟨.erase 0, fun _ => {}, .erased true⟩
      ((Call.erase 0).after (fun _ => {}) ninePut) := Call.step_after rfl
  have hrun : Run (guarded Careful Step) created
      [⟨putNine, fun _ => {}, .reply { status := some 0 }⟩] ninePut :=
    .single ⟨⟨fun _ h => (by cases h), fun _ _ _ => (by decide)⟩, hput⟩
  obtain ⟨f, db₁, -, hopen₁, -, -, -, -, -, hnext⟩ := hruns _ _ hrun
  obtain ⟨m, db', hlookup, hopen', hdata⟩ :=
    hnext 0 _ _ ⟨fun _ _ _ => (by decide), fun _ _ h => (by cases h)⟩ herase
  refine ⟨_, m, db', hrun, herase, hopen', fun db₂ hopen₂ => ?_⟩
  obtain rfl : db₁ = db₂ := hopen₁.db_eq hopen₂.txnDb
  exact ⟨hlookup, hdata⟩

/-! ## An empty queue -/

private def emptyErased : KueueImpl × StoreImpl := (Call.erase 0).after (fun _ => {}) created

/-- `erase(0)` on a queue that was just created returns true. The count is then `-1` and `minKey` has
passed `maxKey`; the next message is stored under a key that no `take` will look at. -/
theorem erase_empty_queue :
    (∀ db, created.2.OpenWith db → db.data createdKind.handle = ∅) ∧
      Step created ⟨.erase 0, fun _ => {}, .erased true⟩ emptyErased ∧
      emptyErased.1.count = -1 ∧ emptyErased.1.maxKey < emptyErased.1.minKey ∧
      ∃ y, Step emptyErased ⟨putNine, fun _ => {}, .reply { status := some 0 }⟩ y ∧
        y.1.count = 0 ∧ y.1.minKey = 1 ∧ y.1.maxKey = 1 ∧
        ∀ db, y.2.OpenWith db → (db.data createdKind.handle).lookup (putU64BE 0) = some [9] := by
  refine ⟨?_, Call.step_after rfl, rfl, by decide, putNine.after (fun _ => {}) emptyErased,
    Call.step_after rfl, rfl, rfl, rfl, ?_⟩
  · rintro db ⟨-, hdb⟩
    cases hdb
    rfl
  · rintro db ⟨-, hdb⟩
    cases hdb
    rfl

end KueueImpl

end Librocks
