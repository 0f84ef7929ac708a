import Librocks.Kueue.Concurrent

/-!
# One acknowledgement per message

Consumers that read the same message race for it with `erase`. The first test of `erase` is made without
the lock; a consumer that passes it and gets the lock only after another one removed the message fails
the second test, and is told true all the same (`erase_twice`). In the runs in which no second test fails,
a message is acknowledged by one call, and that call removed it (`one_acknowledgement`).
-/

namespace Librocks.Threads

open Rocks

variable {T : Type} [DecidableEq T]

/-- The step is not the second test of an `erase` whose message is gone. -/
def InTime (x : State T) (l : Label T) : Prop :=
  ∀ key, x.pc l.thread = .eraseCheck key → key = x.shared.queue.minKey

/-- Acknowledgements are unique, and backed by removals. -/
structure Acknowledged (x : State T) : Prop where
  /-- All acknowledgements of a key come from one call. -/
  unique : ∀ key, ∀ ret ∈ x.shared.returns, ∀ ret' ∈ x.shared.returns,
    ret.answer.Acks key → ret'.answer.Acks key →
      ret.thread = ret'.thread ∧ ret.call = ret'.call
  /-- The call that acknowledges a key has removed a message under that key. -/
  removed : ∀ key, ∀ ret ∈ x.shared.returns, ret.answer.Acks key →
    ∃ m ∈ x.shared.removals, m.thread = ret.thread ∧ m.call = ret.call ∧ m.key = key ∧
      ∃ v, m.value = some v
  /-- A `take` has returned the message it removed. -/
  taken : ∀ ret ∈ x.shared.returns, ∀ key r, ret.answer = .taken key r →
    r.status = some Status.ok → ∃ m ∈ x.shared.removals, m.key = key ∧
      ∃ v, m.value = some v ∧ r.data = StoreImpl.buffer v ∧ r.resultLen = some v.length

variable {x : State T} {kd : KindImpl} {f₀ : Fifo} {lim : ℕ}

omit [DecidableEq T] in
/-- Every removal took a message out of the Kind. -/
theorem Inv.removed_some (h : Inv kd f₀ lim x) {m : Removed T} (hm : m ∈ x.shared.removals) :
    ∃ v, m.value = some v := by
  have hmem : (m.key, m.value) ∈ x.shared.removals.map fun m => (m.key, m.value) :=
    List.mem_map_of_mem hm
  rw [h.record, List.mem_map] at hmem
  obtain ⟨i, hi, heq⟩ := hmem
  obtain ⟨-, hvalue⟩ := Prod.mk.inj heq
  have hlt := lt_of_lt_of_le (List.mem_range.mp hi) h.gone
  exact ⟨_, hvalue.symm.trans (List.getElem?_eq_getElem hlt)⟩

omit [DecidableEq T] in
theorem Inv.acknowledged (h : Inv kd f₀ lim x) (hl : Ledger (fun ans => ∃ key, ans.Acks key) x) :
    Acknowledged x where
  unique key ret hret ret' hret' hack hack' := by
    obtain ⟨m, hm, hb⟩ := hl.returned ret hret ⟨key, hack⟩
    obtain ⟨m', hm', hb'⟩ := hl.returned ret' hret' ⟨key, hack'⟩
    -- both removals are of the same key, so they are one
    obtain rfl : m = m' := List.inj_on_of_nodup_map h.nodup_keys hm hm'
      ((hb.key key hack).trans (hb'.key key hack').symm)
    exact ⟨hb.thread.symm.trans hb'.thread, hb.call.symm.trans hb'.call⟩
  removed key ret hret hack := by
    obtain ⟨m, hm, hb⟩ := hl.returned ret hret ⟨key, hack⟩
    exact ⟨m, hm, hb.thread, hb.call, hb.key key hack, h.removed_some hm⟩
  taken ret hret key r hans hst := by
    have hack : ret.answer.Acks key := by rw [hans]; exact ⟨rfl, hst⟩
    obtain ⟨m, hm, hb⟩ := hl.returned ret hret ⟨key, hack⟩
    exact ⟨m, hm, hb.key key hack, hb.value key r hans⟩

/-- **One acknowledgement per message**, as long as no `erase` comes too late. The queue is one that was
built on a contiguous Kind and still has keys left. -/
theorem one_acknowledgement {s s' : StoreImpl} {db db' : Db} {aKind aMin aMax : Answers} {id : Bytes}
    {q : KueueImpl} {lo hi : ℕ} (hstore : s.OpenWith db)
    (hnew : KueueImpl.new aKind aMin aMax id s = .ok (q, s')) (hvalid : q.isValid_ = true)
    (hmin : aMin.seek = none) (hmax : aMax.seek = none) (hopen : s'.OpenWith db')
    (hkind : q.queueKind = some (.impl kd)) (hc : Contiguous kd.handle db' lo hi)
    (hhi : hi < 2 ^ 64) {ls : List (Label T)}
    (hrun : Run (guarded (fun x l => Orderly x l ∧ InTime x l) Step) (State.start T q s') ls x) :
    Acknowledged x := by
  obtain ⟨f₀, ⟨hrep, -⟩, -, hlen, hlo⟩ :=
    KueueImpl.new_rep hstore hnew hvalid hopen hkind (.inl ⟨hmin, hmax⟩) hc
  have htop : f₀.top ≤ topKey := by
    have hle := hc.le
    simp only [Fifo.top, topKey, hlen, hlo]
    split_ifs <;> omega
  obtain ⟨hinv, hledger⟩ := hrun.invariant
    (P := fun x => Inv kd f₀ topKey x ∧ Ledger (fun ans => ∃ key, ans.Acks key) x)
    (fun x l y hx hst => by
      obtain ⟨⟨ho, htime⟩, hst⟩ := hst
      obtain ⟨db, hopen, hb⟩ := hx.1.book
      exact ⟨hx.1.step (hx.1.allowed ho) hst,
        hx.2.step (fun _ hans => hans) hb.kind hopen (fun key _ hp => htime key hp) hst⟩)
    ⟨Inv.start hrep (limit_topKey _) htop, Ledger.start _ _ _⟩
  exact hinv.acknowledged hledger

/-- The labels of a put, a read and an `erase` of the thread `t`. -/
private def putBy (t : Bool) : Label Bool := ⟨t, { op := .put Status.ok [7] }⟩

private def readBy (t : Bool) : Label Bool := ⟨t, { op := .consume { consumer := .readNext 0 } }⟩

private def eraseBy (t : Bool) : Label Bool := ⟨t, { op := .erase 0 }⟩

private def inTime (x : State Bool) (l : Label Bool) : Bool :=
  match x.pc l.thread with
  | .eraseCheck key => decide (key = x.shared.queue.minKey)
  | _ => true

private theorem inTime_spec (x : State Bool) (l : Label Bool) (h : inTime x l = true) :
    InTime x l := by
  intro key hp
  simpa [inTime, hp] using h

/-- A message is put and read by one thread, and erased by another one. -/
private def readErase : List (Label Bool) :=
  List.replicate 9 (putBy false) ++ List.replicate 5 (readBy false) ++
    List.replicate 9 (eraseBy true)

private def readErased : State Bool :=
  (follow State.next (fun x l => calm x l && inTime x l)
    (State.start Bool KueueImpl.created.1 KueueImpl.created.2) readErase).getD
    (State.start Bool {} KueueImpl.created.2)

theorem one_acknowledgement_read_erase :
    readErased.shared.returns.map (fun ret => (ret.thread, ret.answer))
        = [(false, .read 0 { status := some Status.ok, resultLen := some 1, data := some [7] }),
          (true, .erased 0 true)] ∧
      Acknowledged readErased := by
  have hcreated : StoreImpl.created.OpenWith (Db.created.beginTransaction true none).2 := ⟨rfl, rfl⟩
  obtain ⟨db, hopen, hc⟩ := KueueImpl.created_contiguous
  have hrun : Run (guarded (fun x l => Orderly x l ∧ InTime x l) Step)
      (State.start Bool KueueImpl.created.1 KueueImpl.created.2) readErase readErased := by
    have hfollow : follow State.next (fun x l => calm x l && inTime x l)
        (State.start Bool KueueImpl.created.1 KueueImpl.created.2) readErase = some readErased := rfl
    refine Run.guarded_of_follow (fun x l h => ?_) hfollow
    rw [Bool.and_eq_true] at h
    exact ⟨(calm_spec x l h.1).1.1, inTime_spec x l h.2⟩
  exact ⟨rfl, one_acknowledgement hcreated KueueImpl.new_created rfl rfl rfl hopen rfl hc
    (by decide) hrun⟩

/-- Two threads read the same message and pass the first test of `erase`. The first one to get the lock
removes the message. -/
private def race : List (Label Bool) :=
  List.replicate 9 (putBy false) ++ List.replicate 5 (readBy false) ++
    List.replicate 5 (readBy true) ++ List.replicate 2 (eraseBy false) ++
    List.replicate 2 (eraseBy true) ++ List.replicate 7 (eraseBy false) ++
    List.replicate 3 (eraseBy true)

private def raced : State Bool :=
  (follow State.next calm (State.start Bool KueueImpl.created.1 KueueImpl.created.2) race).getD
    (State.start Bool {} KueueImpl.created.2)

/-- Both calls return true. The second one has removed nothing. -/
theorem erase_twice :
    Run (guarded (fun x l => Orderly x l ∧ StoreImpl.Faultless l.choice.answers) Step)
        (State.start Bool KueueImpl.created.1 KueueImpl.created.2) race raced ∧
      raced.shared.returns.drop 2 = [⟨false, 3, .erased 0 true⟩, ⟨true, 2, .erased 0 true⟩] ∧
      raced.shared.removals = [⟨false, 3, 0, some [7]⟩] ∧ ¬ Acknowledged raced := by
  have hfollow : follow State.next calm (State.start Bool KueueImpl.created.1 KueueImpl.created.2) race
      = some raced := rfl
  refine ⟨Run.guarded_of_follow (fun x l h => ?_) hfollow, rfl, rfl, fun hack => ?_⟩
  · have hcalm := calm_spec x l h
    exact ⟨hcalm.1.1, hcalm.2⟩
  · have hunique := hack.unique 0 ⟨false, 3, .erased 0 true⟩ (by decide) ⟨true, 2, .erased 0 true⟩
      (by decide) ⟨rfl, rfl⟩ ⟨rfl, rfl⟩
    exact absurd hunique.1 (by decide)

end Librocks.Threads
