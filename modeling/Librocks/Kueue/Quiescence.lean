import Librocks.Kueue.Traced
import Librocks.Kueue.Wakeup

/-!
# Every call returns, or sleeps on an empty queue

Two facts about the methods of `KueueImpl` that do not follow from what they compute.

`work_bounded`: the threads cannot keep each other busy. A run has at most sixteen steps for each call
and four for each spurious wakeup, and four for each message that is there at the start and that a
`clear` may have to remove. `Pc.work` is what a control point has still to do at most; somebody who is
notified has more to do, which the one who notifies has saved for.

`quiet_on_empty`: where nobody can go on, every thread is between two calls or sleeps in a wait without
a timeout. Then no update is outstanding, and if a thread sleeps the queue is empty.
-/

namespace Librocks.Threads

open Rocks

/-! ## The work of a control point -/

namespace Pc

/-- A bound on the steps that are left of the call. -/
def work : Pc → ℕ
  | .idle => 0
  | .putLock .. => 15
  | .putNext .. => 14
  | .putStore .. => 13
  -- four for a `clear` that has to remove the message
  | .putAdd => 12
  | .putUndo => 8
  | .putUnlock _ => 7
  | .sigLock => 6
  -- three for the thread that is notified
  | .sigNotify => 5
  | .sigUnlock => 1
  | .waitLock _ => 14
  | .waitTest _ => 13
  | .waitSleep _ => 12
  | .blocked _ => 14
  | .timedOut _ => 10
  | .waitLast _ => 9
  | .takeStore _ | .readStore _ => 8
  | .eraseTest _ => 11
  | .eraseLock _ => 10
  | .eraseCheck _ => 9
  | .eraseStore _ => 8
  | .clearLockPut _ => 12
  | .clearLockTake _ => 11
  | .clearTest _ => 10
  | .clearStore _ => 9
  | .clearUnlockTake => 2
  | .clearUnlockPut => 1
  | .removeNext .loop => 8
  | .removeSub .loop => 7
  | .removeNext (.answer _) => 7
  | .removeSub (.answer _) => 6
  | .removeNotify .. => 5
  | .takeUnlock _ => 1

end Pc

/-- What a step is paid for by what the thread does not decide. -/
def Event.price : Event → ℕ
  | .spurious => 4
  | .resume | .timeout => 0

theorem Wait.work_body (w : Wait) : w.body.work = 8 := by
  rcases w.body_cases with h | h <;> rw [h] <;> rfl

theorem Op.work_start (op : Op) (valid : Bool) : (op.start valid).work ≤ 15 := by
  cases op <;> cases valid <;> simp [Op.start, Pc.work]

section Move

variable {T : Type} [DecidableEq T] {t : T} {ch : Choice T} {sh sh' : Shared T} {p p' : Pc}

theorem Shared.length_wakeUp (h : sh.waiters.Nodup) :
    sh.waiters.length ≤ (sh.wakeUp t).waiters.length + 1 := by
  have heq : (sh.wakeUp t).waiters = sh.waiters.erase t := by
    rw [h.erase_eq_filter]
    exact List.filter_congr fun u _ => by by_cases hu : u = t <;> simp [hu]
  rw [heq, List.length_erase]
  split_ifs <;> omega

theorem length_notifyOne {wake : Option T} (h : sh.notifyOne wake = some sh')
    (hnodup : sh.waiters.Nodup) : sh.waiters.length ≤ sh'.waiters.length + 1 := by
  rcases notifyOne_cases h with ⟨-, -, rfl⟩ | ⟨u, -, -, rfl⟩
  · exact Nat.le_succ _
  · exact Shared.length_wakeUp hnodup

theorem exec_spurious {w w' : Wait} (h : exec t ch sh (.blocked w) = some (.blocked w', sh')) :
    ch.event = .spurious := by
  simp only [exec] at h
  split at h
  · split_ifs at h
    cases h
  · assumption
  · split_ifs at h
    cases h

/-- **The work of one step.** -/
theorem Move.work_le (h : Move t ch sh p p' sh') (hnodup : sh.waiters.Nodup)
    (hadd : p = .putAdd → (sh.queue.count + 1).toInt = sh.queue.count.toInt + 1)
    (hsub : ∀ k, p = .removeSub k → (sh.queue.count - 1).toInt = sh.queue.count.toInt - 1)
    (hspurious : ∀ w, p = .blocked w → p' = .blocked w → ch.event = .spurious) :
    (p'.work : ℤ) + 4 * sh'.queue.count.toInt - 3 * sh'.waiters.length + 1
      ≤ p.work + 4 * sh.queue.count.toInt - 3 * sh.waiters.length
        + (if p = .idle then 16 else 0) + ch.event.price := by
  have hprice : (0 : ℤ) ≤ ch.event.price := Int.natCast_nonneg _
  cases h with
  | call =>
    have := ch.op.work_start sh.queue.isValid_
    have hidle : Pc.idle.work = 0 := rfl
    rw [if_pos rfl, hidle]
    dsimp only
    omega
  | waitPasses | lastPasses =>
    rename_i w _
    rw [w.work_body]
    simp only [Pc.work, reduceCtorEq, if_false]
    omega
  | putAdd =>
    have := hadd rfl
    simp only [Pc.work, reduceCtorEq, if_false]
    omega
  | removeSub | clearSub =>
    have := hsub _ rfl
    simp only [Pc.work, reduceCtorEq, if_false]
    omega
  | sigNotify hn | removeNotify _ hn =>
    have hlen := length_notifyOne hn hnodup
    have hcount : sh'.queue.count = sh.queue.count := by rw [notifyOne_eq hn]
    simp only [Pc.work, reduceCtorEq, if_false, hcount]
    omega
  | spurious =>
    have hlen := Shared.length_wakeUp (t := t) hnodup
    simp only [hspurious _ rfl rfl, Event.price, reduceCtorEq, if_false, Shared.wakeUp] at hlen ⊢
    omega
  | timeout =>
    have hlen := Shared.length_wakeUp (t := t) hnodup
    simp only [Pc.work, reduceCtorEq, if_false, Shared.wakeUp] at hlen ⊢
    omega
  | waitSleep =>
    simp only [Pc.work, reduceCtorEq, if_false, List.length_cons]
    omega
  | removeNext =>
    rename_i k
    cases k <;> simp only [Pc.work, reduceCtorEq, if_false] <;> omega
  | _ =>
    simp only [Pc.work, Shared.remove, Shared.answered, reduceCtorEq, if_false]
    omega

end Move

/-! ## The work of the threads -/

section State

variable {T : Type} {x y : State T} {kd : KindImpl} {f₀ : Fifo}

/-- The threads that wait. -/
structure Asleep (x : State T) : Prop where
  nodup : x.shared.waiters.Nodup
  blocked : ∀ t ∈ x.shared.waiters, ∃ w, x.pc t = .blocked w

theorem Asleep.start (q : KueueImpl) (s : StoreImpl) : Asleep (State.start T q s) :=
  ⟨List.nodup_nil, fun _ hno => absurd hno List.not_mem_nil⟩

variable [DecidableEq T] {l : Label T}

theorem Asleep.step (h : Asleep x) (hs : Step x l y) : Asleep y := by
  refine ⟨?_, hs.waiting h.blocked⟩
  obtain ⟨p', hmove, -⟩ := hs.move
  generalize hp : x.pc l.thread = p at hmove
  generalize y.shared = sh' at hmove
  cases hmove with
  | waitSleep =>
    refine List.nodup_cons.mpr ⟨fun hmem => ?_, h.nodup⟩
    obtain ⟨w, hw⟩ := h.blocked _ hmem
    rw [hp] at hw
    cases hw
  | spurious | timeout => exact h.nodup.filter _
  | sigNotify hn | removeNotify _ hn =>
    rcases notifyOne_cases hn with ⟨-, -, rfl⟩ | ⟨u, -, -, rfl⟩
    · exact h.nodup
    · exact h.nodup.filter _
  | _ => exact h.nodup

omit [DecidableEq T] in
theorem Fits.toInt_add_one (h : Fits kd f₀ x) (hne : x.shared.queue.count ≠ Int64.maxValue) :
    (x.shared.queue.count + 1).toInt = x.shared.queue.count.toInt + 1 := by
  obtain ⟨hcount, hnonneg⟩ := h.count_toInt h.fits
  have hlt : x.shared.queue.count.toInt ≠ 2 ^ 63 - 1 := fun heq => hne (Int64.toInt.inj heq)
  have hfits := h.fits
  have hone : (1 : Int64).toInt = 1 := rfl
  rw [Int64.toInt_add, hone]
  exact Int.bmod_eq_of_le (by omega) (by omega)

omit [DecidableEq T] in
/-- A message that is gone is still counted, so that there is one to subtract. -/
theorem Fits.toInt_sub_one (h : Fits kd f₀ x) {t : T} {k : After} (hp : x.pc t = .removeSub k) :
    (x.shared.queue.count - 1).toInt = x.shared.queue.count.toInt - 1 := by
  have hc : x.overcounted = 1 := by
    rw [(h.take_numbers (t := t) (by rw [hp]; exact trivial)).2, hp]
    rfl
  obtain ⟨hcount, -⟩ := h.count_toInt h.fits
  have hcounted := h.counted
  have hfits := h.fits
  have hone : (1 : Int64).toInt = 1 := rfl
  rw [State.tally, hc] at hcount hfits
  rw [Int64.toInt_sub, hone]
  exact Int.bmod_eq_of_le (by omega) (by omega)

variable [Fintype T]

/-- The number of calls so far. -/
def State.calls (x : State T) : ℕ := ∑ t, x.shared.calls t

/-- What the threads have still to do: a waiter has three steps less than one that was woken up, and
every message may take a `clear` four. -/
def State.work (x : State T) : ℤ :=
  ∑ t, ((x.pc t).work : ℤ) + 4 * x.shared.queue.count.toInt - 3 * x.shared.waiters.length

/-- **One step.** -/
theorem Fits.work_step (h : Fits kd f₀ x) (hasleep : Asleep x) (hc : NoOverflow x l) (hs : Step x l y) :
    y.work - 16 * y.calls + 1 ≤ x.work - 16 * x.calls + l.choice.event.price := by
  obtain ⟨⟨p', sh'⟩, hexec, rfl⟩ := Option.map_eq_some_iff.mp hs
  have hmove := exec_move hexec
  have hone := hmove.work_le hasleep.nodup (fun hp => h.toInt_add_one (hc hp))
    (fun k hp => h.toInt_sub_one hp) fun w hp hp' => by
      rw [hp, hp'] at hexec
      exact exec_spurious hexec
  have hsum := sum_update (fun p => (p.work : ℤ)) x.pc l.thread p'
  have hcalls : ((∑ t, sh'.calls t : ℕ) : ℤ) = (∑ t, x.shared.calls t : ℕ)
      + if x.pc l.thread = .idle then 1 else 0 := by
    split_ifs with hp
    · rw [hp] at hmove
      cases hmove
      have := sum_update (fun n : ℕ => n) x.shared.calls l.thread (x.shared.calls l.thread + 1)
      dsimp only
      omega
    · rw [hmove.calls_eq hp, add_zero]
  simp only [State.work, State.calls]
  rw [hcalls]
  split_ifs at hone ⊢ <;> linarith

omit [DecidableEq T] in
/-- The waiters have enough left to do. -/
theorem Fits.work_nonneg (h : Fits kd f₀ x) (hasleep : Asleep x) : 0 ≤ x.work := by
  classical
  obtain ⟨hcount, hnonneg⟩ := h.count_toInt h.fits
  have hwaiters : (3 : ℤ) * x.shared.waiters.length ≤ ∑ t, ((x.pc t).work : ℤ) := by
    calc (3 : ℤ) * x.shared.waiters.length
        = ∑ _t ∈ x.shared.waiters.toFinset, 3 := by
          rw [Finset.sum_const, List.toFinset_card_of_nodup hasleep.nodup, nsmul_eq_mul, mul_comm]
      _ ≤ ∑ t ∈ x.shared.waiters.toFinset, ((x.pc t).work : ℤ) := by
          refine Finset.sum_le_sum fun t ht => ?_
          obtain ⟨w, hw⟩ := hasleep.blocked t (List.mem_toFinset.mp ht)
          rw [hw]
          show (3 : ℤ) ≤ (14 : ℕ)
          norm_num
      _ ≤ ∑ t, ((x.pc t).work : ℤ) :=
          Finset.sum_le_sum_of_subset_of_nonneg (Finset.subset_univ _) fun _ _ _ =>
            Int.natCast_nonneg _
  rw [State.work]
  omega

/-- **The threads cannot keep each other busy.** From a queue object that represents its Kind, however
the threads interleave and whatever the store refuses. -/
theorem work_bounded {q : KueueImpl} {s : StoreImpl} (hrep : KueueImpl.Rep kd (q, s) f₀)
    (htop : f₀.top ≤ topKey) (hlen : f₀.msgs.length < 2 ^ 63) {ls : List (Label T)}
    (hrun : Run (guarded (fun x l => Orderly x l ∧ NoOverflow x l) Step) (State.start T q s) ls x) :
    ls.length ≤ 4 * f₀.msgs.length + 16 * x.calls + (ls.map fun l => l.choice.event.price).sum := by
  have hfits := Fits.start (T := T) hrep htop hlen
  have hinv : ∀ (x : State T) l y, Fits kd f₀ x ∧ Asleep x →
      guarded (fun x l => Orderly x l ∧ NoOverflow x l) Step x l y → Fits kd f₀ y ∧ Asleep y :=
    fun x l y hx hst => ⟨hx.1.step hst.1.1 hst.1.2 hst.2, hx.2.step hst.2⟩
  have hx := hrun.invariant hinv ⟨hfits, .start q s⟩
  have hbound := hrun.amortized (fun x => x.work - 16 * x.calls) (fun l => l.choice.event.price) hinv
    (fun x l y hx hst => hx.1.work_step hx.2 hst.1.2 hst.2) ⟨hfits, .start q s⟩
  have hstart : (State.start T q s).work - 16 * (State.start T q s).calls = 4 * f₀.msgs.length := by
    have hcount : q.count.toInt = f₀.msgs.length := hrep.count_toInt hlen
    simp [State.work, State.calls, State.start, hcount, Pc.work]
  have hnonneg := hx.1.work_nonneg hx.2
  rw [hstart] at hbound
  omega

end State

/-- A consumer sleeps, is woken up without a reason and sleeps again, until another thread puts a
message. -/
private def sleeper : List (Label Bool) :=
  let take : Label Bool := ⟨true, { op := .consume { consumer := .take } }⟩
  let spurious : Label Bool := ⟨true, { event := .spurious }⟩
  let put : Label Bool := ⟨false, { op := .put Status.ok [7], wake := some true }⟩
  List.replicate 4 take ++ [spurious] ++ List.replicate 3 take ++ List.replicate 9 put

private def slept : State Bool :=
  (follow State.next calm (State.start Bool KueueImpl.created.1 KueueImpl.created.2) sleeper).getD
    (State.start Bool {} KueueImpl.created.2)

theorem work_bounded_sleeper :
    slept.calls = 2 ∧ sleeper.length = 17 ∧
      sleeper.length ≤ 16 * slept.calls + (sleeper.map fun l => l.choice.event.price).sum := by
  have hrun : Run (guarded (fun x l => Orderly x l ∧ NoOverflow x l) Step)
      (State.start Bool KueueImpl.created.1 KueueImpl.created.2) sleeper slept :=
    Run.guarded_of_follow (fun x l h => (calm_spec x l h).1) rfl
  have hbound := work_bounded KueueImpl.created_rep (Nat.zero_le _) (by decide) hrun
  exact ⟨rfl, rfl, by simpa using hbound⟩

/-! ## Where nobody can go on -/

section Quiet

variable {T : Type} [DecidableEq T] {x : State T} {kd : KindImpl} {f₀ : Fifo} {lim : ℕ} {t : T}

/-- What the next step of a thread has to wait for: a lock, or a notification. -/
def Waits (x : State T) (t : T) : Prop :=
  match x.pc t with
  | .idle => True
  | .putLock .. | .clearLockPut _ => x.shared.putLock ≠ none
  | .sigLock | .waitLock _ | .timedOut _ | .eraseLock _ | .clearLockTake _ =>
      x.shared.takeLock ≠ none
  | .blocked w => if t ∈ x.shared.waiters then w.timed = false else x.shared.takeLock ≠ none
  | _ => False

/-- Nobody can go on with a call, unless it is woken up for no reason. -/
def Quiet (x : State T) : Prop :=
  ∀ l : Label T, x.pc l.thread ≠ .idle → l.choice.event ≠ .spurious → x.next l = none

theorem exists_notifyOne (sh : Shared T) : ∃ wake sh', sh.notifyOne wake = some sh' := by
  cases hw : sh.waiters with
  | nil => exact ⟨none, sh, if_pos hw⟩
  | cons u us => exact ⟨some u, sh.wakeUp u, if_pos (by rw [hw]; exact List.mem_cons_self)⟩

/-- The store calls of a queue return. -/
theorem Inv.store_returns (h : Inv kd f₀ lim x)
    (hcall : (x.pc t).Ready ∨ ∃ st v key, x.pc t = .putStore st v key) (ch : Choice T) :
    (exec t ch x.shared (x.pc t)).isSome := by
  obtain ⟨db, hopen, hb⟩ := h.book
  cases hp : x.pc t with
  | putStore state v key =>
    obtain ⟨st, s', -, hrun, -⟩ := StoreImpl.voidWrite_open hopen ch.answers
      (fun key fam => .put fam key v) (some state) (.impl kd) (some (putU64BE key))
    have hput : x.shared.store.put ch.answers (some state) (.impl kd) (some (putU64BE key)) v
        = .ok (st, s') := hrun
    simp only [exec, hb.kind, Option.bind_eq_bind, Option.bind_some, hput, Except.toOption]
    split_ifs <;> rfl
  | takeStore w =>
    obtain ⟨r, s', -, hrun, -⟩ := StoreImpl.ifPresent_open hopen ch.answers
      (fun key fam => .singleDelete fam key ch.answers.undefined) (some w.state) (.impl kd) w.valLen
      (some (putU64BE x.shared.queue.minKey))
    have hremove : x.shared.store.singleRemoveIfPresent ch.answers (some w.state) (.impl kd) w.valLen
        (some (putU64BE x.shared.queue.minKey)) = .ok (r, s') := hrun
    simp only [exec, hb.kind, Option.bind_eq_bind, Option.bind_some, hremove, Except.toOption]
    split_ifs <;> rfl
  | readStore w =>
    obtain ⟨r, hrun, -⟩ := StoreImpl.get_open hopen ch.answers (some w.state) (.impl kd) w.valLen
      (some (putU64BE x.shared.queue.minKey))
    simp only [exec, hb.kind, Option.bind_eq_bind, Option.bind_some, hrun, Except.toOption]
    rfl
  | eraseStore key =>
    obtain ⟨st, s', -, hrun, -⟩ := StoreImpl.voidWrite_open hopen ch.answers
      (fun key fam => .singleDelete fam key ch.answers.undefined) (some Status.ok) (.impl kd)
      (some (putU64BE key))
    have hremove : x.shared.store.singleRemove ch.answers (some Status.ok) (.impl kd)
        (some (putU64BE key)) = .ok (st, s') := hrun
    simp only [exec, hb.kind, Option.bind_eq_bind, Option.bind_some, hremove, Except.toOption]
    split_ifs <;> rfl
  | clearStore state =>
    obtain ⟨st, s', -, hrun, -⟩ := StoreImpl.voidWrite_open hopen ch.answers
      (fun key fam => .singleDelete fam key ch.answers.undefined) (some state) (.impl kd)
      (some (putU64BE x.shared.queue.minKey))
    have hremove : x.shared.store.singleRemove ch.answers (some state) (.impl kd)
        (some (putU64BE x.shared.queue.minKey)) = .ok (st, s') := hrun
    simp only [exec, hb.kind, Option.bind_eq_bind, Option.bind_some, hremove, Except.toOption]
    split_ifs <;> rfl
  | _ =>
    rw [hp] at hcall
    obtain hno | ⟨_, _, _, hno⟩ := hcall
    · exact hno.elim
    · cases hno

/-- A thread that has nothing to wait for can go on. -/
theorem Inv.goes_on (h : Inv kd f₀ lim x) (hwaits : ¬ Waits x t) :
    ∃ ch : Choice T, ch.event ≠ .spurious ∧ (exec t ch x.shared (x.pc t)).isSome := by
  have hstore := h.store_returns (t := t)
  obtain ⟨wake, sh', hwake⟩ := exists_notifyOne x.shared
  simp only [Waits] at hwaits
  generalize x.pc t = p at hwaits hstore
  cases p with
  | idle => exact absurd trivial hwaits
  | putLock | clearLockPut | sigLock | waitLock | timedOut | eraseLock | clearLockTake =>
    have hfree := not_ne_iff.mp hwaits
    exact ⟨{}, Event.noConfusion, by simp [exec, hfree]⟩
  | putStore => exact ⟨{}, Event.noConfusion, hstore (.inr ⟨_, _, _, rfl⟩) _⟩
  | takeStore | readStore | eraseStore | clearStore =>
    exact ⟨{}, Event.noConfusion, hstore (.inl trivial) _⟩
  | sigNotify => exact ⟨{ wake }, Event.noConfusion, by simp [exec, hwake]⟩
  | removeNotify ans c =>
    refine ⟨{ wake }, Event.noConfusion, ?_⟩
    simp only [exec, hwake]
    split_ifs <;> rfl
  | eraseTest =>
    refine ⟨{}, Event.noConfusion, ?_⟩
    simp only [exec]
    split_ifs <;> rfl
  | blocked w =>
    by_cases hmem : t ∈ x.shared.waiters
    · have htimed : w.timed = true := by simpa [hmem] using hwaits
      exact ⟨{ event := .timeout }, Event.noConfusion, by simp [exec, htimed]⟩
    · have hfree : x.shared.takeLock = none := by simpa [hmem] using hwaits
      exact ⟨{}, Event.noConfusion, by simp [exec, hmem, hfree]⟩
  | _ => exact ⟨{}, Event.noConfusion, rfl⟩

theorem Inv.waits (h : Inv kd f₀ lim x) (hquiet : Quiet x) (t : T) : Waits x t := by
  by_contra hno
  have hne : x.pc t ≠ .idle := by
    intro hidle
    simp only [Waits, hidle, not_true_eq_false] at hno
  obtain ⟨ch, hevent, hsome⟩ := h.goes_on hno
  have hnone := Option.map_eq_none_iff.mp (hquiet ⟨t, ch⟩ hne hevent)
  rw [hnone] at hsome
  cases hsome

/-- The queue at rest. No update is outstanding: the object represents what is stored. -/
structure Rests (kd : KindImpl) (f₀ : Fifo) (x : State T) : Prop where
  threads : ∀ t, x.pc t = .idle ∨ ∃ w, x.pc t = .blocked w ∧ w.timed = false ∧ t ∈ x.shared.waiters
  putLock : x.shared.putLock = none
  takeLock : x.shared.takeLock = none
  rep : KueueImpl.Rep kd (x.shared.queue, x.shared.store) (x.fifo f₀)

theorem Inv.rests (h : Inv kd f₀ lim x) (hvalid : x.shared.queue.isValid_ = true) (hquiet : Quiet x) :
    Rests kd f₀ x := by
  have hwaits := h.waits hquiet
  -- whoever has a lock can go on, first with `takeLock` and then with `putLock`
  have htake : x.shared.takeLock = none := by
    by_contra hne
    obtain ⟨t, ht⟩ := Option.ne_none_iff_exists'.mp hne
    have hholds := (h.take t).mp ht
    have hw := hwaits t
    simp only [Waits] at hw
    generalize x.pc t = p at hholds hw
    cases p <;> first | exact hholds.elim | exact hw.elim
  have hput : x.shared.putLock = none := by
    by_contra hne
    obtain ⟨t, ht⟩ := Option.ne_none_iff_exists'.mp hne
    have hholds := (h.put t).mp ht
    have hw := hwaits t
    simp only [Waits, htake] at hw
    generalize x.pc t = p at hholds hw
    cases p <;> first | exact hholds.elim | exact hw.elim | exact hw rfl
  refine ⟨fun t => ?_, hput, htake, ?_⟩
  · have hw := hwaits t
    simp only [Waits, htake, hput] at hw
    cases hp : x.pc t with
    | idle => exact .inl rfl
    | blocked w =>
      rw [hp] at hw
      split_ifs at hw with hmem
      · exact .inr ⟨w, rfl, hw, hmem⟩
      · exact absurd rfl hw
    | _ =>
      rw [hp] at hw
      first | exact hw.elim | exact absurd rfl hw
  · obtain ⟨db, hopen, hb⟩ := h.book
    have hr : x.reserved = 0 := by rw [State.reserved, hput]; rfl
    have hu : x.uncounted = 0 := by rw [State.uncounted, hput]; rfl
    have hd : x.unshifted = 0 := by rw [State.unshifted, htake]; rfl
    have hc : x.overcounted = 0 := by rw [State.overcounted, htake]; rfl
    rw [hr, hu, hd, hc] at hb
    exact { valid := hvalid, kind := hb.kind, stored := ⟨db, hopen, hb.stored⟩
            minKey := hb.minKey_eq, maxKey := hb.maxKey
            count := hb.count.trans (congrArg Int64.ofInt (by simp)) }

omit [DecidableEq T] in
/-- While threads are at rest nobody attends to them, so that there is no message. -/
theorem Rests.msgs_eq_nil (h : Rests kd f₀ x) (hfits : Fits kd f₀ x) (hwake : Wake x) {t : T}
    (ht : x.pc t ≠ .idle) : (x.fifo f₀).msgs = [] := by
  obtain ⟨w, -, -, hmem⟩ := (h.threads t).resolve_left ht
  refine h.rep.msgs_eq_nil ?_ fun hpos => ?_
  · have hu : x.uncounted = 0 := by rw [State.uncounted, h.putLock]; rfl
    have htally := hfits.fits
    rw [State.tally, hu] at htally
    omega
  · obtain ⟨u, hu⟩ := hwake.attended hpos (List.ne_nil_of_mem hmem)
    rcases h.threads u with hp | ⟨w', hp, -, hmem'⟩
    · rw [hp] at hu
      obtain hno | hno | hno := hu <;> exact hno.elim
    · rw [hp] at hu
      obtain hno | hno | hno := hu
      · exact hno.elim
      · exact hno hmem'
      · exact hno.elim

/-- **Every call returns, or sleeps on an empty queue.** Once no call can go on, whatever happened
before: all threads are idle or asleep for want of a message, both locks are free, and the object
represents what is stored. If the store refused nothing and nobody called `readNext`, a thread sleeps
only on an empty queue. -/
theorem quiet_on_empty {granted : Prop} {q : KueueImpl} {s : StoreImpl}
    (hrep : KueueImpl.Rep kd (q, s) f₀) (htop : f₀.top ≤ topKey) (hlen : f₀.msgs.length < 2 ^ 63)
    {ls : List (Label T)}
    (hrun : Run (guarded (fun x l => (Orderly x l ∧ NoOverflow x l) ∧
      (granted → Wakeful (x.pc l.thread) x.shared l.choice)) Step) (State.start T q s) ls x)
    (hquiet : Quiet x) :
    Rests kd f₀ x ∧ (granted → ∀ t, x.pc t ≠ .idle → (x.fifo f₀).msgs = []) := by
  obtain ⟨hfits, hvalid, hwake⟩ := hrun.invariant
    (P := fun x => Fits kd f₀ x ∧ x.shared.queue.isValid_ = true ∧ (granted → Wake x))
    (fun x l y hx hst => by
      obtain ⟨⟨⟨ho, hc⟩, hg⟩, hst⟩ := hst
      obtain ⟨p', hmove, -⟩ := hst.move
      exact ⟨hx.1.step ho hc hst, hmove.valid_eq.trans hx.2.1,
        fun hgranted => (hx.2.2 hgranted).step (hg hgranted) hst⟩)
    ⟨Fits.start hrep htop hlen, hrep.valid, fun _ => Wake.start q s⟩
  have hrests := hfits.rests hvalid hquiet
  exact ⟨hrests, fun hgranted t ht => hrests.msgs_eq_nil hfits (hwake hgranted) ht⟩

end Quiet

/-- A `take` on its way to sleep. -/
private def dozing (x : State Bool) (l : Label Bool) : Bool :=
  calm x l &&
    (match x.pc l.thread with
      | .idle | .waitLock _ | .waitTest _ | .waitSleep _ => true
      | _ => false) &&
    match l.choice.op with
    | .consume w => decide (w.consumer = .take)
    | _ => false

private theorem dozing_spec (x : State Bool) (l : Label Bool) (h : dozing x l = true) :
    (Orderly x l ∧ NoOverflow x l) ∧ (True → Wakeful (x.pc l.thread) x.shared l.choice) := by
  simp only [dozing, Bool.and_eq_true] at h
  obtain ⟨⟨hcalm, hpc⟩, hop⟩ := h
  refine ⟨(calm_spec x l hcalm).1, fun _ => ⟨fun _ w timeout hw hread => ?_, fun kind _ => ?_, ?_⟩⟩
  · rw [hw] at hop
    have htake : w.consumer = .take := of_decide_eq_true hop
    rw [hread] at htake
    cases htake
  · generalize x.pc l.thread = p at hpc
    cases p <;> first | exact trivial | cases hpc
  · intro k hp
    rw [hp] at hpc
    cases hpc

private def doze : List (Label Bool) :=
  List.replicate 4 ⟨true, { op := .consume { consumer := .take } }⟩

private def dozed : State Bool :=
  (follow State.next dozing (State.start Bool KueueImpl.created.1 KueueImpl.created.2) doze).getD
    (State.start Bool {} KueueImpl.created.2)

theorem quiet_on_empty_doze :
    dozed.pc true = .blocked { consumer := .take } ∧ dozed.shared.waiters = [true] ∧
      Rests KueueImpl.createdKind ⟨0, []⟩ dozed ∧ (dozed.fifo ⟨0, []⟩).msgs = [] := by
  have hfollow : follow State.next dozing (State.start Bool KueueImpl.created.1 KueueImpl.created.2) doze
      = some dozed := rfl
  have hpc : dozed.pc true = .blocked { consumer := .take } := rfl
  have hquiet : Quiet dozed := by
    rintro ⟨t, ch⟩ hne hevent
    cases t with
    | false => exact absurd rfl hne
    | true =>
      refine Option.map_eq_none_iff.mpr ?_
      simp only [hpc, exec]
      split
      · rfl
      · exact absurd ‹_› hevent
      · rfl
  obtain ⟨hrests, hnil⟩ := quiet_on_empty KueueImpl.created_rep (Nat.zero_le _) (by decide)
    (Run.guarded_of_follow dozing_spec hfollow) hquiet
  exact ⟨hpc, rfl, hrests, hnil trivial true (by rw [hpc]; exact Pc.noConfusion)⟩

end Librocks.Threads
