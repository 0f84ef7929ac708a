import Librocks.Kueue.Alone

/-!
# No lost wakeup

A put signals only when the count was zero, and a consumer passes the signal on only when its `c > 1`,
while the count changes under either lock. `no_lost_wakeup`: even so, while there are messages and
somebody waits for one, somebody else is on the way to wake a waiter up or to take a message.

The invariant `Wake` has two parts. A waiter is *attended* while the count is positive. A thread that
has seen no further message and still holds `takeLock` is *closing*: if the count turns positive in the
meantime, then a put has found zero and has not signalled yet, as it needs `takeLock` for that.
-/

namespace Librocks.Threads

open Rocks

/-! ## Who attends to the waiters -/

namespace Pc

/-- A put that found the count at zero and has not notified a waiter yet. -/
def Signals : Pc → Prop
  | .putUnlock c => c = 0
  | .sigLock | .sigNotify => True
  | _ => False

/-- A `take` inside `takeLock` that has not evaluated its `c > 1` yet. -/
def Consumes : Pc → Prop
  | .waitTest _ | .waitLast _ | .takeStore _ => True
  | .removeNext (.answer (.taken ..)) | .removeSub (.answer (.taken ..)) => True
  | .removeNotify (.taken ..) _ => True
  | _ => False

/-- A thread inside `takeLock` that saw the count without a further message and goes to sleep or leaves
without a notification. -/
def Closing : Pc → Prop
  | .waitSleep _ => True
  | .removeNotify (.taken ..) c => ¬ c > 1
  | _ => False

/-- The wait that a control point belongs to. -/
def wait : Pc → Option Wait
  | .waitLock w | .waitTest w | .waitSleep w | .blocked w | .timedOut w | .waitLast w => some w
  | .takeStore w | .readStore w => some w
  | _ => none

theorem Closing.holdsTake {p : Pc} (h : p.Closing) : p.HoldsTake := by
  cases p <;> first | exact trivial | exact h.elim

theorem Closing.not_signals {p : Pc} (h : p.Closing) : ¬ p.Signals := by
  intro hs
  cases p <;> first | exact hs.elim | exact h.elim

end Pc

/-- A waiter that was woken up, by a notification, spuriously or by its timeout, and does not have the
lock yet. -/
def Woken {T : Type} (t : T) (waiters : List T) : Pc → Prop
  | .blocked _ => t ∉ waiters
  | .timedOut _ => True
  | _ => False

/-- A thread that will wake a waiter up or take a message. -/
def Attends {T : Type} (t : T) (waiters : List T) (p : Pc) : Prop :=
  p.Signals ∨ Woken t waiters p ∨ p.Consumes

/-- There are messages and somebody waits, and nobody does anything about it. -/
structure Stuck {T : Type} (x : State T) : Prop where
  count : x.shared.queue.count > 0
  waiter : ∃ t w, x.pc t = .blocked w ∧ t ∈ x.shared.waiters
  signals : ∀ t, ¬ (x.pc t).Signals
  woken : ∀ t, ¬ Woken t x.shared.waiters (x.pc t)
  consumes : ∀ t, ¬ (x.pc t).Consumes

/-! ## One step -/

theorem pos_of_add_one_pos {c : Int64} (h : c + 1 > 0) : c > 0 ∨ c = 0 := by
  have hpos : (0 : Int64).toInt < (c + 1).toInt := Int64.lt_iff_toInt_lt.mp h
  have hzero : (0 : Int64).toInt = 0 := rfl
  have hone : (1 : Int64).toInt = 1 := rfl
  have hle := c.le_toInt
  have hlt := c.toInt_lt
  by_cases hmax : c.toInt = 2 ^ 63 - 1
  · exact .inl (Int64.lt_iff_toInt_lt.mpr (by omega))
  · rw [Int64.toInt_add, hone, Int.bmod_eq_of_le (by omega) (by omega), hzero] at hpos
    rcases lt_or_eq_of_le (Int.le_of_lt_add_one hpos) with hc | hc
    · exact .inl (Int64.lt_iff_toInt_lt.mpr (by omega))
    · exact .inr (Int64.toInt.inj (by omega))

/-- Only the least value of the count grows when one is subtracted. -/
theorem one_lt_of_sub_one_pos {c : Int64} (h : c - 1 > 0) (hmin : c ≠ Int64.minValue) : c > 1 := by
  have hpos : (0 : Int64).toInt < (c - 1).toInt := Int64.lt_iff_toInt_lt.mp h
  have hzero : (0 : Int64).toInt = 0 := rfl
  have hone : (1 : Int64).toInt = 1 := rfl
  have hle := c.le_toInt
  have hlt := c.toInt_lt
  have hne : c.toInt ≠ -2 ^ 63 := fun heq => hmin (Int64.toInt.inj heq)
  rw [Int64.toInt_sub, hone, Int.bmod_eq_of_le (by omega) (by omega)] at hpos
  exact Int64.lt_iff_toInt_lt.mpr (by omega)

theorem pos_of_one_lt {c : Int64} (h : c > 1) : c > 0 :=
  Int64.lt_trans (by decide) h

theorem Wait.not_pos_of_fails {w : Wait} {count : Int64} (h : w.passes count = false) :
    ¬ count > 0 := by
  intro hpos
  cases w with
  | mk consumer =>
    cases consumer with
    | take =>
      have h0 : count = 0 := by simpa [Wait.passes] using h
      rw [h0] at hpos
      exact absurd hpos (by decide)
    | takeTimed | readNext =>
      have hno : ¬ count > 0 := by simpa [Wait.passes] using h
      exact hno hpos

variable {T : Type} [DecidableEq T] {t u : T} {ch : Choice T} {sh sh' : Shared T} {p p' : Pc}

/-- The conditions on a step: nobody calls `readNext`, the store call succeeds, and no `fetch_sub` takes
the count below its least value. -/
structure Wakeful (p : Pc) (sh : Shared T) (ch : Choice T) : Prop where
  readNext : p = .idle → ∀ w timeout, ch.op = .consume w → w.consumer ≠ .readNext timeout
  granted : Granted p sh ch
  underflow : ∀ k, p = .removeSub k → sh.queue.count ≠ Int64.minValue

/-- The count turns positive only by a put that will signal. -/
theorem Move.count_pos (h : Move t ch sh p p' sh')
    (hmin : ∀ k, p = .removeSub k → sh.queue.count ≠ Int64.minValue)
    (hcount : sh'.queue.count > 0) : sh.queue.count > 0 ∨ p'.Signals := by
  cases h with
  | putAdd => exact pos_of_add_one_pos hcount
  | removeSub | clearSub =>
    exact .inl (pos_of_one_lt (one_lt_of_sub_one_pos hcount (hmin _ rfl)))
  | sigNotify hn | removeNotify _ hn =>
    rw [notifyOne_eq hn] at hcount
    exact .inl hcount
  | _ => exact .inl hcount

/-- A thread becomes a waiter by going to sleep, and a waiter that moves is one no longer. -/
theorem Move.mem_waiters (h : Move t ch sh p p' sh') (hu : u ∈ sh'.waiters) :
    (u ∈ sh.waiters ∧ (u = t → ∀ w, p ≠ .blocked w)) ∨
      (u = t ∧ ∃ w, p = .waitSleep w ∧ p' = .blocked w) := by
  cases h with
  | waitSleep =>
    rcases List.mem_cons.mp hu with rfl | hold
    · exact .inr ⟨rfl, _, rfl, rfl⟩
    · exact .inl ⟨hold, fun _ _ => Pc.noConfusion⟩
  | resume hw => exact .inl ⟨hu, fun heq => absurd (heq ▸ hu) hw⟩
  | spurious | timeout =>
    obtain ⟨hold, hne⟩ := List.mem_filter.mp hu
    exact .inl ⟨hold, fun heq => absurd heq (of_decide_eq_true hne)⟩
  | sigNotify hn | removeNotify _ hn =>
    refine .inl ⟨?_, fun _ _ => Pc.noConfusion⟩
    rcases notifyOne_cases hn with ⟨-, -, rfl⟩ | ⟨v, -, -, rfl⟩
    · exact hu
    · exact (List.mem_filter.mp hu).1
  | _ => exact .inl ⟨hu, fun _ _ => Pc.noConfusion⟩

/-- A put keeps its signal until it notifies. -/
theorem Move.signals (h : Move t ch sh p p' sh') (hp : p.Signals) : p'.Signals ∨ p = .sigNotify := by
  cases h with
  | putSignals | sigLock => exact .inl trivial
  | sigNotify => exact .inr rfl
  | putUnlock hc => exact absurd hp hc
  | _ => exact hp.elim

/-- The waits come from the calls. -/
theorem Move.wait {w : Wait} (h : Move t ch sh p p' sh') (hw : p'.wait = some w) :
    p.wait = some w ∨ (p = .idle ∧ ch.op = .consume w) := by
  cases h with
  | call =>
    refine .inr ⟨rfl, ?_⟩
    cases hop : ch.op <;> cases hv : sh.queue.isValid_ <;> rw [hop, hv] at hw <;> cases hw
    rfl
  | waitPasses | lastPasses =>
    rename_i v _
    left
    cases v with
    | mk consumer => cases consumer <;> exact hw
  | waitLock | waitFails | waitSleep | resume | spurious | timeout | timedOut => exact .inl hw
  | _ => cases hw

/-- A notification wakes somebody up, unless nobody waits. -/
theorem exists_woken {wake : Option T} (h : sh.notifyOne wake = some sh') :
    sh'.waiters = [] ∨ ∃ u ∈ sh.waiters, wake = some u ∧ u ∉ sh'.waiters := by
  rcases notifyOne_cases h with ⟨-, hw, rfl⟩ | ⟨u, hu, hwake, rfl⟩
  · exact .inl hw
  · exact .inr ⟨u, hu, hwake, by simp [Shared.wakeUp]⟩

theorem Wait.body_of_not_read {w : Wait} (h : ∀ timeout, w.consumer ≠ .readNext timeout) :
    w.body = .takeStore w := by
  cases w with
  | mk consumer =>
    cases consumer with
    | readNext timeout => exact absurd rfl (h timeout)
    | _ => rfl

/-- What becomes of a thread that attends to the waiters, while the count is positive: it goes on, or
it has woken one up, or it leaves without a notification. -/
theorem Move.attends (h : Move t ch sh p p' sh') (hg : Wakeful p sh ch)
    (hread : ∀ w timeout, p.wait = some w → w.consumer ≠ .readNext timeout)
    (hcount : sh.queue.count > 0) (hp : Attends t sh.waiters p) :
    Attends t sh'.waiters p' ∨ sh'.waiters = [] ∨
      (∃ u ∈ sh.waiters, u ∉ sh'.waiters ∧ ∀ w, p ≠ .blocked w) ∨ p.Closing := by
  rcases hp with hp | hp | hp
  · rcases h.signals hp with hs | rfl
    · exact .inl (.inl hs)
    · cases h with
      | sigNotify hn =>
        rcases exists_woken hn with hw | ⟨u, hu, -, hno⟩
        · exact .inr (.inl hw)
        · exact .inr (.inr (.inl ⟨u, hu, hno, fun _ => Pc.noConfusion⟩))
  · cases h with
    | resume | timedOut => exact .inl (.inr (.inr trivial))
    | spurious => exact .inl (.inr (.inl (by simp [Woken, Shared.wakeUp])))
    | timeout => exact .inl (.inr (.inl trivial))
    | _ => exact hp.elim
  · cases h with
    | waitPasses | lastPasses =>
      rw [Wait.body_of_not_read fun timeout => hread _ timeout rfl]
      exact .inl (.inr (.inr trivial))
    | waitFails hw | lastFails hw => exact absurd hcount (Wait.not_pos_of_fails hw)
    | takeStore => exact .inl (.inr (.inr trivial))
    | takeStoreFailed hkind hremove hst => exact absurd (hg.granted _ hkind _ _ hremove) hst
    | removeNext =>
      rename_i k
      exact .inl (.inr (.inr (by
        cases k with
        | answer ans => cases ans <;> first | exact trivial | exact hp.elim
        | loop => exact hp.elim)))
    | removeSub =>
      rename_i ans
      exact .inl (.inr (.inr (by cases ans <;> first | exact trivial | exact hp.elim)))
    | removeNotify _ hn =>
      rcases exists_woken hn with hw | ⟨u, hu, -, hno⟩
      · exact .inr (.inl hw)
      · exact .inr (.inr (.inl ⟨u, hu, hno, fun _ => Pc.noConfusion⟩))
    | removeSilent hc =>
      rename_i ans _
      exact .inr (.inr (.inr (by cases ans <;> first | exact hc | exact hp.elim)))
    | _ => exact hp.elim

/-- A thread starts to close only when it finds no further message. -/
theorem Move.closing (h : Move t ch sh p p' sh')
    (hmin : ∀ k, p = .removeSub k → sh.queue.count ≠ Int64.minValue) (hp : p'.Closing) :
    ¬ sh'.queue.count > 0 := by
  cases h with
  | waitFails hw => exact Wait.not_pos_of_fails hw
  | removeSub =>
    rename_i ans
    intro hpos
    have hc := one_lt_of_sub_one_pos hpos (hmin _ rfl)
    cases ans <;> first | exact hp hc | exact hp.elim
  | call => cases hop : ch.op <;> cases hv : sh.queue.isValid_ <;> rw [hop, hv] at hp <;> exact hp.elim
  | waitPasses | lastPasses =>
    rename_i w _
    cases w with
    | mk consumer => cases consumer <;> exact hp.elim
  | _ => exact hp.elim

/-! ## The invariant -/

/-- The invariant of the wakeups. -/
structure Wake (x : State T) : Prop extends Locks x where
  waiting : ∀ t ∈ x.shared.waiters, ∃ w, x.pc t = .blocked w
  unread : ∀ t w timeout, (x.pc t).wait = some w → w.consumer ≠ .readNext timeout
  attended : x.shared.queue.count > 0 → x.shared.waiters ≠ [] →
    ∃ t, Attends t x.shared.waiters (x.pc t)
  closing : ∀ t, (x.pc t).Closing → x.shared.queue.count > 0 → ∃ u, (x.pc u).Signals

variable {x y : State T} {l : Label T}

omit [DecidableEq T] in
theorem Wake.not_stuck (h : Wake x) : ¬ Stuck x := by
  intro hstuck
  obtain ⟨t, w, -, ht⟩ := hstuck.waiter
  obtain ⟨u, hs | hw | hc⟩ := h.attended hstuck.count (List.ne_nil_of_mem ht)
  · exact hstuck.signals u hs
  · exact hstuck.woken u hw
  · exact hstuck.consumes u hc

/-- Who is on the wait queue is inside the wait. -/
theorem Step.waiting (hs : Step x l y)
    (h : ∀ t ∈ x.shared.waiters, ∃ w, x.pc t = .blocked w) :
    ∀ t ∈ y.shared.waiters, ∃ w, y.pc t = .blocked w := by
  obtain ⟨p', hmove, hpc⟩ := hs.move
  intro u hu
  rw [hpc]
  rcases hmove.mem_waiters hu with ⟨hold, hmoved⟩ | ⟨rfl, w, -, hp'⟩
  · obtain ⟨w, hw⟩ := h u hold
    by_cases hne : u = l.thread
    · exact absurd (hne ▸ hw) (hmoved hne w)
    · exact ⟨w, by rw [Function.update_of_ne hne]; exact hw⟩
  · exact ⟨w, by rw [Function.update_self]; exact hp'⟩

/-- If a closing thread misses a message, the put has not signalled yet: it needs `takeLock` for that. -/
theorem Locks.closing (h : Locks x) (hs : Step x l y)
    (hmin : ∀ k, x.pc l.thread = .removeSub k → x.shared.queue.count ≠ Int64.minValue)
    (hclosing : ∀ t, (x.pc t).Closing → x.shared.queue.count > 0 → ∃ u, (x.pc u).Signals) :
    ∀ t, (y.pc t).Closing → y.shared.queue.count > 0 → ∃ u, (y.pc u).Signals := by
  obtain ⟨p', hmove, hpc⟩ := hs.move
  have hother : ∀ u, u ≠ l.thread → y.pc u = x.pc u := fun u hu => by
    rw [hpc, Function.update_of_ne hu]
  have hself : y.pc l.thread = p' := by rw [hpc, Function.update_self]
  intro u hclose hcount
  by_cases hne : u = l.thread
  · subst hne
    rw [hself] at hclose
    exact absurd hcount (hmove.closing hmin hclose)
  · rw [hother u hne] at hclose
    rcases hmove.count_pos hmin hcount with hpos | hnew
    swap
    · exact ⟨l.thread, by rw [hself]; exact hnew⟩
    obtain ⟨v, hv⟩ := hclosing u hclose hpos
    by_cases hvt : v = l.thread
    · -- the put cannot have notified, because `takeLock` is taken
      subst hvt
      rcases hmove.signals hv with hgoes | hnotify
      · exact ⟨l.thread, by rw [hself]; exact hgoes⟩
      · exact absurd (h.take.eq_of_holds hclose.holdsTake (by rw [hnotify]; exact trivial)) hne
    · exact ⟨v, by rw [hother v hvt]; exact hv⟩

/-- **Every step keeps the invariant.** -/
theorem Wake.step (h : Wake x) (hg : Wakeful (x.pc l.thread) x.shared l.choice) (hs : Step x l y) :
    Wake y := by
  obtain ⟨p', hmove, hpc⟩ := hs.move
  have hother : ∀ u, u ≠ l.thread → y.pc u = x.pc u := fun u hu => by
    rw [hpc, Function.update_of_ne hu]
  have hself : y.pc l.thread = p' := by rw [hpc, Function.update_self]
  -- a pending signal of another thread stays
  have hsignals : ∀ {p : Pc}, x.pc l.thread = p → ¬ p.Signals → (∃ u, (x.pc u).Signals) →
      ∃ u, (y.pc u).Signals := by
    rintro p hp hno ⟨u, hu⟩
    have hne : u ≠ l.thread := fun heq => hno (by rw [← hp, ← heq]; exact hu)
    exact ⟨u, by rw [hother u hne]; exact hu⟩
  refine { toLocks := h.toLocks.step hs, waiting := hs.waiting h.waiting, unread := ?_, attended := ?_,
           closing := h.toLocks.closing hs hg.underflow h.closing }
  · intro u w timeout hw
    by_cases hne : u = l.thread
    · subst hne
      rw [hself] at hw
      rcases hmove.wait hw with hold | ⟨hidle, hop⟩
      · exact h.unread _ w timeout hold
      · exact hg.readNext hidle w timeout hop
    · rw [hother u hne] at hw
      exact h.unread u w timeout hw
  · intro hcount hwaiters
    rcases hmove.count_pos hg.underflow hcount with hpos | hnew
    swap
    · exact ⟨l.thread, .inl (by rw [hself]; exact hnew)⟩
    have hclosing : (x.pc l.thread).Closing → ∃ t, Attends t y.shared.waiters (y.pc t) := by
      intro hclose
      obtain ⟨u, hu⟩ := hsignals rfl hclose.not_signals (h.closing _ hclose hpos)
      exact ⟨u, .inl hu⟩
    by_cases hold : x.shared.waiters = []
    · -- the first waiter went to sleep just now
      obtain ⟨u, hu⟩ := List.exists_mem_of_ne_nil _ hwaiters
      rcases hmove.mem_waiters hu with ⟨hmem, -⟩ | ⟨-, w, hsleep, -⟩
      · rw [hold] at hmem
        exact absurd hmem List.not_mem_nil
      · exact hclosing (by rw [hsleep]; exact trivial)
    obtain ⟨u, hu⟩ := h.attended hpos hold
    by_cases hne : u = l.thread
    · subst hne
      rcases hmove.attends hg (h.unread _) hpos hu with hgoes | hnil | ⟨v, hv, hno, hblocked⟩ | hclose
      · exact ⟨l.thread, by rw [hself]; exact hgoes⟩
      · exact absurd hnil hwaiters
      · -- the waiter that was notified attends from now on
        obtain ⟨w, hw⟩ := h.waiting v hv
        have hvne : v ≠ l.thread := fun heq => hblocked w (heq ▸ hw)
        exact ⟨v, .inr (.inl (by rw [hother v hvne, hw]; exact hno))⟩
      · exact hclosing hclose
    · refine ⟨u, ?_⟩
      rw [hother u hne]
      refine hu.imp id (Or.imp (fun hw => ?_) id)
      -- nobody but the moving thread becomes a waiter
      cases hp : x.pc u with
      | blocked w =>
        rw [hp] at hw
        intro hmem
        rcases hmove.mem_waiters hmem with ⟨hmem, -⟩ | ⟨heq, -⟩
        · exact hw hmem
        · exact hne heq
      | timedOut => exact trivial
      | _ => rw [hp] at hw; exact hw.elim

omit [DecidableEq T] in
theorem Wake.start (q : KueueImpl) (s : StoreImpl) : Wake (State.start T q s) where
  put _ := ⟨fun hno => (nomatch hno), fun hno => hno.elim⟩
  take _ := ⟨fun hno => (nomatch hno), fun hno => hno.elim⟩
  waiting _ hno := absurd hno List.not_mem_nil
  unread _ _ _ hno := nomatch hno
  attended _ hno := absurd rfl hno
  closing _ hno := hno.elim

/-- **No lost wakeup.** Whatever the threads do, with any number of messages in the queue at the start
and whatever `erase` is called with: no state is stuck. -/
theorem no_lost_wakeup {q : KueueImpl} {s : StoreImpl} {ls : List (Label T)}
    (hrun : Run (guarded (fun x l => Wakeful (x.pc l.thread) x.shared l.choice) Step)
      (State.start T q s) ls x) : ¬ Stuck x :=
  (hrun.invariant (fun _ _ _ h hst => h.step hst.1 hst.2) (Wake.start q s)).not_stuck

/-- The store call of a `put` or `take`, if the step makes one, reports Ok. -/
private def grantedCall (p : Pc) (sh : Shared Bool) (ch : Choice Bool) : Bool :=
  match p, sh.queue.queueKind with
  | .putStore state v key, some kind =>
      match sh.store.put ch.answers (some state) kind (some (putU64BE key)) v with
      | .ok (st, _) => decide (st = some Status.ok)
      | .error _ => true
  | .takeStore w, some kind =>
      match sh.store.singleRemoveIfPresent ch.answers (some w.state) kind w.valLen
        (some (putU64BE sh.queue.minKey)) with
      | .ok (r, _) => decide (r.status = some Status.ok)
      | .error _ => true
  | .readStore _, _ | .eraseStore _, _ | .clearStore _, _ => false
  | _, _ => true

private def wakeful (x : State Bool) (l : Label Bool) : Bool :=
  grantedCall (x.pc l.thread) x.shared l.choice &&
    decide (x.shared.queue.count ≠ Int64.minValue) &&
    match l.choice.op with
    | .consume w => decide (w.consumer = .take)
    | _ => true

private theorem wakeful_spec (x : State Bool) (l : Label Bool) (h : wakeful x l = true) :
    Wakeful (x.pc l.thread) x.shared l.choice := by
  simp only [wakeful, Bool.and_eq_true, decide_eq_true_eq] at h
  obtain ⟨⟨hgranted, hcount⟩, hop⟩ := h
  refine { readNext := fun _ w timeout hw hread => ?_, granted := fun kind hkind => ?_,
           underflow := fun _ _ => hcount }
  · rw [hw] at hop
    have htake : w.consumer = .take := of_decide_eq_true hop
    rw [hread] at htake
    cases htake
  · cases hp : x.pc l.thread with
    | putStore state v key =>
      intro st s hput
      simpa [grantedCall, hp, hkind, hput] using hgranted
    | takeStore w =>
      intro r s hremove
      simpa [grantedCall, hp, hkind, hremove] using hgranted
    | readStore | eraseStore | clearStore => simp [grantedCall, hp] at hgranted
    | _ => exact trivial

/-- A `take` has gone to sleep, and a put has stored a message and released its lock. -/
private def sleepPut : List (Label Bool) :=
  List.replicate 4 ⟨true, { op := .consume { consumer := .take } }⟩ ++
    List.replicate 6 ⟨false, { op := .put Status.ok [7] }⟩

private def sleptPut : State Bool :=
  (follow State.next wakeful (State.start Bool KueueImpl.created.1 KueueImpl.created.2) sleepPut).getD
    (State.start Bool {} KueueImpl.created.2)

theorem no_lost_wakeup_sleep_put :
    sleptPut.shared.queue.count = 1 ∧ sleptPut.shared.waiters = [true] ∧
      sleptPut.pc false = .sigLock ∧ ¬ Stuck sleptPut := by
  have hfollow : follow State.next wakeful (State.start Bool KueueImpl.created.1 KueueImpl.created.2)
      sleepPut = some sleptPut := rfl
  exact ⟨rfl, rfl, rfl, no_lost_wakeup (Run.guarded_of_follow wakeful_spec hfollow)⟩

/-- A `take` on a queue whose count is at its least value: nobody is notified. -/
private theorem take_at_least (sh : Shared Bool) {kd : KindImpl} {f : Fifo} (hfree : Free sh)
    (hv : kd.isValid = true) (hrep : KueueImpl.Rep kd (sh.queue, sh.store) f) (hne : f.msgs ≠ [])
    (hcount : sh.queue.count = Int64.minValue) :
    ∃ sh', Alone Smooth false sh sh' ∧ Leaves sh sh' sh.queue.removed sh'.store := by
  obtain ⟨db, hopen, hst⟩ := hrep.stored
  obtain ⟨m, rest, hm⟩ := List.exists_cons_of_ne_nil hne
  have hkind : sh.queue.queueKind = some (.impl kd) := hrep.kind
  have hkey : (db.data kd.handle).lookup (putU64BE sh.queue.minKey) = some m := by
    rw [show sh.queue.minKey = _ from hrep.minKey]
    exact hst.lookup_head hm
  obtain ⟨s', hremove⟩ := StoreImpl.singleRemoveIfPresent_faultless hopen
    StoreImpl.faultless_default hv Status.ok 0 hkey
  have htake : ∃ r', sh.queue.take {} (some Status.ok) (some 0) sh.store
      = .ok (r', sh.queue.removed, s') := by
    have hvalid : sh.queue.isValid_ = true := hrep.valid
    have hne0 : ¬ sh.queue.count = 0 := by rw [hcount]; decide
    simp only [KueueImpl.take, hvalid, if_true, if_neg hne0, KueueImpl.takeNow,
      KueueImpl.getKindRef, hkind, ok_bind, KueueImpl.localState, Option.getD_some, hremove]
    exact ⟨_, rfl⟩
  obtain ⟨r', htake⟩ := htake
  have hcall : ∀ {p : Pc} {sh₁ : Shared Bool}, (∀ state v', p ≠ .putNext state v') →
      Granted p sh₁ { op := .consume { consumer := .take } } →
      Smooth p sh₁ { op := .consume { consumer := .take } } := fun hput hgranted =>
    { maxKey := fun state v hp => absurd hp (hput state v), erase := fun _ _ => Op.noConfusion
      readNext := fun _ w timeout hw => by cases hw; exact Consumer.noConfusion
      faultless := StoreImpl.faultless_default, granted := hgranted }
  obtain ⟨sh', halone, hleaves⟩ := take_alone (t := false) (g := Smooth)
    (w := { consumer := .take }) { op := .consume { consumer := .take } } hfree
    (fun hgt => absurd hgt (by rw [hcount]; decide)) rfl rfl rfl
    (fun p sh₁ hp => hcall (fun _ _ heq => by subst heq; exact hp.elim) hp.granted)
    (hcall (fun _ _ => Pc.noConfusion) fun kind hkind' r₁ s₁ hrun => by
      obtain rfl := Option.some.inj (hkind.symm.trans hkind')
      obtain ⟨rfl, -⟩ := Prod.mk.inj (Except.ok.inj (hremove.symm.trans hrun))
      rfl) rfl htake
  refine ⟨sh', halone, ?_⟩
  rw [hleaves.store]
  exact hleaves

/-- `2 ^ 63` puts bring the count to its least value. -/
private theorem puts_to_least :
    ∃ (ls : List (Label Bool)) (sh : Shared Bool) (f : Fifo),
      Run (guarded (fun x l => Smooth (x.pc l.thread) x.shared l.choice) Step)
        (State.start Bool KueueImpl.created.1 KueueImpl.created.2) ls ⟨sh, fun _ => .idle⟩ ∧
      Free sh ∧ sh.waiters = [] ∧ KueueImpl.Rep KueueImpl.createdKind (sh.queue, sh.store) f ∧
      f.msgs ≠ [] ∧ sh.queue.count = Int64.minValue := by
  have hfree : Free (State.start Bool KueueImpl.created.1 KueueImpl.created.2).shared := ⟨rfl, rfl⟩
  obtain ⟨ls, sh, hrun, hfree', hwait, hrep⟩ := puts_smooth (t := false) hfree rfl rfl
    KueueImpl.created_rep [] (2 ^ 63) (by decide) (fun _ => .idle) rfl
  refine ⟨ls, sh, _, hrun, hfree', hwait, hrep, ?_, ?_⟩
  · rw [List.nil_append, ne_eq, List.replicate_eq_nil_iff]
    decide
  · rw [show sh.queue.count = _ from hrep.count, List.nil_append, List.length_replicate]
    decide

/-- After `2 ^ 63` puts the count is negative: a `take` with a timeout goes to sleep, and the next plain
`take` leaves a positive count and does not notify it. -/
theorem wakeup_lost :
    ∃ (ls : List (Label Bool)) (x : State Bool),
      Run (guarded (fun x l => Smooth (x.pc l.thread) x.shared l.choice) Step)
        (State.start Bool KueueImpl.created.1 KueueImpl.created.2) ls x ∧ Stuck x := by
  obtain ⟨ls₁, sh₁, f, hrun₁, hfree₁, hwait₁, hrep₁, hne, hcount⟩ := puts_to_least
  have hvalid : sh₁.queue.isValid_ = true := hrep₁.valid
  let w : Wait := { consumer := .takeTimed 0 }
  let sh₂ : Shared Bool := { entered true sh₁ with takeLock := none, waiters := [true] }
  let pc : Bool → Pc := Function.update (fun _ => .idle) true (.blocked w)
  have hsmooth : ∀ (p : Pc) (sh : Shared Bool), p.Passive → Smooth p sh { op := .consume w } :=
    fun p sh hp =>
      { maxKey := fun state v heq => by subst heq; exact hp.elim
        erase := fun _ _ => Op.noConfusion
        readNext := fun _ _ _ hw => by cases hw; exact Consumer.noConfusion
        faultless := StoreImpl.faultless_default, granted := hp.granted }
  have hsleep : Solo Smooth true (.idle, sh₁) (.blocked w, sh₂) := by
    refine test_alone { op := .consume w } hfree₁ hvalid rfl hsmooth ?_
    have hfails : w.passes (entered true sh₁).queue.count = false := by
      show decide (sh₁.queue.count > 0) = false
      rw [hcount]
      decide
    refine .step _ (hsmooth _ _ trivial) (by simp only [exec, hfails]; rfl) ?_
    refine .step _ (hsmooth _ _ trivial) ?_ (.refl _)
    simp [exec, entered, hwait₁, sh₂]
  obtain ⟨ls₂, hrun₂⟩ := hsleep.run fun _ => .idle
  obtain ⟨sh₃, htake, hleaves⟩ := take_at_least sh₂ ⟨hfree₁.putLock, rfl⟩ rfl hrep₁
    hne hcount
  obtain ⟨ls₃, hrun₃⟩ := htake.run (show pc false = .idle from rfl)
  rw [show Function.update (fun _ : Bool => Pc.idle) true .idle = fun _ => .idle from
    Function.update_eq_self _ _] at hrun₂
  refine ⟨ls₁ ++ (ls₂ ++ ls₃), ⟨sh₃, pc⟩, hrun₁.append (hrun₂.append hrun₃), ?_⟩
  have hwaiters : sh₃.waiters = [true] := hleaves.waiters
  refine { count := ?_, waiter := ⟨true, w, rfl, by rw [hwaiters]; decide⟩, signals := ?_,
           woken := ?_, consumes := ?_ }
  · show sh₃.queue.count > 0
    rw [hleaves.queue]
    show sh₁.queue.count - 1 > 0
    rw [hcount]
    decide
  · intro t
    cases t <;> exact id
  · intro t hno
    cases t with
    | false => exact hno
    | true => exact hno (by show true ∈ sh₃.waiters; rw [hwaiters]; decide)
  · intro t
    cases t <;> exact id

end Librocks.Threads
