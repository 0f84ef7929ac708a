import Librocks.Kueue.Wakeup

/-!
# Signals that are absorbed

A `readNext` takes no message, and neither does a `take` whose store call fails. When such a thread was
woken up by a `notify_one`, it has used up a signal that somebody else may need, and it passes none on:
only a `take` or an `erase` that removed a message evaluates `c > 1`.

`handed_on_iff`: the signal is handed on in every run in which no notified thread forsakes the blocked
ones, that is, reads or fails while there is neither a put with a signal to give nor another notified
waiter on its way to the lock. Each step that breaks this condition leads to a state in which the signal
is not handed on; `reader_absorbs` is a run that does.
-/

namespace Librocks.Threads

/-! ## Who owes a signal -/

/-- A `take` that removed a message and has not evaluated its `c > 1` yet. -/
def Pc.Finishing : Pc → Prop
  | .removeNext (.answer (.taken ..)) | .removeSub (.answer (.taken ..)) => True
  | .removeNotify (.taken ..) _ => True
  | _ => False

/-- A waiter that was woken up and has not finished. -/
def Unfinished {T : Type} (t : T) (waiters : List T) : Pc → Prop
  | .blocked _ => t ∉ waiters
  | .timedOut _ | .waitTest _ | .waitLast _ | .takeStore _ | .readStore _ => True
  | _ => False

/-- The answers that leave the messages where they are: those of `readNext`, of a `take` whose store call
failed, and timeouts. -/
def Answer.Leaves : Answer → Prop
  | .read .. | .timedOut => True
  | .taken _ r => r.status ≠ some Status.ok
  | .erased .. => False

/-- The thread notifies a waiter in its next step. -/
def Pc.notifies : Pc → Bool
  | .sigNotify => true
  | .removeNotify _ c => decide (c > 1)
  | _ => false

/-- The threads, and which of them were woken up by a `notify_one` since they began their call. -/
structure Watched (T : Type) where
  state : State T
  notified : T → Bool

namespace Watched

variable {T : Type}

/-- A thread that owes a signal to the threads that are blocked: a put between its `fetch_add` from zero
and its notification, a notified waiter that is not finished, or a `take` about to evaluate `c > 1`. -/
def Owes (x : Watched T) (t : T) : Prop :=
  (x.state.pc t).Signals ∨
    (x.notified t = true ∧ Unfinished t x.state.shared.waiters (x.state.pc t)) ∨
    (x.state.pc t).Finishing

/-- A thread other than `t` is blocked in the wait. -/
def OthersBlocked (x : Watched T) (t : T) : Prop :=
  ∃ u w, u ≠ t ∧ x.state.pc u = .blocked w ∧ u ∈ x.state.shared.waiters

/-- A thread that was notified and returns without having removed a message leaves somebody behind who
owes the signal, if there are messages and another thread is blocked. -/
def HandsOn (x : Watched T) : Prop :=
  ∀ t ans, x.state.pc t = .takeUnlock ans → ans.Leaves → x.notified t = true →
    x.state.shared.queue.count > 0 → x.OthersBlocked t → ∃ u, u ≠ t ∧ x.Owes u

/-- A `take` is blocked on a queue with messages, and nobody owes it a signal. -/
structure Deserted (x : Watched T) : Prop where
  count : x.state.shared.queue.count > 0
  taker : ∃ t w, x.state.pc t = .blocked w ∧ t ∈ x.state.shared.waiters ∧
    ∀ timeout, w.consumer ≠ .readNext timeout
  nobody : ∀ t, ¬ x.Owes t

variable [DecidableEq T]

/-- Who has been notified after a step. -/
def note (x : Watched T) (l : Label T) (t : T) : Bool :=
  if x.state.pc l.thread = .idle ∧ t = l.thread then false
  else if (x.state.pc l.thread).notifies = true ∧ l.choice.wake = some t then true
  else x.notified t

/-- A step of the threads. -/
def Step (x : Watched T) (l : Label T) (y : Watched T) : Prop :=
  Threads.Step x.state l y.state ∧ y.notified = x.note l

/-- A queue object that no thread uses yet. -/
def start (T : Type) (q : KueueImpl) (s : StoreImpl) : Watched T := ⟨State.start T q s, fun _ => false⟩

end Watched

/-- The step is the read of a `readNext`, or the store call of a `take` that fails. -/
def Forsakes {T : Type} (ch : Choice T) (sh : Shared T) : Pc → Prop
  | .readStore _ => True
  | .takeStore w => ∃ kind r store, sh.queue.queueKind = some kind ∧
      sh.store.singleRemoveIfPresent ch.answers (some w.state) kind w.valLen
        (some (putU64BE sh.queue.minKey)) = .ok (r, store) ∧ r.status ≠ some Status.ok
  | _ => False

/-- A notified thread that forsakes the blocked ones leaves them a put that has not signalled yet, or
another notified waiter that does not have the lock yet. -/
def Watched.Relieved {T : Type} (x : Watched T) (l : Label T) : Prop :=
  x.notified l.thread = true → Forsakes l.choice x.state.shared (x.state.pc l.thread) →
    x.state.shared.queue.count > 0 → x.OthersBlocked l.thread →
    ∃ u, u ≠ l.thread ∧ ((x.state.pc u).Signals ∨
      (x.notified u = true ∧ Woken u x.state.shared.waiters (x.state.pc u)))

/-- No `fetch_sub` takes the count below its least value. -/
def Watched.Bounded {T : Type} (x : Watched T) (l : Label T) : Prop :=
  ∀ k, x.state.pc l.thread = .removeSub k → x.state.shared.queue.count ≠ Int64.minValue

/-! ## Control points -/

namespace Pc

/-- The answer of a removal that is not finished. -/
def removed : Pc → Option Answer
  | .removeNext (.answer ans) | .removeSub (.answer ans) | .removeNotify ans _ => some ans
  | _ => none

theorem Finishing.holdsTake {p : Pc} (h : p.Finishing) : p.HoldsTake := by
  cases p <;> first | exact trivial | exact h.elim

theorem holdsTake_of_notifies {p : Pc} (h : p.notifies = true) : p.HoldsTake := by
  cases p <;> first | exact trivial | exact absurd h (by simp [notifies])

end Pc

theorem Woken.unfinished {T : Type} {t : T} {waiters : List T} {p : Pc} (h : Woken t waiters p) :
    Unfinished t waiters p := by
  cases p <;> first | exact h | exact trivial

/-- A waiter that was woken up either still waits for the lock or has it. -/
theorem Unfinished.woken_or_holdsTake {T : Type} {t : T} {waiters : List T} {p : Pc}
    (h : Unfinished t waiters p) : Woken t waiters p ∨ p.HoldsTake := by
  cases p <;> first | exact .inl h | exact .inr trivial

theorem Forsakes.holdsTake {T : Type} {ch : Choice T} {sh : Shared T} {p : Pc}
    (h : Forsakes ch sh p) : p.HoldsTake := by
  cases p <;> first | exact trivial | exact h

theorem Forsakes.not_notifies {T : Type} {ch : Choice T} {sh : Shared T} {p : Pc}
    (h : Forsakes ch sh p) : ¬ p.notifies = true := by
  cases p <;> first | exact Bool.noConfusion | exact h.elim

/-! ## One step -/

variable {T : Type} [DecidableEq T] {t u : T} {ch : Choice T} {sh sh' : Shared T} {p p' : Pc}

/-- A removal answers that a message was removed. -/
theorem Move.removed (h : Move t ch sh p p' sh') {ans : Answer} (hans : p'.removed = some ans) :
    p.removed = some ans ∨ ¬ ans.Leaves := by
  cases h with
  | takeStore _ _ hst =>
    cases hans
    exact .inr fun hleaves => hleaves hst
  | eraseStore =>
    cases hans
    exact .inr id
  | removeNext =>
    rename_i k
    cases k with
    | answer => exact .inl hans
    | loop => cases hans
  | removeSub => exact .inl hans
  | call => cases hop : ch.op <;> cases hv : sh.queue.isValid_ <;> rw [hop, hv] at hans <;> cases hans
  | waitPasses | lastPasses =>
    rename_i w _
    cases w with
    | mk consumer => cases consumer <;> cases hans
  | _ => cases hans

/-- A thread that is about to return without a message has timed out on an empty queue or has just
forsaken the others. -/
theorem Move.leaves (h : Move t ch sh p p' sh') {ans : Answer} (hp' : p' = .takeUnlock ans)
    (hans : ans.Leaves) (hremoved : ∀ ans, p.removed = some ans → ¬ ans.Leaves) :
    sh'.queue = sh.queue ∧ sh'.waiters = sh.waiters ∧
      (¬ sh.queue.count > 0 ∨ Forsakes ch sh p) := by
  cases h with
  | lastFails hw => exact ⟨rfl, rfl, .inl (Wait.not_pos_of_fails hw)⟩
  | takeStoreFailed hkind hremove hst => exact ⟨rfl, rfl, .inr ⟨_, _, _, hkind, hremove, hst⟩⟩
  | readStore => exact ⟨rfl, rfl, .inr trivial⟩
  | eraseLate | eraseStoreFailed =>
    cases hp'
    exact hans.elim
  | removeNotify | removeSilent =>
    cases hp'
    exact absurd hans (hremoved _ rfl)
  | call => cases hop : ch.op <;> cases hv : sh.queue.isValid_ <;> rw [hop, hv] at hp' <;> cases hp'
  | waitPasses | lastPasses =>
    rename_i w _
    cases w with
    | mk consumer => cases consumer <;> cases hp'
  | _ => cases hp'

/-- A thread that forsakes the others is about to return. -/
theorem Move.of_forsakes (h : Move t ch sh p p' sh') (hp : Forsakes ch sh p) :
    sh'.queue = sh.queue ∧ sh'.waiters = sh.waiters ∧
      ∃ ans, p' = .takeUnlock ans ∧ ans.Leaves := by
  cases h with
  | takeStore hkind hremove hst =>
    obtain ⟨kind, r, store, hkind', hremove', hno⟩ := hp
    obtain rfl := Option.some.inj (hkind.symm.trans hkind')
    obtain ⟨rfl, -⟩ := Prod.mk.inj (Except.ok.inj (hremove.symm.trans hremove'))
    exact absurd hst hno
  | takeStoreFailed _ _ hst => exact ⟨rfl, rfl, _, rfl, hst⟩
  | readStore => exact ⟨rfl, rfl, _, rfl, trivial⟩
  | _ => exact hp.elim

/-- A waiter that was woken up finds the message and takes it, or forsakes the others. -/
theorem Move.unfinished (h : Move t ch sh p p' sh') (hcount : sh.queue.count > 0)
    (hp : Unfinished t sh.waiters p) :
    Unfinished t sh'.waiters p' ∨ p'.Finishing ∨ Forsakes ch sh p := by
  cases h with
  | resume | timeout | timedOut => exact .inl trivial
  | spurious => exact .inl (by simp [Unfinished, Shared.wakeUp])
  | waitPasses | lastPasses =>
    rename_i w _
    cases w with
    | mk consumer => cases consumer <;> exact .inl trivial
  | waitFails hw | lastFails hw => exact absurd hcount (Wait.not_pos_of_fails hw)
  | takeStore => exact .inr (.inl trivial)
  | takeStoreFailed hkind hremove hst => exact .inr (.inr ⟨_, _, _, hkind, hremove, hst⟩)
  | readStore => exact .inr (.inr trivial)
  | _ => exact hp.elim

/-- A `take` that removed a message notifies a waiter or finds no further message. -/
theorem Move.finishing (h : Move t ch sh p p' sh') (hp : p.Finishing) :
    p'.Finishing ∨ p.notifies = true ∨ p.Closing := by
  cases h with
  | removeNext =>
    rename_i k
    cases k with
    | answer ans => cases ans <;> first | exact .inl trivial | exact hp.elim
    | loop => exact hp.elim
  | removeSub =>
    rename_i ans
    cases ans <;> first | exact .inl trivial | exact hp.elim
  | removeNotify hc => exact .inr (.inl (decide_eq_true hc))
  | removeSilent hc =>
    rename_i ans _
    cases ans <;> first | exact .inr (.inr hc) | exact hp.elim
  | _ => exact hp.elim

/-- A notification wakes up the thread it names, unless nobody waits. -/
theorem Move.notifies (h : Move t ch sh p p' sh') (hp : p.notifies = true) :
    sh'.waiters = [] ∨ ∃ u ∈ sh.waiters, ch.wake = some u ∧ u ∉ sh'.waiters := by
  cases h with
  | sigNotify hn | removeNotify _ hn => exact exists_woken hn
  | removeSilent hc => exact absurd (of_decide_eq_true hp) hc
  | _ => exact absurd hp (by simp [Pc.notifies])

namespace Watched

variable {x y : Watched T} {l : Label T}

/-- A notification is forgotten only when the thread begins its next call. -/
theorem note_eq_true (hidle : t = l.thread → x.state.pc l.thread ≠ .idle) (h : x.notified t = true) :
    x.note l t = true := by
  unfold note
  split_ifs with hbegin hwake
  · exact absurd hbegin.1 (hidle hbegin.2)
  · rfl
  · exact h

/-- Only a notification makes a thread notified. -/
theorem notified_of_note (hno : ¬ (x.state.pc l.thread).notifies = true) (h : x.note l t = true) :
    x.notified t = true := by
  unfold note at h
  split_ifs at h with hbegin hwake
  · exact absurd hwake.1 hno
  · exact h

theorem Step.pc_of_ne (hs : x.Step l y) (hu : u ≠ l.thread) : y.state.pc u = x.state.pc u := by
  obtain ⟨p', -, hpc⟩ := hs.1.move
  rw [hpc, Function.update_of_ne hu]

/-- Nobody but the moving thread begins to wait. -/
theorem Step.unfinished_of_ne (hs : x.Step l y) (hu : u ≠ l.thread)
    (h : Unfinished u x.state.shared.waiters (x.state.pc u)) :
    Unfinished u y.state.shared.waiters (y.state.pc u) := by
  obtain ⟨p', hmove, -⟩ := hs.1.move
  rw [hs.pc_of_ne hu]
  cases hp : x.state.pc u with
  | blocked w =>
    rw [hp] at h
    intro hmem
    rcases hmove.mem_waiters hmem with ⟨hmem, -⟩ | ⟨heq, -⟩
    · exact h hmem
    · exact hu heq
  | _ =>
    rw [hp] at h
    exact h

/-- The others owe what they owed. -/
theorem Step.owes_of_ne (hs : x.Step l y) (hu : u ≠ l.thread) (h : x.Owes u) : y.Owes u := by
  rcases h with hsig | ⟨hnoted, hun⟩ | hfin
  · exact .inl (by rw [hs.pc_of_ne hu]; exact hsig)
  · refine .inr (.inl ⟨?_, hs.unfinished_of_ne hu hun⟩)
    rw [hs.2]
    exact note_eq_true (fun heq => absurd heq hu) hnoted
  · exact .inr (.inr (by rw [hs.pc_of_ne hu]; exact hfin))

/-- What becomes of the signal that the moving thread owes. -/
theorem Step.owes_self (hs : x.Step l y) (hcount : x.state.shared.queue.count > 0)
    (h : x.Owes l.thread) :
    y.Owes l.thread ∨ (x.state.pc l.thread).notifies = true ∨ (x.state.pc l.thread).Closing ∨
      (x.notified l.thread = true ∧
        Forsakes l.choice x.state.shared (x.state.pc l.thread)) := by
  obtain ⟨p', hmove, hpc⟩ := hs.1.move
  have hself : y.state.pc l.thread = p' := by rw [hpc, Function.update_self]
  rcases h with hsig | ⟨hnoted, hun⟩ | hfin
  · rcases hmove.signals hsig with hsig' | hnotify
    · exact .inl (.inl (by rw [hself]; exact hsig'))
    · exact .inr (.inl (by rw [hnotify]; rfl))
  · have hidle : x.state.pc l.thread ≠ .idle := by
      intro hidle
      rw [hidle] at hun
      exact hun
    have hnoted' : y.notified l.thread = true := by
      rw [hs.2]
      exact note_eq_true (fun _ => hidle) hnoted
    rcases hmove.unfinished hcount hun with hun' | hfin' | hforsakes
    · exact .inl (.inr (.inl ⟨hnoted', by rw [hself]; exact hun'⟩))
    · exact .inl (.inr (.inr (by rw [hself]; exact hfin')))
    · exact .inr (.inr (.inr ⟨hnoted, hforsakes⟩))
  · rcases hmove.finishing hfin with hfin' | hnotify | hclose
    · exact .inl (.inr (.inr (by rw [hself]; exact hfin')))
    · exact .inr (.inl hnotify)
    · exact .inr (.inr (.inl hclose))

omit [DecidableEq T] in
/-- The help that `Relieved` asks for is owed. -/
theorem Owes.of_relief (h : (x.state.pc u).Signals ∨
    (x.notified u = true ∧ Woken u x.state.shared.waiters (x.state.pc u))) : x.Owes u :=
  h.imp id fun hw => .inl ⟨hw.1, hw.2.unfinished⟩

omit [DecidableEq T] in
/-- While a thread holds `takeLock`, nobody else can owe a signal in another way. -/
theorem Owes.relief (h : x.Owes u) (hno : ¬ (x.state.pc u).HoldsTake) :
    (x.state.pc u).Signals ∨
      (x.notified u = true ∧ Woken u x.state.shared.waiters (x.state.pc u)) := by
  rcases h with hsig | ⟨hnoted, hun⟩ | hfin
  · exact .inl hsig
  · exact .inr ⟨hnoted, hun.woken_or_holdsTake.resolve_right hno⟩
  · exact absurd hfin.holdsTake hno

/-! ## The invariant -/

/-- The invariant that hands the signals on. -/
structure Handed (x : Watched T) : Prop extends Locks x.state where
  waiting : ∀ t ∈ x.state.shared.waiters, ∃ w, x.state.pc t = .blocked w
  removed : ∀ t ans, (x.state.pc t).removed = some ans → ¬ ans.Leaves
  handsOn : x.HandsOn

/-- While a thread is about to return, it holds `takeLock`, and nobody else goes to sleep, notifies
or uses a signal up. -/
theorem Handed.handsOn_of_ne (h : Handed x) (hs : x.Step l y) (ht : t ≠ l.thread) {ans : Answer}
    (hpc : x.state.pc t = .takeUnlock ans) (hans : ans.Leaves) (hnoted : y.notified t = true)
    (hcount : y.state.shared.queue.count > 0) (hblocked : y.OthersBlocked t) :
    ∃ u, u ≠ t ∧ y.Owes u := by
  obtain ⟨p', hmove, hpc'⟩ := hs.1.move
  have hself : y.state.pc l.thread = p' := by rw [hpc', Function.update_self]
  have htake : (x.state.pc t).HoldsTake := by
    rw [hpc]
    exact trivial
  have hfree : ¬ (x.state.pc l.thread).HoldsTake := fun hp => ht (h.take.eq_of_holds htake hp)
  have hmin : ∀ k, x.state.pc l.thread = .removeSub k →
      x.state.shared.queue.count ≠ Int64.minValue := by
    intro k hk
    rw [hk] at hfree
    exact absurd trivial hfree
  rcases hmove.count_pos hmin hcount with hpos | hnew
  swap
  · exact ⟨l.thread, ht.symm, .inl (by rw [hself]; exact hnew)⟩
  have hold : x.notified t = true := by
    refine notified_of_note (fun hn => hfree (Pc.holdsTake_of_notifies hn)) ?_
    rw [← hs.2]
    exact hnoted
  obtain ⟨v, w, hvt, hv, hmem⟩ := hblocked
  have hbefore : x.OthersBlocked t := by
    rcases hmove.mem_waiters hmem with ⟨hmem', hmoved⟩ | ⟨-, w', hsleep, -⟩
    · by_cases hne : v = l.thread
      · obtain ⟨w', hw'⟩ := h.waiting v hmem'
        exact absurd (hne ▸ hw') (hmoved hne w')
      · exact ⟨v, w, hvt, by rw [← hs.pc_of_ne hne]; exact hv, hmem'⟩
    · rw [hsleep] at hfree
      exact absurd trivial hfree
  obtain ⟨u, hut, hu⟩ := h.handsOn t ans hpc hans hold hpos hbefore
  refine ⟨u, hut, ?_⟩
  by_cases hne : u = l.thread
  · subst hne
    rcases hs.owes_self hpos hu with howes | hnotify | hclose | ⟨-, hforsakes⟩
    · exact howes
    · exact absurd (Pc.holdsTake_of_notifies hnotify) hfree
    · exact absurd hclose.holdsTake hfree
    · exact absurd hforsakes.holdsTake hfree
  · exact hs.owes_of_ne hne hu

/-- **A step that meets the condition keeps the invariant.** -/
theorem Handed.step (h : Handed x) (hg : x.Relieved l) (hs : x.Step l y) : Handed y := by
  obtain ⟨p', hmove, hpc⟩ := hs.1.move
  have hself : y.state.pc l.thread = p' := by rw [hpc, Function.update_self]
  refine { toLocks := h.toLocks.step hs.1, waiting := hs.1.waiting h.waiting, removed := ?_,
           handsOn := ?_ }
  · intro t ans hans
    by_cases hne : t = l.thread
    · subst hne
      rw [hself] at hans
      exact (hmove.removed hans).elim (h.removed _ ans) id
    · rw [hs.pc_of_ne hne] at hans
      exact h.removed t ans hans
  · intro t ans hpct hans hnoted hcount hblocked
    by_cases hne : t = l.thread
    swap
    · rw [hs.pc_of_ne hne] at hpct
      exact h.handsOn_of_ne hs hne hpct hans hnoted hcount hblocked
    -- the thread has come to its return just now
    subst hne
    rw [hself] at hpct
    obtain ⟨hqueue, hwaiters, hempty | hforsakes⟩ := hmove.leaves hpct hans (h.removed _)
    · rw [hqueue] at hcount
      exact absurd hcount hempty
    have hnoted' : x.notified l.thread = true := by
      refine notified_of_note (fun hn => ?_) (hs.2 ▸ hnoted)
      exact hforsakes.not_notifies hn
    obtain ⟨v, w, hvt, hv, hmem⟩ := hblocked
    rw [hs.pc_of_ne hvt] at hv
    rw [hwaiters] at hmem
    rw [hqueue] at hcount
    obtain ⟨u, hut, hu⟩ := hg hnoted' hforsakes hcount ⟨v, w, hvt, hv, hmem⟩
    exact ⟨u, hut, hs.owes_of_ne hut (.of_relief hu)⟩

/-- **A step that breaks the condition hands the signal on to nobody.** -/
theorem Handed.not_handsOn (h : Handed x) (hs : x.Step l y) (hg : ¬ x.Relieved l) : ¬ y.HandsOn := by
  obtain ⟨p', hmove, hpc⟩ := hs.1.move
  have hself : y.state.pc l.thread = p' := by rw [hpc, Function.update_self]
  unfold Relieved at hg
  push Not at hg
  obtain ⟨hnoted, hforsakes, hcount, ⟨v, w, hvt, hv, hmem⟩, hnobody⟩ := hg
  obtain ⟨hqueue, hwaiters, ans, hp', hans⟩ := hmove.of_forsakes hforsakes
  intro hhands
  have hidle : x.state.pc l.thread ≠ .idle := by
    intro hidle
    rw [hidle] at hforsakes
    exact hforsakes
  obtain ⟨u, hut, hu⟩ := hhands l.thread ans (hself.trans hp') hans
    (by rw [hs.2]; exact note_eq_true (fun _ => hidle) hnoted) (by rw [hqueue]; exact hcount)
    ⟨v, w, hvt, by rw [hs.pc_of_ne hvt]; exact hv, by rw [hwaiters]; exact hmem⟩
  have hfree : ¬ (y.state.pc u).HoldsTake := by
    rw [hs.pc_of_ne hut]
    exact fun hp => hut (h.take.eq_of_holds hp hforsakes.holdsTake)
  have hrelief := hu.relief hfree
  rw [hs.pc_of_ne hut, hwaiters] at hrelief
  obtain ⟨hsig, hwoken⟩ := hnobody u hut
  rcases hrelief with hsig' | ⟨hnoted', hwoken'⟩
  · exact hsig hsig'
  · refine hwoken (notified_of_note (fun hn => hforsakes.not_notifies hn) ?_) hwoken'
    rw [← hs.2]
    exact hnoted'

/-- The invariant that leaves nobody deserted. -/
structure Tended (x : Watched T) : Prop extends Handed x where
  attended : x.state.shared.queue.count > 0 → x.state.shared.waiters ≠ [] → ∃ t, x.Owes t
  closing : ∀ t, (x.state.pc t).Closing → x.state.shared.queue.count > 0 →
    ∃ u, (x.state.pc u).Signals

omit [DecidableEq T] in
theorem Tended.not_deserted (h : Tended x) : ¬ x.Deserted := by
  intro hdes
  obtain ⟨t, w, -, ht, -⟩ := hdes.taker
  obtain ⟨u, hu⟩ := h.attended hdes.count (List.ne_nil_of_mem ht)
  exact hdes.nobody u hu

/-- The thread that a notification names owes the signal from now on. -/
theorem Handed.owes_of_notifies (h : Handed x) (hs : x.Step l y)
    (hn : (x.state.pc l.thread).notifies = true) :
    y.state.shared.waiters = [] ∨ ∃ u, y.Owes u := by
  obtain ⟨p', hmove, -⟩ := hs.1.move
  rcases hmove.notifies hn with hnil | ⟨v, hv, hwake, hno⟩
  · exact .inl hnil
  obtain ⟨w, hw⟩ := h.waiting v hv
  have hvne : v ≠ l.thread := by
    intro heq
    rw [← heq, hw] at hn
    exact Bool.noConfusion hn
  have hnoted : x.note l v = true := by
    unfold note
    rw [if_neg fun hbegin => hvne hbegin.2, if_pos ⟨hn, hwake⟩]
  refine .inr ⟨v, .inr (.inl ⟨by rw [hs.2]; exact hnoted, ?_⟩)⟩
  rw [hs.pc_of_ne hvne, hw]
  exact hno

/-- **A step that meets the conditions deserts nobody.** -/
theorem Tended.step (h : Tended x) (hg : x.Relieved l) (hb : x.Bounded l) (hs : x.Step l y) :
    Tended y := by
  obtain ⟨p', hmove, hpc⟩ := hs.1.move
  have hself : y.state.pc l.thread = p' := by rw [hpc, Function.update_self]
  refine { toHanded := h.toHanded.step hg hs, attended := ?_,
           closing := h.toLocks.closing hs.1 hb h.closing }
  intro hcount hwaiters
  rcases hmove.count_pos hb hcount with hpos | hnew
  swap
  · exact ⟨l.thread, .inl (by rw [hself]; exact hnew)⟩
  have hclosing : (x.state.pc l.thread).Closing → ∃ t, y.Owes t := by
    intro hclose
    obtain ⟨u, hu⟩ := h.closing _ hclose hpos
    have hne : u ≠ l.thread := by
      intro heq
      rw [heq] at hu
      exact hclose.not_signals hu
    exact ⟨u, hs.owes_of_ne hne (.inl hu)⟩
  obtain ⟨v, hv⟩ := List.exists_mem_of_ne_nil _ hwaiters
  rcases hmove.mem_waiters hv with ⟨hmem, hmoved⟩ | ⟨-, w, hsleep, -⟩
  swap
  · exact hclosing (by rw [hsleep]; exact trivial)
  obtain ⟨u, hu⟩ := h.attended hpos (List.ne_nil_of_mem hmem)
  by_cases hne : u = l.thread
  swap
  · exact ⟨u, hs.owes_of_ne hne hu⟩
  subst hne
  rcases hs.owes_self hpos hu with howes | hnotify | hclose | ⟨hnoted, hforsakes⟩
  · exact ⟨l.thread, howes⟩
  · exact (h.toHanded.owes_of_notifies hs hnotify).resolve_left hwaiters
  · exact hclosing hclose
  · obtain ⟨w, hw⟩ := h.waiting v hmem
    have hvne : v ≠ l.thread := fun heq => hmoved heq w (heq ▸ hw)
    obtain ⟨u, hut, hu⟩ := hg hnoted hforsakes hpos ⟨v, w, hvne, hw, hmem⟩
    exact ⟨u, hs.owes_of_ne hut (.of_relief hu)⟩

omit [DecidableEq T] in
theorem Tended.start (q : KueueImpl) (s : StoreImpl) : Tended (start T q s) where
  put _ := ⟨fun hno => absurd hno (by simp [Watched.start, State.start]), fun hno => hno.elim⟩
  take _ := ⟨fun hno => absurd hno (by simp [Watched.start, State.start]), fun hno => hno.elim⟩
  waiting _ hno := absurd hno List.not_mem_nil
  removed _ _ hno := absurd hno (by simp [Watched.start, State.start, Pc.removed])
  handsOn _ _ hno := Pc.noConfusion hno
  attended _ hno := absurd rfl hno
  closing _ hno := hno.elim

/-- **The signal is handed on, unless a notified thread forsakes the others.** The condition is about the
state before the store call. It is exact: a step keeps the property if and only if it meets it. As long as
no `fetch_sub` takes the count below its least value, nobody is deserted either. -/
theorem handed_on_iff {q : KueueImpl} {s : StoreImpl} {ls : List (Label T)}
    (hrun : Run (guarded Relieved Step) (start T q s) ls x) :
    x.HandsOn ∧ (∀ l y, x.Step l y → (y.HandsOn ↔ x.Relieved l)) ∧
      (Run (guarded (fun x l => x.Relieved l ∧ x.Bounded l) Step) (start T q s) ls x →
        ¬ x.Deserted) := by
  have hinv : Handed x :=
    hrun.invariant (fun _ _ _ h hst => h.step hst.1 hst.2) (Tended.start q s).toHanded
  refine ⟨hinv.handsOn, fun l y hs => ⟨fun hhands => ?_, fun hg => (hinv.step hg hs).handsOn⟩,
    fun hbounded => ?_⟩
  · by_contra hg
    exact hinv.not_handsOn hs hg hhands
  · have htended : Tended x :=
      hbounded.invariant (fun _ _ _ h hst => h.step hst.1.1 hst.1.2 hst.2) (Tended.start q s)
    exact htended.not_deserted

/-- The state after a step, if the thread can take it. -/
def next (x : Watched T) (l : Label T) : Option (Watched T) :=
  (x.state.next l).map fun y => ⟨y, x.note l⟩

theorem step_of_next (h : x.next l = some y) : x.Step l y := by
  obtain ⟨z, hz, rfl⟩ := Option.map_eq_some_iff.mp h
  exact ⟨hz, rfl⟩

/-- Nobody waits, or the step is no store call of a consumer. -/
private def unforsaken (x : Watched T) (l : Label T) : Bool :=
  decide (x.state.shared.waiters = []) ||
    match x.state.pc l.thread with
    | .readStore _ | .takeStore _ => false
    | _ => true

omit [DecidableEq T] in
private theorem unforsaken_spec (h : unforsaken x l = true) : x.Relieved l := by
  intro _ hforsakes _ hblocked
  obtain ⟨v, w, -, -, hmem⟩ := hblocked
  simp only [unforsaken, Bool.or_eq_true, decide_eq_true_eq] at h
  rcases h with hnil | hpc
  · rw [hnil] at hmem
    exact absurd hmem List.not_mem_nil
  · cases hp : x.state.pc l.thread with
    | readStore | takeStore => simp [hp] at hpc
    | _ =>
      rw [hp] at hforsakes
      exact hforsakes.elim

/-- A reader goes to sleep, a put stores a message and notifies it, and the reader reads. -/
private def wokenRead : List (Label Bool) :=
  List.replicate 4 ⟨true, { op := .consume { consumer := .readNext 0 } }⟩ ++
    List.replicate 9 ⟨false, { op := .put Status.ok [7], wake := some true }⟩ ++
    List.replicate 3 ⟨true, {}⟩

private def readWoken : Watched Bool :=
  (follow next unforsaken (start Bool KueueImpl.created.1 KueueImpl.created.2) wokenRead).getD
    (start Bool {} KueueImpl.created.2)

theorem handed_on_iff_woken_read :
    readWoken.notified true = true ∧ readWoken.state.shared.queue.count = 1 ∧
      (∃ r, readWoken.state.pc true = .takeUnlock (.read 0 r)) ∧ readWoken.HandsOn := by
  have hfollow : follow next unforsaken (start Bool KueueImpl.created.1 KueueImpl.created.2) wokenRead
      = some readWoken := rfl
  exact ⟨rfl, rfl, ⟨_, rfl⟩, (handed_on_iff (.of_follow
    (fun _ _ _ hok hnext => ⟨unforsaken_spec hok, step_of_next hnext⟩) hfollow)).1⟩

/-- A reader and a `take` sleep, the put notifies the reader, and the reader reads. -/
private def absorbed : List (Label (Fin 3)) :=
  List.replicate 4 ⟨0, { op := .consume { consumer := .readNext 0 } }⟩ ++
    List.replicate 4 ⟨1, { op := .consume { consumer := .take } }⟩ ++
    List.replicate 9 ⟨2, { op := .put Status.ok [7], wake := some 0 }⟩ ++
    List.replicate 3 ⟨0, {}⟩

private def absorbing : Watched (Fin 3) :=
  (follow next (fun _ _ => true) (start (Fin 3) KueueImpl.created.1 KueueImpl.created.2)
    absorbed).getD (start (Fin 3) {} KueueImpl.created.2)

private def readerGone : Watched (Fin 3) := (absorbing.next ⟨0, {}⟩).getD absorbing

/-- When a reader absorbs the only signal, the `take` that sleeps beside it is deserted. -/
theorem reader_absorbs :
    ∃ (ls : List (Label (Fin 3))) (x y : Watched (Fin 3)) (l : Label (Fin 3)),
      Run Step (start (Fin 3) KueueImpl.created.1 KueueImpl.created.2) ls x ∧ x.Step l y ∧
        ¬ x.HandsOn ∧ y.state.pc l.thread = .idle ∧ y.Deserted := by
  have hfollow : follow next (fun _ _ => true)
      (start (Fin 3) KueueImpl.created.1 KueueImpl.created.2) absorbed = some absorbing := rfl
  have hrun : Run Step (start (Fin 3) KueueImpl.created.1 KueueImpl.created.2) absorbed absorbing :=
    .of_follow (fun x l y _ hnext => (step_of_next hnext : x.Step l y)) hfollow
  have hstep : absorbing.next ⟨0, {}⟩ = some readerGone := rfl
  refine ⟨absorbed, absorbing, readerGone, ⟨0, {}⟩, hrun, step_of_next hstep, ?_, rfl, ?_⟩
  · intro hhands
    obtain ⟨u, hu, howes⟩ := hhands 0 _ rfl trivial rfl (by decide)
      ⟨1, { consumer := .take }, by decide, rfl, List.mem_singleton.mpr rfl⟩
    fin_cases u
    · exact hu rfl
    · rcases howes with hno | ⟨-, hno⟩ | hno
      · exact hno
      · exact hno (List.mem_singleton.mpr rfl)
      · exact hno
    · rcases howes with hno | ⟨-, hno⟩ | hno <;> exact hno
  · refine { count := by decide, taker := ⟨1, { consumer := .take }, rfl, List.mem_singleton.mpr rfl,
               fun _ => Consumer.noConfusion⟩, nobody := fun u howes => ?_ }
    fin_cases u
    · rcases howes with hno | ⟨-, hno⟩ | hno <;> exact hno
    · rcases howes with hno | ⟨-, hno⟩ | hno
      · exact hno
      · exact hno (List.mem_singleton.mpr rfl)
      · exact hno
    · rcases howes with hno | ⟨-, hno⟩ | hno <;> exact hno

end Watched

end Librocks.Threads
