import Librocks.Kueue.Construct
import Librocks.Kueue.Counting

/-!
# A thread alone

While no other thread moves, the steps of a call add up to the method of `KueueImpl` that a single
thread runs. `Alone g t sh sh'` says that the thread `t` makes one call that takes the shared state from
`sh` to `sh'`; `put_alone` and its companions show that the queue object and the store end up as the
sequential model computes them, and `Alone.run` places such a call into the interleavings.
-/

namespace Librocks.Threads

open Rocks

variable {T : Type} [DecidableEq T]

/-- A condition on steps that looks only at the thread that moves. -/
abbrev Local (T : Type) := Pc → Shared T → Choice T → Prop

/-- Steps of the thread `t` that meet the condition `g`. -/
def Solo (g : Local T) (t : T) (x y : Pc × Shared T) : Prop :=
  ∃ chs, Run (guarded (fun x ch => g x.1 x.2 ch) fun x ch y => exec t ch x.2 x.1 = some y) x chs y

/-- The thread `t` makes one call. -/
def Alone (g : Local T) (t : T) (sh sh' : Shared T) : Prop := Solo g t (.idle, sh) (.idle, sh')

variable {g : Local T} {t : T} {sh : Shared T} {x y z : Pc × Shared T}

theorem Solo.refl (x : Pc × Shared T) : Solo g t x x := ⟨[], .nil x⟩

theorem Solo.step (ch : Choice T) (hg : g x.1 x.2 ch) (h : exec t ch x.2 x.1 = some y)
    (hrest : Solo g t y z) : Solo g t x z := by
  obtain ⟨chs, hrun⟩ := hrest
  exact ⟨ch :: chs, .cons ⟨hg, h⟩ hrun⟩

theorem Solo.trans (h₁ : Solo g t x y) (h₂ : Solo g t y z) : Solo g t x z := by
  obtain ⟨chs₁, hrun₁⟩ := h₁
  obtain ⟨chs₂, hrun₂⟩ := h₂
  exact ⟨chs₁ ++ chs₂, hrun₁.append hrun₂⟩

/-- Steps of one thread are steps of the system. -/
theorem Solo.run (h : Solo g t x y) (pc : T → Pc) :
    ∃ ls, Run (guarded (fun x l => g (x.pc l.thread) x.shared l.choice) Step)
      ⟨x.2, Function.update pc t x.1⟩ ls ⟨y.2, Function.update pc t y.1⟩ := by
  obtain ⟨chs, hrun⟩ := h
  refine ⟨chs.map (Label.mk t), ?_⟩
  induction hrun with
  | nil => exact .nil _
  | cons hstep _ ih =>
    obtain ⟨hg, hexec⟩ := hstep
    refine .cons ⟨?_, ?_⟩ ih
    · simpa using hg
    · simp [Step, State.next, hexec]

theorem Alone.run {sh' : Shared T} (h : Alone g t sh sh') {pc : T → Pc} (hpc : pc t = .idle) :
    ∃ ls, Run (guarded (fun x l => g (x.pc l.thread) x.shared l.choice) Step)
      ⟨sh, pc⟩ ls ⟨sh', pc⟩ := by
  have hsame : Function.update pc t .idle = pc := by rw [← hpc, Function.update_eq_self]
  obtain ⟨ls, hrun⟩ := Solo.run h pc
  rw [hsame] at hrun
  exact ⟨ls, hrun⟩

/-- No lock is held. -/
structure Free (sh : Shared T) : Prop where
  putLock : sh.putLock = none
  takeLock : sh.takeLock = none

/-- A call left the locks free, the wait queue as it was, and the queue object and the store as told. -/
structure Leaves (sh sh' : Shared T) (q : KueueImpl) (s : StoreImpl) : Prop extends Free sh' where
  waiters : sh'.waiters = sh.waiters
  queue : sh'.queue = q
  store : sh'.store = s

omit [DecidableEq T] in
/-- Only the wait queue is compared with the state before. -/
theorem Leaves.after {sh₁ sh' : Shared T} {q : KueueImpl} {s : StoreImpl} (h : Leaves sh₁ sh' q s)
    (hw : sh₁.waiters = sh.waiters) : Leaves sh sh' q s :=
  { h with waiters := h.waiters.trans hw }

/-! ## Put -/

/-- The control points of the other steps: those that neither take a key nor call the store. -/
def Pc.Passive : Pc → Prop
  | .putNext .. | .putStore .. | .takeStore _ | .readStore _ | .eraseStore _ | .clearStore _ => False
  | _ => True

/-- The steps of a `put` meet the condition `g`. -/
structure PutGuard (g : Local T) (sh : Shared T) (ch : Choice T) (c : ℤ) (v : Bytes) : Prop where
  next : ∀ sh₁, sh₁.queue.maxKey = sh.queue.maxKey → g (.putNext c v) sh₁ ch
  store : ∀ sh₁, sh₁.store = sh.store → sh₁.queue.queueKind = sh.queue.queueKind →
    g (.putStore c v sh.queue.maxKey) sh₁ ch
  other : ∀ p sh₁, p.Passive → g p sh₁ ch

section Put

variable {ch : Choice T} {c : ℤ} {v : Bytes}

/-- The end of a `put`: it releases the lock and, if the count was zero, signals to nobody. -/
theorem unlock_alone (sh₁ : Shared T) (htake : sh₁.takeLock = none) {n : Int64}
    (hwait : n = 0 → sh₁.waiters = []) (hwake : ch.wake = none)
    (hg : ∀ p sh₁, p.Passive → g p sh₁ ch) :
    ∃ sh', Solo g t (.putUnlock n, sh₁) (.idle, sh') ∧ Leaves sh₁ sh' sh₁.queue sh₁.store := by
  by_cases hn : n = 0
  · subst hn
    refine ⟨{ sh₁ with putLock := none, takeLock := none }, ?_, ⟨rfl, rfl⟩, rfl, rfl, rfl⟩
    refine .step ch (hg _ _ trivial) rfl ?_
    refine .step ch (hg _ _ trivial) (if_pos htake) ?_
    refine .step (y := (.sigUnlock, { sh₁ with putLock := none, takeLock := some t })) ch
      (hg _ _ trivial) ?_ ?_
    · simp [exec, Shared.notifyOne, hwait, hwake]
    · exact .step ch (hg _ _ trivial) rfl (.refl _)
  · refine ⟨{ sh₁ with putLock := none }, ?_, ⟨rfl, htake⟩, rfl, rfl, rfl⟩
    refine .step (y := (.idle, { sh₁ with putLock := none })) ch (hg _ _ trivial) ?_ (.refl _)
    simp [exec, hn]

/-- A `put` that returned. -/
theorem put_ok {a : Answers} {q q' : KueueImpl} {s s' : StoreImpl} {status st : Option ℤ}
    (h : q.put a status v s = .ok (st, q', s')) :
    (q.isValid_ = false ∧ q' = q ∧ s' = s) ∨
      (q.isValid_ = true ∧ ∃ kind st₁, q.queueKind = some kind ∧
        s.put a (some (status.getD Status.ok)) kind (some (putU64BE q.maxKey)) v = .ok (st₁, s') ∧
        ((st₁ = some Status.ok ∧ q' = { q with
            maxKey := q.maxKey + 1, count := q.count + 1, totalPuts_ := q.totalPuts_ + 1 }) ∨
          (st₁ ≠ some Status.ok ∧ q' = { q with maxKey := q.maxKey + 1 - 1 }))) := by
  unfold KueueImpl.put at h
  split_ifs at h with hvalid
  · refine .inr ⟨hvalid, ?_⟩
    obtain ⟨kind, hkind, h⟩ := exists_of_bind_eq_ok h
    obtain ⟨⟨st₁, s₁⟩, hstore, h⟩ := exists_of_bind_eq_ok h
    refine ⟨kind, st₁, KueueImpl.queueKind_of_getKindRef hkind, ?_⟩
    dsimp only at h
    split_ifs at h with hst
    · cases h
      exact ⟨hstore, .inl ⟨hst, rfl⟩⟩
    · cases h
      exact ⟨hstore, .inr ⟨hst, rfl⟩⟩
  · cases h
    exact .inl ⟨by simpa using hvalid, rfl, rfl⟩

theorem put_alone (ch : Choice T) (hfree : Free sh) (hwait : sh.queue.count = 0 → sh.waiters = [])
    (hop : ch.op = .put c v) (hwake : ch.wake = none) {status st : Option ℤ}
    (hstate : c = status.getD Status.ok) {q' : KueueImpl} {s' : StoreImpl}
    (hput : sh.queue.put ch.answers status v sh.store = .ok (st, q', s'))
    (hg : PutGuard g sh ch c v) : ∃ sh', Alone g t sh sh' ∧ Leaves sh sh' q' s' := by
  rcases put_ok hput with ⟨hvalid, rfl, rfl⟩ | ⟨hvalid, kind, st₁, hkind, hstore, hcases⟩
  · refine ⟨{ sh with calls := Function.update sh.calls t (sh.calls t + 1) }, ?_,
      ⟨hfree.putLock, hfree.takeLock⟩, rfl, rfl, rfl⟩
    refine .step ch (hg.other _ _ trivial) ?_ (.refl _)
    simp [exec, Op.start, hvalid, hop]
  · rw [← hstate] at hstore
    -- up to the store call the steps are the same
    have hcall : ∀ {z : Pc × Shared T},
        Solo g t (.putStore c v sh.queue.maxKey,
          { sh with
            calls := Function.update sh.calls t (sh.calls t + 1), putLock := some t
            queue := { sh.queue with maxKey := sh.queue.maxKey + 1 } }) z →
        Solo g t (.idle, sh) z := by
      intro z hrest
      refine .step (y := (.putLock c v,
          { sh with calls := Function.update sh.calls t (sh.calls t + 1) })) ch
        (hg.other _ _ trivial) (by simp [exec, Op.start, hvalid, hop]) ?_
      refine .step ch (hg.other _ _ trivial) (if_pos hfree.putLock) ?_
      exact .step ch (hg.next _ rfl) rfl hrest
    rcases hcases with ⟨rfl, rfl⟩ | ⟨hst, rfl⟩
    · obtain ⟨sh', hrest, hleaves⟩ := unlock_alone (t := t)
        { sh with
          calls := Function.update sh.calls t (sh.calls t + 1), putLock := some t, store := s'
          puts := sh.puts ++ [v]
          queue := { sh.queue with
            maxKey := sh.queue.maxKey + 1, count := sh.queue.count + 1
            totalPuts_ := sh.queue.totalPuts_ + 1 } }
        hfree.takeLock hwait hwake hg.other
      refine ⟨sh', hcall ?_, hleaves.after rfl⟩
      refine .step (y := (.putAdd, { sh with
          calls := Function.update sh.calls t (sh.calls t + 1), putLock := some t, store := s'
          puts := sh.puts ++ [v]
          queue := { sh.queue with maxKey := sh.queue.maxKey + 1 } })) ch (hg.store _ rfl rfl) ?_
        (.step ch (hg.other _ _ trivial) rfl hrest)
      simp [exec, hkind, hstore, Except.toOption]
    · obtain ⟨sh', hrest, hleaves⟩ := unlock_alone (t := t)
        { sh with
          calls := Function.update sh.calls t (sh.calls t + 1), putLock := some t, store := s'
          queue := { sh.queue with maxKey := sh.queue.maxKey + 1 - 1 } }
        hfree.takeLock (n := -1) (fun hno => absurd hno (by decide)) hwake hg.other
      refine ⟨sh', hcall ?_, hleaves.after rfl⟩
      refine .step (y := (.putUndo, { sh with
          calls := Function.update sh.calls t (sh.calls t + 1), putLock := some t, store := s'
          queue := { sh.queue with maxKey := sh.queue.maxKey + 1 } })) ch (hg.store _ rfl rfl) ?_
        (.step ch (hg.other _ _ trivial) rfl hrest)
      simp [exec, hkind, hstore, hst, Except.toOption]

end Put

/-! ## The consumers -/

section Consume

variable {ch : Choice T}

/-- The end of a consumer: it releases the lock and returns. -/
theorem return_alone (ch : Choice T) (sh₁ : Shared T) (hput : sh₁.putLock = none)
    (hg : ∀ p sh₁, p.Passive → g p sh₁ ch) (ans : Answer) :
    ∃ sh', Solo g t (.takeUnlock ans, sh₁) (.idle, sh') ∧ Leaves sh₁ sh' sh₁.queue sh₁.store :=
  ⟨_, .step ch (hg _ _ trivial) rfl (.refl _), ⟨hput, rfl⟩, rfl, rfl, rfl⟩

/-- The updates after a removal. The notification goes to nobody. -/
theorem removal_alone (ch : Choice T) (sh₁ : Shared T) (hput : sh₁.putLock = none)
    (hwait : sh₁.queue.count > 1 → sh₁.waiters = []) (hwake : ch.wake = none)
    (hg : ∀ p sh₁, p.Passive → g p sh₁ ch) (ans : Answer) :
    ∃ sh', Solo g t (.removeNext (.answer ans), sh₁) (.idle, sh') ∧
      Leaves sh₁ sh' sh₁.queue.removed sh₁.store := by
  obtain ⟨sh', hrest, hleaves⟩ :=
    return_alone (t := t) ch { sh₁ with queue := sh₁.queue.removed } hput hg ans
  refine ⟨sh', ?_, hleaves.after rfl⟩
  refine .step ch (hg _ _ trivial) rfl (.step ch (hg _ _ trivial) rfl ?_)
  refine .step ch (hg _ _ trivial) ?_ hrest
  by_cases hc : sh₁.queue.count > 1
  · simp [exec, hc, hwake, Shared.notifyOne, hwait hc, KueueImpl.removed]
  · simp [exec, hc, KueueImpl.removed]

variable {w : Wait} {status : Option ℤ} {r : KueueImpl.Reply} {q' : KueueImpl}
  {s' : StoreImpl}

theorem takeNow_alone (ch : Choice T) (sh₁ : Shared T) (hput : sh₁.putLock = none)
    (hwait : sh₁.queue.count > 1 → sh₁.waiters = []) (hwake : ch.wake = none)
    (hg : ∀ p sh₁, p.Passive → g p sh₁ ch) (hstore : g (.takeStore w) sh₁ ch)
    (hstate : w.state = status.getD Status.ok)
    (htake : sh₁.queue.takeNow ch.answers status w.valLen sh₁.store = .ok (r, q', s')) :
    ∃ sh', Solo g t (.takeStore w, sh₁) (.idle, sh') ∧ Leaves sh₁ sh' q' s' := by
  unfold KueueImpl.takeNow at htake
  obtain ⟨kind, hkind, htake⟩ := exists_of_bind_eq_ok htake
  obtain ⟨⟨r₁, s₁⟩, hremove, htake⟩ := exists_of_bind_eq_ok htake
  rw [KueueImpl.localState, ← hstate] at hremove
  cases htake
  by_cases hst : r₁.status = some Status.ok
  · obtain ⟨sh', hrest, hleaves⟩ := removal_alone (t := t) ch (sh₁.remove t sh₁.queue.minKey s')
      hput hwait hwake hg (.taken sh₁.queue.minKey r₁)
    rw [if_pos hst]
    refine ⟨sh', .step ch hstore ?_ hrest, hleaves.after rfl⟩
    simp [exec, KueueImpl.queueKind_of_getKindRef hkind, hremove, hst, Except.toOption]
  · obtain ⟨sh', hrest, hleaves⟩ := return_alone (t := t) ch { sh₁ with store := s' } hput hg
      (.taken sh₁.queue.minKey r₁)
    rw [if_neg hst]
    refine ⟨sh', .step ch hstore ?_ hrest, hleaves.after rfl⟩
    simp [exec, KueueImpl.queueKind_of_getKindRef hkind, hremove, hst, Except.toOption]

theorem readNow_alone (ch : Choice T) (sh₁ : Shared T) {pKey : Option UInt64} (hput : sh₁.putLock = none)
    (hg : ∀ p sh₁, p.Passive → g p sh₁ ch) (hstore : g (.readStore w) sh₁ ch)
    (hstate : w.state = status.getD Status.ok)
    (hread : sh₁.queue.readNow ch.answers status w.valLen pKey sh₁.store = .ok (r, q', s')) :
    ∃ sh', Solo g t (.readStore w, sh₁) (.idle, sh') ∧ Leaves sh₁ sh' q' s' := by
  unfold KueueImpl.readNow at hread
  obtain ⟨kind, hkind, hread⟩ := exists_of_bind_eq_ok hread
  obtain ⟨⟨r₁, s₁⟩, hget, hread⟩ := exists_of_bind_eq_ok hread
  rw [KueueImpl.localState, ← hstate] at hget
  cases hread
  obtain ⟨sh', hrest, hleaves⟩ := return_alone (t := t) ch { sh₁ with store := s' } hput hg
    (.read sh₁.queue.minKey r₁)
  refine ⟨sh', .step ch hstore ?_ hrest, hleaves.after rfl⟩
  simp [exec, KueueImpl.queueKind_of_getKindRef hkind, hget, Except.toOption]

/-- The shared state of a consumer that has just got `takeLock`. -/
def entered (t : T) (sh : Shared T) : Shared T :=
  { sh with calls := Function.update sh.calls t (sh.calls t + 1), takeLock := some t }

/-- A wait begins with the lock and the first test. -/
theorem test_alone (ch : Choice T) (hfree : Free sh) (hvalid : sh.queue.isValid_ = true)
    (hop : ch.op = .consume w) (hg : ∀ p sh₁, p.Passive → g p sh₁ ch) {z : Pc × Shared T}
    (hrest : Solo g t (.waitTest w, entered t sh) z) : Solo g t (.idle, sh) z := by
  refine .step (y := (.waitLock w,
      { sh with calls := Function.update sh.calls t (sh.calls t + 1) })) ch (hg _ _ trivial)
    (by simp [exec, Op.start, hvalid, hop]) ?_
  exact .step ch (hg _ _ trivial) (if_pos hfree.takeLock) hrest

/-- A wait whose test passes at once goes on to the store call. -/
theorem pass_alone (ch : Choice T) (hfree : Free sh) (hvalid : sh.queue.isValid_ = true)
    (hop : ch.op = .consume w) (hpass : w.passes sh.queue.count = true) (hg : ∀ p sh₁, p.Passive → g p sh₁ ch)
    {z : Pc × Shared T} (hrest : Solo g t (w.body, entered t sh) z) : Solo g t (.idle, sh) z := by
  refine test_alone ch hfree hvalid hop hg (.step ch (hg _ _ trivial) ?_ hrest)
  have hcount : w.passes (entered t sh).queue.count = true := hpass
  simp [exec, hcount]

/-- A call on a queue that is not valid. -/
theorem refused_alone (ch : Choice T) (hfree : Free sh) (hstart : ch.op.start sh.queue.isValid_ = .idle)
    (hg : ∀ p sh₁, p.Passive → g p sh₁ ch) :
    ∃ sh', Alone g t sh sh' ∧ Leaves sh sh' sh.queue sh.store := by
  refine ⟨{ sh with calls := Function.update sh.calls t (sh.calls t + 1) }, ?_,
    ⟨hfree.putLock, hfree.takeLock⟩, rfl, rfl, rfl⟩
  exact .step ch (hg _ _ trivial) (by simp [exec, hstart]) (.refl _)

theorem take_alone (ch : Choice T) (hfree : Free sh) (hwait : sh.queue.count > 1 → sh.waiters = [])
    (hop : ch.op = .consume w) (hw : w.consumer = .take) (hwake : ch.wake = none)
    (hg : ∀ p sh₁, p.Passive → g p sh₁ ch) (hstore : g (.takeStore w) (entered t sh) ch)
    (hstate : w.state = status.getD Status.ok)
    (htake : sh.queue.take ch.answers status w.valLen sh.store = .ok (r, q', s')) :
    ∃ sh', Alone g t sh sh' ∧ Leaves sh sh' q' s' := by
  unfold KueueImpl.take at htake
  split_ifs at htake with hvalid hcount
  · obtain ⟨sh', hrest, hleaves⟩ := takeNow_alone (t := t) ch (entered t sh) hfree.putLock hwait hwake
      hg hstore hstate htake
    refine ⟨sh', pass_alone ch hfree hvalid hop ?_ hg ?_, hleaves.after rfl⟩
    · simp [Wait.passes, hw, hcount]
    · simpa [Wait.body, hw] using hrest
  · cases htake
    have hno : sh.queue.isValid_ = false := by simpa using hvalid
    exact refused_alone ch hfree (by simp [hop, Op.start, hno]) hg

end Consume

/-! ## Every call -/

section Calls

/-- No condition on the steps. -/
abbrev anyStep : Local T := fun _ _ _ => True

variable {w : Wait} {status : Option ℤ}

/-- A wait with a timeout that nobody ends. -/
theorem timeout_alone (w : Wait) (hfree : Free sh) (hwait : sh.waiters = [])
    (hvalid : sh.queue.isValid_ = true) (htimed : w.timed = true) (hfails : w.passes sh.queue.count = false) :
    ∃ sh', Alone anyStep t sh sh' ∧ Leaves sh sh' sh.queue sh.store := by
  have hcount : w.passes (entered t sh).queue.count = false := hfails
  refine ⟨{ entered t sh with takeLock := none, waiters := sh.waiters }.answered t .timedOut,
    test_alone { op := .consume w } hfree hvalid rfl (fun _ _ _ => trivial) ?_,
    ⟨hfree.putLock, rfl⟩, rfl, rfl, rfl⟩
  refine .step { } trivial (by simp only [exec, hcount]; rfl) ?_
  refine .step { } trivial rfl ?_
  refine .step (y := (.timedOut w, { entered t sh with takeLock := none, waiters := sh.waiters }))
    { event := .timeout } trivial ?_ ?_
  · simp [exec, htimed, Shared.wakeUp, entered, hwait]
  · refine .step (y := (.waitLast w, entered t sh)) { } trivial (by simp [exec, entered]) ?_
    refine .step { } trivial (by simp only [exec, hcount]; rfl) ?_
    exact .step { } trivial rfl (.refl _)

/-- The operations with a timeout: their wait passes, times out, or is refused. -/
theorem waitFor_alone {timeout : ℤ} {valLen : Option ℕ} {pKey : Option UInt64}
    {body : Except Halt (KueueImpl.Reply × KueueImpl × StoreImpl)} {r : KueueImpl.Reply}
    {q' : KueueImpl} {s' : StoreImpl} (hfree : Free sh) (hwait : sh.waiters = [])
    (hw : w.consumer = .takeTimed timeout ∨ w.consumer = .readNext timeout)
    (hrun : sh.queue.waitFor timeout status valLen pKey sh.store body = .ok (r, q', s'))
    (hbody : body = .ok (r, q', s') →
      ∃ sh', Solo anyStep t (w.body, entered t sh) (.idle, sh') ∧ Leaves sh sh' q' s') :
    ∃ sh', Alone anyStep t sh sh' ∧ Leaves sh sh' q' s' := by
  have hpasses : w.passes sh.queue.count = decide (sh.queue.count > 0) := by
    rcases hw with hw | hw <;> simp [Wait.passes, hw]
  have htimed : w.timed = decide (timeout > 0) := by
    rcases hw with hw | hw <;> simp [Wait.timed, hw]
  unfold KueueImpl.waitFor at hrun
  split_ifs at hrun with hvalid hcount hpos
  · obtain ⟨sh', hrest, hleaves⟩ := hbody hrun
    exact ⟨sh', pass_alone { op := .consume w } hfree hvalid rfl (by simpa [hpasses] using hcount)
      (fun _ _ _ => trivial) hrest, hleaves⟩
  · cases hrun
    exact timeout_alone w hfree hwait hvalid (by simpa [htimed] using hpos)
      (by simpa [hpasses] using hcount)
  · cases hrun
    have hno : sh.queue.isValid_ = false := by simpa using hvalid
    exact refused_alone { op := .consume w } hfree (by simp [Op.start, hno]) fun _ _ _ => trivial

theorem erase_alone {a : Answers} {key : UInt64} {b : Bool} {q' : KueueImpl} {s' : StoreImpl}
    (hfree : Free sh) (hwait : sh.waiters = []) (hrun : sh.queue.erase a key sh.store = .ok (b, q', s')) :
    ∃ sh', Alone anyStep t sh sh' ∧ Leaves sh sh' q' s' := by
  have hcall : ∀ {z : Pc × Shared T},
      Solo anyStep t (.eraseTest key,
        { sh with calls := Function.update sh.calls t (sh.calls t + 1) }) z →
      Solo anyStep t (.idle, sh) z := fun hrest => .step { op := .erase key } trivial rfl hrest
  unfold KueueImpl.erase at hrun
  by_cases htest : sh.queue.isValid_ = true ∧ key = sh.queue.minKey
  · rw [if_pos htest] at hrun
    simp only [if_pos htest.2] at hrun
    obtain ⟨kind, hkind, hrun⟩ := exists_of_bind_eq_ok hrun
    obtain ⟨⟨st, s₁⟩, hremove, hrun⟩ := exists_of_bind_eq_ok hrun
    cases hrun
    have hcheck : ∀ {z : Pc × Shared T}, Solo anyStep t (.eraseStore key, entered t sh) z →
        Solo anyStep t (.idle, sh) z := by
      intro z hrest
      refine hcall (.step { } trivial (if_pos htest) (.step { } trivial (if_pos hfree.takeLock) ?_))
      refine .step { } trivial ?_ hrest
      simp [exec, htest.2, entered]
    by_cases hst : st = some Status.ok
    · obtain ⟨sh', hrest, hleaves⟩ := removal_alone (t := t) (g := anyStep) { answers := a }
        ((entered t sh).remove t key s₁) hfree.putLock (fun _ => hwait) rfl (fun _ _ _ => trivial)
        (.erased key true)
      rw [if_pos hst]
      refine ⟨sh', hcheck (.step { answers := a } trivial ?_ hrest), hleaves.after rfl⟩
      simp [exec, entered, KueueImpl.queueKind_of_getKindRef hkind, hremove, hst, Except.toOption]
    · obtain ⟨sh', hrest, hleaves⟩ := return_alone (t := t) (g := anyStep) { answers := a }
        { entered t sh with store := s₁ } hfree.putLock (fun _ _ _ => trivial) (.erased key false)
      rw [if_neg hst]
      refine ⟨sh', hcheck (.step { answers := a } trivial ?_ hrest), hleaves.after rfl⟩
      simp [exec, entered, KueueImpl.queueKind_of_getKindRef hkind, hremove, hst, Except.toOption]
  · rw [if_neg htest] at hrun
    cases hrun
    refine ⟨{ sh with calls := Function.update sh.calls t (sh.calls t + 1) }.answered t
      (.erased key false), hcall (.step { } trivial (if_neg htest) (.refl _)),
      ⟨hfree.putLock, hfree.takeLock⟩, rfl, rfl, rfl⟩

theorem toInt_count_removed {q : KueueImpl} (h : q.count > 0) :
    q.removed.count.toInt = q.count.toInt - 1 := by
  have hpos : (0 : Int64).toInt < q.count.toInt := Int64.lt_iff_toInt_lt.mp h
  have hzero : (0 : Int64).toInt = 0 := rfl
  have hone : (1 : Int64).toInt = 1 := rfl
  have hlt := q.count.toInt_lt
  show (q.count - 1).toInt = _
  rw [Int64.toInt_sub, hone]
  exact Int.bmod_eq_of_le (by omega) (by omega)

/-- The loop of `clear`. As many turns as the count says bring the count down to zero. -/
theorem clearLoop_alone {as : ℕ → Answers} {kind : Kind} {n i : ℕ} {c : ℤ} {st : Option ℤ}
    {q' : KueueImpl} {s' : StoreImpl} (sh₁ : Shared T) (hkind : sh₁.queue.queueKind = some kind)
    (hn : n = sh₁.queue.count.toInt.toNat)
    (hrun : KueueImpl.clearLoop as kind n i (some c) sh₁.queue sh₁.store = .ok (st, q', s')) :
    ∃ sh', Solo anyStep t (.clearTest c, sh₁) (.clearUnlockTake, sh') ∧
      sh'.waiters = sh₁.waiters ∧ sh'.queue = q' ∧ sh'.store = s' := by
  induction n generalizing i c sh₁ with
  | zero =>
    cases hrun
    have hcount : ¬ sh₁.queue.count > 0 := by
      intro hpos
      have := Int64.lt_iff_toInt_lt.mp hpos
      have hzero : (0 : Int64).toInt = 0 := rfl
      omega
    exact ⟨sh₁, .step { } trivial (by simp [exec, hcount]) (.refl _), rfl, rfl, rfl⟩
  | succ n ih =>
    have hcount : sh₁.queue.count > 0 := by
      refine Int64.lt_iff_toInt_lt.mpr ?_
      have hzero : (0 : Int64).toInt = 0 := rfl
      omega
    simp only [KueueImpl.clearLoop, if_pos hcount] at hrun
    obtain ⟨⟨st₁, s₁⟩, hremove, hrun⟩ := exists_of_bind_eq_ok hrun
    dsimp only at hrun
    by_cases hst : st₁ = some Status.ok
    · subst hst
      rw [if_pos rfl] at hrun
      obtain ⟨sh', hrest, hwaiters, hqueue, hstore⟩ := ih
        { sh₁.remove t sh₁.queue.minKey s₁ with queue := sh₁.queue.removed } hkind
        (by rw [toInt_count_removed hcount]; omega) hrun
      refine ⟨sh', .step { } trivial (by simp [exec, hcount]; rfl) ?_, hwaiters, hqueue, hstore⟩
      refine .step (y := (.removeNext .loop, sh₁.remove t sh₁.queue.minKey s₁)) { answers := as i }
        trivial ?_ ?_
      · simp [exec, hkind, hremove, Except.toOption]
      · exact .step { } trivial rfl (.step { } trivial rfl hrest)
    · rw [if_neg hst] at hrun
      cases hrun
      refine ⟨{ sh₁ with store := s' }, ?_, rfl, rfl, rfl⟩
      refine .step { } trivial (by simp [exec, hcount]; rfl) ?_
      refine .step { answers := as i } trivial ?_ (.refl _)
      simp [exec, hkind, hremove, hst, Except.toOption]

theorem clear_alone {as : ℕ → Answers} {st : Option ℤ} {q' : KueueImpl} {s' : StoreImpl}
    (hfree : Free sh) (hrun : sh.queue.clear as status sh.store = .ok (st, q', s')) :
    ∃ sh', Alone anyStep t sh sh' ∧ Leaves sh sh' q' s' := by
  unfold KueueImpl.clear at hrun
  split_ifs at hrun with hvalid
  · obtain ⟨kind, hkind, hrun⟩ := exists_of_bind_eq_ok hrun
    obtain ⟨⟨st₁, q₁, s₁⟩, hloop, hrun⟩ := exists_of_bind_eq_ok hrun
    cases hrun
    obtain ⟨sh', hrest, hwaiters, hqueue, hstore⟩ := clearLoop_alone (t := t)
      { entered t sh with putLock := some t } (KueueImpl.queueKind_of_getKindRef hkind) rfl hloop
    have hunlock : Solo anyStep t (.clearUnlockTake, sh')
        (.idle, { sh' with takeLock := none, putLock := none }) :=
      .step { } trivial rfl (.step { } trivial rfl (.refl _))
    refine ⟨{ sh' with takeLock := none, putLock := none }, ?_, ⟨rfl, rfl⟩, hwaiters, hqueue, hstore⟩
    refine .step (y := (.clearLockPut (status.getD Status.ok),
        { sh with calls := Function.update sh.calls t (sh.calls t + 1) }))
      { op := .clear (status.getD Status.ok) } trivial (by simp [exec, Op.start, hvalid]) ?_
    refine .step { } trivial (if_pos hfree.putLock) ?_
    exact .step { } trivial (if_pos hfree.takeLock) (hrest.trans hunlock)
  · cases hrun
    have hno : sh.queue.isValid_ = false := by simpa using hvalid
    exact refused_alone { op := .clear Status.ok } hfree (by simp [Op.start, hno])
      fun _ _ _ => trivial

/-- **One thread.** A call that returns in the sequential model is a run of a thread that is alone, and
the queue object and the store end up the same. -/
theorem call_alone {as : ℕ → Answers} {o : KueueImpl.Outcome} {q' : KueueImpl} {s' : StoreImpl}
    (hfree : Free sh) (hwait : sh.waiters = []) (c : KueueImpl.Call)
    (hrun : c.run as sh.queue sh.store = .ok (o, q', s')) :
    ∃ sh', Alone anyStep t sh sh' ∧ Leaves sh sh' q' s' := by
  cases c with
  | put status v =>
    obtain ⟨⟨st, q₁, s₁⟩, hput, heq⟩ := exists_of_map_eq_ok hrun
    cases heq
    exact put_alone { op := .put (status.getD Status.ok) v, answers := as 0 } hfree (fun _ => hwait)
      rfl rfl rfl hput ⟨fun _ _ => trivial, fun _ _ _ => trivial, fun _ _ _ => trivial⟩
  | take status valLen =>
    obtain ⟨⟨r, q₁, s₁⟩, htake, heq⟩ := exists_of_map_eq_ok hrun
    cases heq
    exact take_alone (w := ⟨.take, status.getD Status.ok, valLen⟩)
      { op := .consume ⟨.take, status.getD Status.ok, valLen⟩, answers := as 0 } hfree
      (fun _ => hwait) rfl rfl rfl (fun _ _ _ => trivial) trivial rfl htake
  | takeTimed status valLen timeout =>
    obtain ⟨⟨r, q₁, s₁⟩, htake, heq⟩ := exists_of_map_eq_ok hrun
    cases heq
    refine waitFor_alone (w := ⟨.takeTimed timeout, status.getD Status.ok, valLen⟩) hfree hwait
      (.inl rfl) htake fun hbody => ?_
    obtain ⟨sh', hrest, hleaves⟩ := takeNow_alone (t := t) (g := anyStep)
      (w := ⟨.takeTimed timeout, status.getD Status.ok, valLen⟩)
      { answers := as 0 } (entered t sh) hfree.putLock (fun _ => hwait) rfl (fun _ _ _ => trivial)
      trivial rfl hbody
    exact ⟨sh', hrest, hleaves.after rfl⟩
  | readNext status valLen pKey timeout =>
    obtain ⟨⟨r, q₁, s₁⟩, hread, heq⟩ := exists_of_map_eq_ok hrun
    cases heq
    refine waitFor_alone (w := ⟨.readNext timeout, status.getD Status.ok, valLen⟩) hfree hwait
      (.inr rfl) hread fun hbody => ?_
    obtain ⟨sh', hrest, hleaves⟩ := readNow_alone (t := t) (g := anyStep)
      (w := ⟨.readNext timeout, status.getD Status.ok, valLen⟩)
      { answers := as 0 } (entered t sh) hfree.putLock (fun _ _ _ => trivial) trivial rfl hbody
    exact ⟨sh', hrest, hleaves.after rfl⟩
  | erase key =>
    obtain ⟨⟨b, q₁, s₁⟩, herase, heq⟩ := exists_of_map_eq_ok hrun
    cases heq
    exact erase_alone hfree hwait herase
  | clear status =>
    obtain ⟨⟨st, q₁, s₁⟩, hclear, heq⟩ := exists_of_map_eq_ok hrun
    cases heq
    exact clear_alone hfree hclear

/-- **Sequential runs.** A run of the sequential model is a run of the threads, in which one thread makes
all the calls. -/
theorem run_alone {ls : List KueueImpl.Label} {x y : KueueImpl × StoreImpl}
    (hrun : Run KueueImpl.Step x ls y) {pc : T → Pc} (hpc : pc t = .idle) (hfree : Free sh)
    (hwait : sh.waiters = []) (hq : sh.queue = x.1) (hs : sh.store = x.2) :
    ∃ ls' sh', Run Step ⟨sh, pc⟩ ls' ⟨sh', pc⟩ ∧ Leaves sh sh' y.1 y.2 := by
  induction hrun generalizing sh with
  | nil x => exact ⟨[], sh, .nil _, hfree, rfl, hq, hs⟩
  | cons hstep _ ih =>
    obtain ⟨sh₁, halone, hleaves⟩ := call_alone (t := t) hfree hwait _ (by rw [hq, hs]; exact hstep)
    obtain ⟨ls₁, hrun₁⟩ := halone.run hpc
    obtain ⟨ls₂, sh', hrun₂, hleaves'⟩ :=
      ih hleaves.toFree (hleaves.waiters.trans hwait) hleaves.queue hleaves.store
    exact ⟨ls₁ ++ ls₂, sh', (hrun₁.mono fun _ _ _ h => h.2).append hrun₂,
      hleaves'.after hleaves.waiters⟩

end Calls

/-! ## Many puts -/

/-- A step that nobody can object to: `maxKey` stays in range, no call is an `erase` or a `readNext`,
RocksDB refuses nothing, and store calls succeed. -/
structure Smooth (p : Pc) (sh : Shared T) (ch : Choice T) : Prop where
  maxKey : ∀ state v, p = .putNext state v → sh.queue.maxKey ≠ MAX_KEY
  erase : p = .idle → ∀ key, ch.op ≠ .erase key
  readNext : p = .idle → ∀ w timeout, ch.op = .consume w → w.consumer ≠ .readNext timeout
  faultless : StoreImpl.Faultless ch.answers
  granted : Granted p sh ch

omit [DecidableEq T] in
theorem Pc.Passive.granted {p : Pc} {ch : Choice T} (h : p.Passive) : Granted p sh ch := by
  intro kind _
  cases p <;> first | exact trivial | exact h.elim

/-- One put on a queue with room for it. -/
theorem put_smooth {kd : KindImpl} {f : Fifo} (hfree : Free sh) (hwait : sh.waiters = [])
    (hv : kd.isValid = true) (hrep : KueueImpl.Rep kd (sh.queue, sh.store) f)
    (htop : f.top + 1 < 2 ^ 64) (v : Bytes) :
    ∃ sh', Alone Smooth t sh sh' ∧ Free sh' ∧ sh'.waiters = [] ∧
      KueueImpl.Rep kd (sh'.queue, sh'.store) (f.push v) := by
  obtain ⟨db, hopen, -⟩ := hrep.stored
  have hkind : sh.queue.queueKind = some (.impl kd) := hrep.kind
  have hvalid : sh.queue.isValid_ = true := hrep.valid
  obtain ⟨s₁, hwrite⟩ := StoreImpl.voidWrite_faultless hopen StoreImpl.faultless_default hv
    (fun key fam => .put fam key v) Status.ok (putU64BE sh.queue.maxKey)
  have hstore : sh.store.put {} (some Status.ok) (.impl kd) (some (putU64BE sh.queue.maxKey)) v
      = .ok (some Status.ok, s₁) := hwrite
  have hput : sh.queue.put {} (some Status.ok) v sh.store = .ok (some Status.ok, { sh.queue with
      maxKey := sh.queue.maxKey + 1, count := sh.queue.count + 1
      totalPuts_ := sh.queue.totalPuts_ + 1 }, s₁) := by
    simp only [KueueImpl.put, hvalid, if_true, KueueImpl.getKindRef, hkind, ok_bind,
      KueueImpl.localState, Option.getD_some, hstore]
    rfl
  obtain ⟨st, q', s', f', hput', hrep', hreports⟩ :=
    KueueImpl.put_rep hrep (by omega) {} (some Status.ok) v
  cases hput.symm.trans hput'
  obtain rfl : f' = f.push v := by
    obtain ⟨c, hc, hdone, -⟩ := hreports
    exact hdone (Option.some.inj hc).symm
  have hguard : PutGuard Smooth sh { op := .put Status.ok v } Status.ok v := by
    have hcall : ∀ {p : Pc} {sh₁ : Shared T}, (∀ state v', p = .putNext state v' →
        sh₁.queue.maxKey ≠ MAX_KEY) → Granted p sh₁ { op := .put Status.ok v } →
        Smooth p sh₁ { op := .put Status.ok v } := fun hmax hgranted =>
      { maxKey := hmax, erase := fun _ _ => Op.noConfusion, readNext := fun _ _ _ => Op.noConfusion
        faultless := StoreImpl.faultless_default, granted := hgranted }
    refine ⟨fun sh₁ hmax => ?_, fun sh₁ hs hk => ?_, fun p sh₁ hp => ?_⟩
    · refine hcall (fun _ _ _ heq => ?_) fun _ _ => trivial
      have hmod := congrArg UInt64.toNat (heq.symm.trans (hmax.trans hrep.maxKey))
      rw [UInt64.toNat_ofNat'] at hmod
      have hlast : MAX_KEY.toNat = 2 ^ 64 - 1 := rfl
      omega
    · refine hcall (fun _ _ => Pc.noConfusion) fun kind hkind' st s hput₁ => ?_
      rw [hk, hkind] at hkind'
      cases hkind'
      rw [hs, hstore] at hput₁
      cases hput₁
      rfl
    · exact hcall (fun _ _ heq => by subst heq; exact hp.elim) hp.granted
  obtain ⟨sh', halone, hleaves⟩ := put_alone (t := t) { op := .put Status.ok v } hfree
    (fun _ => hwait) rfl rfl rfl hput hguard
  refine ⟨sh', halone, hleaves.toFree, hleaves.waiters.trans hwait, ?_⟩
  rw [hleaves.queue, hleaves.store]
  exact hrep'

/-- Any number of puts by one thread. -/
theorem puts_smooth {kd : KindImpl} {f : Fifo} (hfree : Free sh) (hwait : sh.waiters = [])
    (hv : kd.isValid = true) (hrep : KueueImpl.Rep kd (sh.queue, sh.store) f) (v : Bytes) (n : ℕ)
    (htop : f.top + n < 2 ^ 64) (pc : T → Pc) (hpc : pc t = .idle) :
    ∃ ls sh', Run (guarded (fun x l => Smooth (x.pc l.thread) x.shared l.choice) Step)
        ⟨sh, pc⟩ ls ⟨sh', pc⟩ ∧ Free sh' ∧ sh'.waiters = [] ∧
      KueueImpl.Rep kd (sh'.queue, sh'.store) ⟨f.lo, f.msgs ++ List.replicate n v⟩ := by
  induction n with
  | zero => exact ⟨[], sh, .nil _, hfree, hwait, by simpa using hrep⟩
  | succ n ih =>
    obtain ⟨ls, sh₁, hrun, hfree₁, hwait₁, hrep₁⟩ := ih (by omega)
    have htop₁ : (⟨f.lo, f.msgs ++ List.replicate n v⟩ : Fifo).top + 1 < 2 ^ 64 := by
      simp only [Fifo.top, List.length_append, List.length_replicate] at htop ⊢
      omega
    obtain ⟨sh', halone, hfree', hwait', hrep'⟩ := put_smooth (t := t) hfree₁ hwait₁ hv hrep₁ htop₁ v
    obtain ⟨ls', hrun'⟩ := halone.run hpc
    refine ⟨ls ++ ls', sh', hrun.append hrun', hfree', hwait', ?_⟩
    rw [List.replicate_succ', ← List.append_assoc]
    exact hrep'

end Librocks.Threads
