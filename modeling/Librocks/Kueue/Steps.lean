import Librocks.Common.Mutex
import Librocks.Kueue.Spec
import Librocks.Kueue.Threads

/-!
# What one atomic step does

Each lemma looks at the steps from one side.

* `exec_move`: the steps one by one, as a relation.
* `Move.putLock_move`, `Move.takeLock_move`: the locks. `HoldsPut` and `HoldsTake` are their critical
  sections.
* `Move.effect`: the queue object and its Kind. Between a store call and the update of `minKey`,
  `maxKey` and `count` that goes with it, a control point has an update outstanding; `Effect` lists
  the steps that do a part of such work, and says of all others that they do none.
* `Move.names`: the keys that come back from `readNext` and that go into `erase`.
-/

namespace Librocks.Threads

open Rocks

/-! ## Control points -/

namespace Pc

/-- The critical section of `putLock`. -/
def HoldsPut : Pc → Prop
  | .putNext .. | .putStore .. | .putAdd | .putUndo | .putUnlock _ => True
  | .clearLockTake _ | .clearTest _ | .clearStore _ | .clearUnlockTake | .clearUnlockPut => True
  | .removeNext .loop | .removeSub .loop => True
  | _ => False

/-- The critical section of `takeLock`. -/
def HoldsTake : Pc → Prop
  | .sigNotify | .sigUnlock => True
  | .waitTest _ | .waitSleep _ | .waitLast _ | .takeStore _ | .readStore _ => True
  | .eraseCheck _ | .eraseStore _ => True
  | .clearTest _ | .clearStore _ | .clearUnlockTake => True
  | .removeNext _ | .removeSub _ | .removeNotify .. | .takeUnlock _ => True
  | _ => False

/-- Keys taken from `maxKey` under which nothing was put yet. -/
def reserved : Pc → ℕ
  | .putStore .. | .putUndo => 1
  | _ => 0

/-- Messages in the Kind that `count` does not count yet. -/
def uncounted : Pc → ℕ
  | .putAdd => 1
  | _ => 0

/-- Messages gone from the Kind that `minKey` has not moved past yet. -/
def unshifted : Pc → ℕ
  | .removeNext _ => 1
  | _ => 0

/-- Messages gone from the Kind that `count` still counts. -/
def overcounted : Pc → ℕ
  | .removeNext _ | .removeSub _ => 1
  | _ => 0

/-- The store calls that are made only when there is a message. -/
def Ready : Pc → Prop
  | .takeStore _ | .readStore _ | .eraseStore _ | .clearStore _ => True
  | _ => False

theorem reserved_eq_zero (p : Pc) (h : ¬ p.HoldsPut) : p.reserved = 0 := by
  cases p <;> first | rfl | exact absurd trivial h

theorem uncounted_eq_zero (p : Pc) (h : ¬ p.HoldsPut) : p.uncounted = 0 := by
  cases p <;> first | rfl | exact absurd trivial h

theorem unshifted_eq_zero (p : Pc) (h : ¬ p.HoldsTake) : p.unshifted = 0 := by
  cases p <;> first | rfl | exact absurd trivial h

theorem overcounted_eq_zero (p : Pc) (h : ¬ p.HoldsTake) : p.overcounted = 0 := by
  cases p <;> first | rfl | exact absurd trivial h

theorem Ready.holdsTake {p : Pc} (h : p.Ready) : p.HoldsTake := by
  cases p <;> first | exact trivial | exact h.elim

theorem Ready.unshifted_eq {p : Pc} (h : p.Ready) : p.unshifted = 0 := by
  cases p <;> first | rfl | exact h.elim

theorem Ready.overcounted_eq {p : Pc} (h : p.Ready) : p.overcounted = 0 := by
  cases p <;> first | rfl | exact h.elim

end Pc

variable {T : Type} [DecidableEq T] {t : T} {ch : Choice T} {sh sh' : Shared T} {p p' : Pc}

theorem notifyOne_cases {wake : Option T} (h : sh.notifyOne wake = some sh') :
    (wake = none ∧ sh.waiters = [] ∧ sh' = sh) ∨
      ∃ u ∈ sh.waiters, wake = some u ∧ sh' = sh.wakeUp u := by
  cases wake with
  | none =>
    simp only [Shared.notifyOne] at h
    split_ifs at h with hw
    exact .inl ⟨rfl, hw, (Option.some.inj h).symm⟩
  | some u =>
    simp only [Shared.notifyOne] at h
    split_ifs at h with hw
    exact .inr ⟨u, hw, rfl, (Option.some.inj h).symm⟩

/-- A notification changes nothing but the wait queue. -/
theorem notifyOne_eq {wake : Option T} (h : sh.notifyOne wake = some sh') :
    sh' = { sh with waiters := sh'.waiters } := by
  rcases notifyOne_cases h with ⟨-, -, rfl⟩ | ⟨u, -, -, rfl⟩ <;> rfl

/-! ## The steps -/

/-- The steps of `exec`, one by one: the control points before and after, and the shared state after. -/
inductive Move (t : T) (ch : Choice T) (sh : Shared T) : Pc → Pc → Shared T → Prop
  | call : Move t ch sh .idle (ch.op.start sh.queue.isValid_)
      { sh with calls := Function.update sh.calls t (sh.calls t + 1) }
  | putLock {state : ℤ} {v : Bytes} (h : sh.putLock = none) :
      Move t ch sh (.putLock state v) (.putNext state v) { sh with putLock := some t }
  | putNext {state : ℤ} {v : Bytes} :
      Move t ch sh (.putNext state v) (.putStore state v sh.queue.maxKey)
        { sh with queue := { sh.queue with maxKey := sh.queue.maxKey + 1 } }
  | putStore {state : ℤ} {v : Bytes} {key : UInt64} {kind : Kind} {store : StoreImpl}
      (hkind : sh.queue.queueKind = some kind)
      (hput : sh.store.put ch.answers (some state) kind (some (putU64BE key)) v
        = .ok (some Status.ok, store)) :
      Move t ch sh (.putStore state v key) .putAdd { sh with store, puts := sh.puts ++ [v] }
  | putStoreFailed {state : ℤ} {v : Bytes} {key : UInt64} {kind : Kind} {st : Option ℤ}
      {store : StoreImpl} (hkind : sh.queue.queueKind = some kind)
      (hput : sh.store.put ch.answers (some state) kind (some (putU64BE key)) v = .ok (st, store))
      (hst : st ≠ some Status.ok) :
      Move t ch sh (.putStore state v key) .putUndo { sh with store }
  | putAdd : Move t ch sh .putAdd (.putUnlock sh.queue.count)
      { sh with queue := { sh.queue with
          count := sh.queue.count + 1, totalPuts_ := sh.queue.totalPuts_ + 1 } }
  | putUndo : Move t ch sh .putUndo (.putUnlock (-1))
      { sh with queue := { sh.queue with maxKey := sh.queue.maxKey - 1 } }
  | putSignals : Move t ch sh (.putUnlock 0) .sigLock { sh with putLock := none }
  | putUnlock {c : Int64} (h : c ≠ 0) : Move t ch sh (.putUnlock c) .idle { sh with putLock := none }
  | sigLock (h : sh.takeLock = none) : Move t ch sh .sigLock .sigNotify { sh with takeLock := some t }
  | sigNotify {sh' : Shared T} (h : sh.notifyOne ch.wake = some sh') :
      Move t ch sh .sigNotify .sigUnlock sh'
  | sigUnlock : Move t ch sh .sigUnlock .idle { sh with takeLock := none }
  | waitLock {w : Wait} (h : sh.takeLock = none) :
      Move t ch sh (.waitLock w) (.waitTest w) { sh with takeLock := some t }
  | waitPasses {w : Wait} (h : w.passes sh.queue.count = true) :
      Move t ch sh (.waitTest w) w.body sh
  | waitFails {w : Wait} (h : w.passes sh.queue.count = false) :
      Move t ch sh (.waitTest w) (.waitSleep w) sh
  | waitSleep {w : Wait} : Move t ch sh (.waitSleep w) (.blocked w)
      { sh with takeLock := none, waiters := t :: sh.waiters }
  | resume {w : Wait} (hw : t ∉ sh.waiters) (h : sh.takeLock = none) :
      Move t ch sh (.blocked w) (.waitTest w) { sh with takeLock := some t }
  | spurious {w : Wait} : Move t ch sh (.blocked w) (.blocked w) (sh.wakeUp t)
  | timeout {w : Wait} : Move t ch sh (.blocked w) (.timedOut w) (sh.wakeUp t)
  | timedOut {w : Wait} (h : sh.takeLock = none) :
      Move t ch sh (.timedOut w) (.waitLast w) { sh with takeLock := some t }
  | lastPasses {w : Wait} (h : w.passes sh.queue.count = true) :
      Move t ch sh (.waitLast w) w.body sh
  | lastFails {w : Wait} (h : w.passes sh.queue.count = false) :
      Move t ch sh (.waitLast w) (.takeUnlock .timedOut) sh
  | takeStore {w : Wait} {kind : Kind} {r : StoreImpl.Reply} {store : StoreImpl}
      (hkind : sh.queue.queueKind = some kind)
      (hremove : sh.store.singleRemoveIfPresent ch.answers (some w.state) kind w.valLen
        (some (putU64BE sh.queue.minKey)) = .ok (r, store)) (hst : r.status = some Status.ok) :
      Move t ch sh (.takeStore w) (.removeNext (.answer (.taken sh.queue.minKey r)))
        (sh.remove t sh.queue.minKey store)
  | takeStoreFailed {w : Wait} {kind : Kind} {r : StoreImpl.Reply} {store : StoreImpl}
      (hkind : sh.queue.queueKind = some kind)
      (hremove : sh.store.singleRemoveIfPresent ch.answers (some w.state) kind w.valLen
        (some (putU64BE sh.queue.minKey)) = .ok (r, store)) (hst : r.status ≠ some Status.ok) :
      Move t ch sh (.takeStore w) (.takeUnlock (.taken sh.queue.minKey r)) { sh with store }
  | readStore {w : Wait} {kind : Kind} {r : StoreImpl.Reply} {store : StoreImpl}
      (hkind : sh.queue.queueKind = some kind)
      (hget : sh.store.get ch.answers (some w.state) kind w.valLen
        (some (putU64BE sh.queue.minKey)) = .ok (r, store)) :
      Move t ch sh (.readStore w) (.takeUnlock (.read sh.queue.minKey r)) { sh with store }
  | eraseTest {key : UInt64} (h : key = sh.queue.minKey) :
      Move t ch sh (.eraseTest key) (.eraseLock key) sh
  | eraseRefused {key : UInt64} :
      Move t ch sh (.eraseTest key) .idle (sh.answered t (.erased key false))
  | eraseLock {key : UInt64} (h : sh.takeLock = none) :
      Move t ch sh (.eraseLock key) (.eraseCheck key) { sh with takeLock := some t }
  | eraseCheck {key : UInt64} (h : key = sh.queue.minKey) :
      Move t ch sh (.eraseCheck key) (.eraseStore key) sh
  | eraseLate {key : UInt64} (h : key ≠ sh.queue.minKey) :
      Move t ch sh (.eraseCheck key) (.takeUnlock (.erased key true)) sh
  | eraseStore {key : UInt64} {kind : Kind} {store : StoreImpl}
      (hkind : sh.queue.queueKind = some kind)
      (hremove : sh.store.singleRemove ch.answers (some Status.ok) kind (some (putU64BE key))
        = .ok (some Status.ok, store)) :
      Move t ch sh (.eraseStore key) (.removeNext (.answer (.erased key true))) (sh.remove t key store)
  | eraseStoreFailed {key : UInt64} {kind : Kind} {st : Option ℤ} {store : StoreImpl}
      (hkind : sh.queue.queueKind = some kind)
      (hremove : sh.store.singleRemove ch.answers (some Status.ok) kind (some (putU64BE key))
        = .ok (st, store)) (hst : st ≠ some Status.ok) :
      Move t ch sh (.eraseStore key) (.takeUnlock (.erased key false)) { sh with store }
  | clearLockPut {state : ℤ} (h : sh.putLock = none) :
      Move t ch sh (.clearLockPut state) (.clearLockTake state) { sh with putLock := some t }
  | clearLockTake {state : ℤ} (h : sh.takeLock = none) :
      Move t ch sh (.clearLockTake state) (.clearTest state) { sh with takeLock := some t }
  | clearTurn {state : ℤ} (h : sh.queue.count > 0) :
      Move t ch sh (.clearTest state) (.clearStore state) sh
  | clearEnds {state : ℤ} (h : ¬ sh.queue.count > 0) :
      Move t ch sh (.clearTest state) .clearUnlockTake sh
  | clearStore {state : ℤ} {kind : Kind} {store : StoreImpl}
      (hkind : sh.queue.queueKind = some kind)
      (hremove : sh.store.singleRemove ch.answers (some state) kind
        (some (putU64BE sh.queue.minKey)) = .ok (some Status.ok, store)) :
      Move t ch sh (.clearStore state) (.removeNext .loop) (sh.remove t sh.queue.minKey store)
  | clearStoreFailed {state : ℤ} {kind : Kind} {st : Option ℤ} {store : StoreImpl}
      (hkind : sh.queue.queueKind = some kind)
      (hremove : sh.store.singleRemove ch.answers (some state) kind
        (some (putU64BE sh.queue.minKey)) = .ok (st, store)) (hst : st ≠ some Status.ok) :
      Move t ch sh (.clearStore state) .clearUnlockTake { sh with store }
  | clearUnlockTake : Move t ch sh .clearUnlockTake .clearUnlockPut { sh with takeLock := none }
  | clearUnlockPut : Move t ch sh .clearUnlockPut .idle { sh with putLock := none }
  | removeNext {k : After} : Move t ch sh (.removeNext k) (.removeSub k)
      { sh with queue := { sh.queue with minKey := sh.queue.minKey + 1 } }
  | removeSub {ans : Answer} :
      Move t ch sh (.removeSub (.answer ans)) (.removeNotify ans sh.queue.count)
        { sh with queue := { sh.queue with
            count := sh.queue.count - 1, totalTakes_ := sh.queue.totalTakes_ + 1 } }
  | clearSub : Move t ch sh (.removeSub .loop) (.clearTest Status.ok)
        { sh with queue := { sh.queue with
            count := sh.queue.count - 1, totalTakes_ := sh.queue.totalTakes_ + 1 } }
  | removeNotify {ans : Answer} {c : Int64} {sh' : Shared T} (hc : c > 1)
      (h : sh.notifyOne ch.wake = some sh') :
      Move t ch sh (.removeNotify ans c) (.takeUnlock ans) sh'
  | removeSilent {ans : Answer} {c : Int64} (hc : ¬ c > 1) :
      Move t ch sh (.removeNotify ans c) (.takeUnlock ans) sh
  | takeUnlock {ans : Answer} : Move t ch sh (.takeUnlock ans) .idle
      ({ sh with takeLock := none }.answered t ans)

theorem eq_ok_of_toOption {ε α : Type} {x : Except ε α} {y : α} (h : x.toOption = some y) :
    x = .ok y := by
  cases x with
  | error e => cases h
  | ok z => cases h; rfl

/-- **Inversion.** -/
theorem exec_move (h : exec t ch sh p = some (p', sh')) : Move t ch sh p p' sh' := by
  cases p with
  | putStore state v key =>
    simp only [exec, Option.bind_eq_bind, Option.bind_eq_some_iff] at h
    obtain ⟨kind, hkind, ⟨st, store⟩, hcall, h⟩ := h
    have hput := eq_ok_of_toOption hcall
    split_ifs at h with hst <;> cases h
    · subst hst
      exact .putStore hkind hput
    · exact .putStoreFailed hkind hput hst
  | takeStore w =>
    simp only [exec, Option.bind_eq_bind, Option.bind_eq_some_iff] at h
    obtain ⟨kind, hkind, ⟨r, store⟩, hcall, h⟩ := h
    have hremove := eq_ok_of_toOption hcall
    split_ifs at h with hst <;> cases h
    · exact .takeStore hkind hremove hst
    · exact .takeStoreFailed hkind hremove hst
  | readStore w =>
    simp only [exec, Option.bind_eq_bind, Option.bind_eq_some_iff] at h
    obtain ⟨kind, hkind, ⟨r, store⟩, hcall, h⟩ := h
    cases h
    exact .readStore hkind (eq_ok_of_toOption hcall)
  | eraseStore key =>
    simp only [exec, Option.bind_eq_bind, Option.bind_eq_some_iff] at h
    obtain ⟨kind, hkind, ⟨st, store⟩, hcall, h⟩ := h
    have hremove := eq_ok_of_toOption hcall
    split_ifs at h with hst <;> cases h
    · subst hst
      exact .eraseStore hkind hremove
    · exact .eraseStoreFailed hkind hremove hst
  | clearStore state =>
    simp only [exec, Option.bind_eq_bind, Option.bind_eq_some_iff] at h
    obtain ⟨kind, hkind, ⟨st, store⟩, hcall, h⟩ := h
    have hremove := eq_ok_of_toOption hcall
    split_ifs at h with hst <;> cases h
    · subst hst
      exact .clearStore hkind hremove
    · exact .clearStoreFailed hkind hremove hst
  | blocked w =>
    simp only [exec] at h
    split at h
    · split_ifs at h with hfree
      cases h
      exact .resume hfree.1 hfree.2
    · cases h
      exact .spurious
    · split_ifs at h
      cases h
      exact .timeout
  | sigNotify =>
    simp only [exec, Option.map_eq_some_iff] at h
    obtain ⟨sh₁, hnotify, h⟩ := h
    cases h
    exact .sigNotify hnotify
  | removeNotify ans c =>
    simp only [exec] at h
    split_ifs at h with hc
    · simp only [Option.map_eq_some_iff] at h
      obtain ⟨sh₁, hnotify, h⟩ := h
      cases h
      exact .removeNotify hc hnotify
    · cases h
      exact .removeSilent hc
  | removeSub k =>
    cases k with
    | answer ans => cases h; exact .removeSub
    | loop => cases h; exact .clearSub
  | waitTest w =>
    simp only [exec] at h
    cases hw : w.passes sh.queue.count <;> rw [hw] at h <;> cases h
    · exact .waitFails hw
    · exact .waitPasses hw
  | waitLast w =>
    simp only [exec] at h
    cases hw : w.passes sh.queue.count <;> rw [hw] at h <;> cases h
    · exact .lastFails hw
    · exact .lastPasses hw
  | putUnlock c =>
    simp only [exec] at h
    split_ifs at h with hc <;> cases h
    · subst hc
      exact .putSignals
    · exact .putUnlock hc
  | eraseTest key =>
    simp only [exec] at h
    split_ifs at h with hkey <;> cases h
    · exact .eraseTest hkey.2
    · exact .eraseRefused
  | eraseCheck key =>
    simp only [exec] at h
    split_ifs at h with hkey <;> cases h
    · exact .eraseCheck hkey
    · exact .eraseLate hkey
  | clearTest state =>
    simp only [exec] at h
    split_ifs at h with hcount <;> cases h
    · exact .clearTurn hcount
    · exact .clearEnds hcount
  | putLock state v | sigLock | waitLock w | timedOut w | eraseLock key | clearLockPut state
  | clearLockTake state =>
    simp only [exec] at h
    split_ifs at h with hfree
    cases h
    constructor
    exact hfree
  | idle | putNext state v | putAdd | putUndo | sigUnlock | waitSleep w | clearUnlockTake
  | clearUnlockPut | removeNext k | takeUnlock ans =>
    cases h
    constructor

/-! ## The locks -/

theorem Wait.holdsTake_body (w : Wait) : w.body.HoldsTake := by
  cases w with
  | mk consumer => cases consumer <;> exact trivial

theorem Wait.not_holdsPut_body (w : Wait) : ¬ w.body.HoldsPut := by
  cases w with
  | mk consumer => cases consumer <;> exact id

theorem Op.start_free (op : Op) (valid : Bool) :
    ¬ (op.start valid).HoldsPut ∧ ¬ (op.start valid).HoldsTake := by
  cases op <;> cases valid <;> exact ⟨id, id⟩

theorem Move.putLock_move (h : Move t ch sh p p' sh') :
    Mutex.Move Pc.HoldsPut t p p' sh.putLock sh'.putLock := by
  cases h with
  | call => exact .keep ⟨fun hp => absurd hp (Op.start_free _ _).1, fun hp => hp.elim⟩
  | waitPasses | lastPasses =>
    exact .keep ⟨fun hp => absurd hp (Wait.not_holdsPut_body _), fun hp => hp.elim⟩
  | putLock hfree | clearLockPut hfree => rw [hfree]; exact .acquire trivial
  | putSignals | putUnlock | clearUnlockPut => exact .release trivial id
  | sigNotify hn | removeNotify _ hn => rw [notifyOne_eq hn]; exact .keep .rfl
  | removeNext =>
    rename_i k
    cases k <;> exact .keep .rfl
  | _ => exact .keep .rfl

theorem Move.takeLock_move (h : Move t ch sh p p' sh') :
    Mutex.Move Pc.HoldsTake t p p' sh.takeLock sh'.takeLock := by
  cases h with
  | call => exact .keep ⟨fun hp => absurd hp (Op.start_free _ _).2, fun hp => hp.elim⟩
  | waitPasses | lastPasses => exact .keep ⟨fun _ => trivial, fun _ => Wait.holdsTake_body _⟩
  | sigLock hfree | waitLock hfree | timedOut hfree | eraseLock hfree | clearLockTake hfree =>
    rw [hfree]
    exact .acquire trivial
  | resume _ hfree => rw [hfree]; exact .acquire trivial
  | sigUnlock | waitSleep | clearUnlockTake | takeUnlock => exact .release trivial id
  | sigNotify hn | removeNotify _ hn => rw [notifyOne_eq hn]; exact .keep .rfl
  | _ => exact .keep .rfl

/-! ## The queue object and its Kind -/

/-- A step that does no part of a put or a removal. If it leads to a store call that needs a message,
the count or the second test of `erase` allowed it. -/
structure Silent (p p' : Pc) (sh sh' : Shared T) : Prop where
  queue : sh'.queue = sh.queue
  puts : sh'.puts = sh.puts
  removals : sh'.removals = sh.removals
  reserved : p'.reserved = p.reserved
  uncounted : p'.uncounted = p.uncounted
  unshifted : p'.unshifted = p.unshifted
  overcounted : p'.overcounted = p.overcounted
  put : ∀ state v key, p' ≠ .putStore state v key
  erase : ∀ key, p' = .eraseStore key → key = sh.queue.minKey
  ready : p'.Ready → p.HoldsTake ∧ p.overcounted = 0 ∧ p.unshifted = 0 ∧
    (sh.queue.count ≠ 0 ∨ ∃ key, p = .eraseCheck key ∧ key = sh.queue.minKey)

/-- What a step does to the queue object and to the database behind its Kind `kd`. -/
inductive Effect (kd : KindImpl) (t : T) (sh : Shared T) (db : Db) :
    Pc → Pc → Shared T → Db → Prop
  | silent {p p' : Pc} {sh' : Shared T} {db' : Db} (h : Silent p p' sh sh')
      (hdb : StoreImpl.SameContent db db') : Effect kd t sh db p p' sh' db'
  | reserve {state : ℤ} {v : Bytes} :
      Effect kd t sh db (.putNext state v) (.putStore state v sh.queue.maxKey)
        { sh with queue := { sh.queue with maxKey := sh.queue.maxKey + 1 } } db
  | undo : Effect kd t sh db .putUndo (.putUnlock (-1))
        { sh with queue := { sh.queue with maxKey := sh.queue.maxKey - 1 } } db
  | put {state : ℤ} {v : Bytes} {key : UInt64} {store : StoreImpl} {db' : Db}
      (hw : StoreImpl.Wrote (.put kd.handle (putU64BE key) v) db db') :
      Effect kd t sh db (.putStore state v key) .putAdd
        { sh with store, puts := sh.puts ++ [v] } db'
  | add : Effect kd t sh db .putAdd (.putUnlock sh.queue.count)
        { sh with queue := { sh.queue with
            count := sh.queue.count + 1, totalPuts_ := sh.queue.totalPuts_ + 1 } } db
  | remove {p : Pc} {k : After} {key : UInt64} {undefined : Option Bytes} {store : StoreImpl}
      {db' : Db} (hp : p.Ready) (hput : p.reserved = 0 ∧ p.uncounted = 0)
      (hkey : p = .eraseStore key ∨ key = sh.queue.minKey)
      (hw : StoreImpl.Wrote (.singleDelete kd.handle (putU64BE key) undefined) db db') :
      Effect kd t sh db p (.removeNext k) (sh.remove t key store) db'
  | shift {k : After} : Effect kd t sh db (.removeNext k) (.removeSub k)
        { sh with queue := { sh.queue with minKey := sh.queue.minKey + 1 } } db
  | sub {k : After} {p' : Pc} (hp' : ¬ p'.Ready)
      (hput : p'.reserved = 0 ∧ p'.uncounted = 0) (htake : p'.unshifted = 0 ∧ p'.overcounted = 0)
      (hstore : ∀ state v key, p' ≠ .putStore state v key) :
      Effect kd t sh db (.removeSub k) p' { sh with queue := { sh.queue with
          count := sh.queue.count - 1, totalTakes_ := sh.queue.totalTakes_ + 1 } } db

theorem Wait.passes_ne_zero {w : Wait} {count : Int64} (h : w.passes count = true) : count ≠ 0 := by
  intro h0
  subst h0
  cases w with
  | mk consumer => cases consumer <;> exact absurd h (by simp [Wait.passes])

omit [DecidableEq T] in
/-- A wait that ends leads to a store call and does nothing else. -/
theorem Silent.of_passes {w : Wait} (h : w.passes sh.queue.count = true) (hp : p.HoldsTake)
    (hr : p.reserved = 0) (hu : p.uncounted = 0) (hd : p.unshifted = 0) (hc : p.overcounted = 0) :
    Silent p w.body sh sh := by
  cases w with
  | mk consumer state valLen =>
    have hne := Wait.passes_ne_zero h
    cases consumer <;>
      exact { queue := rfl, puts := rfl, removals := rfl, reserved := hr.symm, uncounted := hu.symm,
              unshifted := hd.symm, overcounted := hc.symm, put := fun _ _ _ => Pc.noConfusion,
              erase := fun _ => Pc.noConfusion, ready := fun _ => ⟨hp, hc, hd, .inl hne⟩ }

omit [DecidableEq T] in
/-- A step between control points without outstanding updates that does not lead to a store call. -/
theorem Silent.of_quiet (hq : sh'.queue = sh.queue) (hputs : sh'.puts = sh.puts)
    (hrem : sh'.removals = sh.removals) (hr : p'.reserved = p.reserved)
    (hu : p'.uncounted = p.uncounted) (hd : p'.unshifted = p.unshifted)
    (hc : p'.overcounted = p.overcounted) (hput : ∀ state v key, p' ≠ .putStore state v key)
    (hready : ¬ p'.Ready) : Silent p p' sh sh' where
  queue := hq
  puts := hputs
  removals := hrem
  reserved := hr
  uncounted := hu
  unshifted := hd
  overcounted := hc
  put := hput
  erase key he := by subst he; exact absurd trivial hready
  ready h := absurd h hready

omit [DecidableEq T] in
/-- A call starts without outstanding updates. -/
theorem Silent.of_start (op : Op) (valid : Bool) (hq : sh'.queue = sh.queue)
    (hputs : sh'.puts = sh.puts) (hrem : sh'.removals = sh.removals) :
    Silent .idle (op.start valid) sh sh' := by
  cases op <;> cases valid <;>
    exact .of_quiet hq hputs hrem rfl rfl rfl rfl (fun _ _ _ => Pc.noConfusion) id

/-! ### Store calls -/

variable {kd : KindImpl} {s store : StoreImpl} {db : Db} {a : Answers} {c : ℤ} {st : Option ℤ}

/-- A `put` or `singleRemove` that returned: with Ok it committed its write, else it changed
nothing. -/
theorem voidWrite_cases (hopen : s.OpenWith db) (write : Bytes → Handle → Write) {key : Bytes}
    (h : s.voidOp (fun status key s => s.txWrite a (write key) status (.impl kd)) (some c) (.impl kd)
      (some key) = .ok (st, store)) :
    ∃ db', store.OpenWith db' ∧
      ((st = some Status.ok ∧ StoreImpl.Wrote (write key kd.handle) db db') ∨
        (st ≠ some Status.ok ∧ StoreImpl.SameContent db db')) := by
  obtain ⟨st', s', db', hrun, hres⟩ :=
    StoreImpl.voidWrite_open hopen a write (some c) (.impl kd) (some key)
  obtain ⟨rfl, rfl⟩ := Prod.mk.inj (Except.ok.inj (hrun.symm.trans h))
  rcases hres with ⟨c', hc, rfl, hu⟩ | ⟨k, key', hk, hkey, rfl, hcom⟩
  · exact ⟨db', hu.toOpenWith, .inr ⟨by simpa using hc, hu.content⟩⟩
  · cases hk
    cases hkey
    exact ⟨db', hcom.toOpenWith, .inl ⟨rfl, hcom.toWrote⟩⟩

theorem put_cases (hopen : s.OpenWith db) {key v : Bytes}
    (h : s.put a (some c) (.impl kd) (some key) v = .ok (st, store)) :
    ∃ db', store.OpenWith db' ∧
      ((st = some Status.ok ∧ StoreImpl.Wrote (.put kd.handle key v) db db') ∨
        (st ≠ some Status.ok ∧ StoreImpl.SameContent db db')) :=
  voidWrite_cases hopen (fun key fam => .put fam key v) h

theorem singleRemove_cases (hopen : s.OpenWith db) {key : Bytes}
    (h : s.singleRemove a (some c) (.impl kd) (some key) = .ok (st, store)) :
    ∃ db', store.OpenWith db' ∧
      ((st = some Status.ok ∧ StoreImpl.Wrote (.singleDelete kd.handle key a.undefined) db db') ∨
        (st ≠ some Status.ok ∧ StoreImpl.SameContent db db')) :=
  voidWrite_cases hopen (fun key fam => .singleDelete fam key a.undefined) h

theorem singleRemoveIfPresent_cases (hopen : s.OpenWith db) {key : Bytes} {len : Option ℕ}
    {r : StoreImpl.Reply}
    (h : s.singleRemoveIfPresent a (some c) (.impl kd) len (some key) = .ok (r, store)) :
    ∃ db', store.OpenWith db' ∧
      ((r.status = some Status.ok ∧
          StoreImpl.Wrote (.singleDelete kd.handle key a.undefined) db db') ∨
        (r.status ≠ some Status.ok ∧ StoreImpl.SameContent db db')) := by
  obtain ⟨r', s', db', hrun, hres⟩ :=
    StoreImpl.ifPresent_open hopen a (fun key fam => .singleDelete fam key a.undefined) (some c)
      (.impl kd) len (some key)
  obtain ⟨rfl, rfl⟩ := Prod.mk.inj (Except.ok.inj (hrun.symm.trans h))
  rcases hres with ⟨c', hc, hst, hu⟩ | ⟨k, key', m, hk, hkey, hst, -, -, -, hcom⟩
  · exact ⟨db', hu.toOpenWith, .inr ⟨by rw [hst]; simpa using hc, hu.content⟩⟩
  · cases hk
    cases hkey
    exact ⟨db', hcom.toOpenWith, .inl ⟨hst, hcom.toWrote⟩⟩

theorem get_eq_self (hopen : s.OpenWith db) {key : Bytes} {len : Option ℕ} {r : StoreImpl.Reply}
    (h : s.get a (some c) (.impl kd) len (some key) = .ok (r, store)) : store = s := by
  obtain ⟨r', hrun, -⟩ := StoreImpl.get_open hopen a (some c) (.impl kd) len (some key)
  exact (Prod.mk.inj (Except.ok.inj (hrun.symm.trans h))).2.symm

/-- The store call of this step, if it makes one, reports Ok. -/
def Granted (p : Pc) (sh : Shared T) (ch : Choice T) : Prop :=
  ∀ kind, sh.queue.queueKind = some kind →
    match p with
    | .putStore state v key => ∀ st s,
        sh.store.put ch.answers (some state) kind (some (putU64BE key)) v = .ok (st, s) →
          st = some Status.ok
    | .takeStore w => ∀ r s,
        sh.store.singleRemoveIfPresent ch.answers (some w.state) kind w.valLen
          (some (putU64BE sh.queue.minKey)) = .ok (r, s) → r.status = some Status.ok
    | .readStore w => ∀ r s,
        sh.store.get ch.answers (some w.state) kind w.valLen
          (some (putU64BE sh.queue.minKey)) = .ok (r, s) → r.status = some Status.ok
    | .eraseStore key => ∀ st s,
        sh.store.singleRemove ch.answers (some Status.ok) kind (some (putU64BE key)) = .ok (st, s) →
          st = some Status.ok
    | .clearStore state => ∀ st s,
        sh.store.singleRemove ch.answers (some state) kind (some (putU64BE sh.queue.minKey))
          = .ok (st, s) → st = some Status.ok
    | _ => True

/-- **Every step is one of the effects.** -/
theorem Move.effect (h : Move t ch sh p p' sh') (hkd : sh.queue.queueKind = some (.impl kd))
    (hopen : sh.store.OpenWith db) :
    ∃ db', sh'.store.OpenWith db' ∧ Effect kd t sh db p p' sh' db' := by
  have hsame : StoreImpl.SameContent db db := .refl db
  cases h with
  | putNext => exact ⟨db, hopen, .reserve⟩
  | putUndo => exact ⟨db, hopen, .undo⟩
  | putAdd => exact ⟨db, hopen, .add⟩
  | removeNext => exact ⟨db, hopen, .shift⟩
  | removeSub | clearSub =>
    exact ⟨db, hopen, .sub id ⟨rfl, rfl⟩ ⟨rfl, rfl⟩ fun _ _ _ => Pc.noConfusion⟩
  | putStore hkind hput =>
    obtain rfl := Option.some.inj (hkind.symm.trans hkd)
    obtain ⟨db', hopen', ⟨-, hw⟩ | ⟨hst, -⟩⟩ := put_cases hopen hput
    · exact ⟨db', hopen', .put hw⟩
    · exact absurd rfl hst
  | putStoreFailed hkind hput hst =>
    obtain rfl := Option.some.inj (hkind.symm.trans hkd)
    obtain ⟨db', hopen', ⟨hok, -⟩ | ⟨-, hdb⟩⟩ := put_cases hopen hput
    · exact absurd hok hst
    · exact ⟨db', hopen', .silent (.of_quiet rfl rfl rfl rfl rfl rfl rfl
        (fun _ _ _ => Pc.noConfusion) id) hdb⟩
  | takeStore hkind hremove hst =>
    obtain rfl := Option.some.inj (hkind.symm.trans hkd)
    obtain ⟨db', hopen', ⟨-, hw⟩ | ⟨hno, -⟩⟩ := singleRemoveIfPresent_cases hopen hremove
    · exact ⟨db', hopen', .remove trivial ⟨rfl, rfl⟩ (.inr rfl) hw⟩
    · exact absurd hst hno
  | takeStoreFailed hkind hremove hst =>
    obtain rfl := Option.some.inj (hkind.symm.trans hkd)
    obtain ⟨db', hopen', ⟨hok, -⟩ | ⟨-, hdb⟩⟩ := singleRemoveIfPresent_cases hopen hremove
    · exact absurd hok hst
    · exact ⟨db', hopen', .silent (.of_quiet rfl rfl rfl rfl rfl rfl rfl
        (fun _ _ _ => Pc.noConfusion) id) hdb⟩
  | readStore hkind hget =>
    obtain rfl := Option.some.inj (hkind.symm.trans hkd)
    obtain rfl := get_eq_self hopen hget
    exact ⟨db, hopen, .silent (.of_quiet rfl rfl rfl rfl rfl rfl rfl
      (fun _ _ _ => Pc.noConfusion) id) hsame⟩
  | eraseStore hkind hremove =>
    obtain rfl := Option.some.inj (hkind.symm.trans hkd)
    obtain ⟨db', hopen', ⟨-, hw⟩ | ⟨hst, -⟩⟩ := singleRemove_cases hopen hremove
    · exact ⟨db', hopen', .remove trivial ⟨rfl, rfl⟩ (.inl rfl) hw⟩
    · exact absurd rfl hst
  | eraseStoreFailed hkind hremove hst =>
    obtain rfl := Option.some.inj (hkind.symm.trans hkd)
    obtain ⟨db', hopen', ⟨hok, -⟩ | ⟨-, hdb⟩⟩ := singleRemove_cases hopen hremove
    · exact absurd hok hst
    · exact ⟨db', hopen', .silent (.of_quiet rfl rfl rfl rfl rfl rfl rfl
        (fun _ _ _ => Pc.noConfusion) id) hdb⟩
  | clearStore hkind hremove =>
    obtain rfl := Option.some.inj (hkind.symm.trans hkd)
    obtain ⟨db', hopen', ⟨-, hw⟩ | ⟨hst, -⟩⟩ := singleRemove_cases hopen hremove
    · exact ⟨db', hopen', .remove trivial ⟨rfl, rfl⟩ (.inr rfl) hw⟩
    · exact absurd rfl hst
  | clearStoreFailed hkind hremove hst =>
    obtain rfl := Option.some.inj (hkind.symm.trans hkd)
    obtain ⟨db', hopen', ⟨hok, -⟩ | ⟨-, hdb⟩⟩ := singleRemove_cases hopen hremove
    · exact absurd hok hst
    · exact ⟨db', hopen', .silent (.of_quiet rfl rfl rfl rfl rfl rfl rfl
        (fun _ _ _ => Pc.noConfusion) id) hdb⟩
  | waitPasses h | lastPasses h =>
    exact ⟨db, hopen, .silent (.of_passes h trivial rfl rfl rfl rfl) hsame⟩
  | clearTurn h =>
    have hne : sh.queue.count ≠ 0 := fun h0 => by rw [h0] at h; exact absurd h (by decide)
    exact ⟨db, hopen, .silent
      { queue := rfl, puts := rfl, removals := rfl, reserved := rfl, uncounted := rfl,
        unshifted := rfl, overcounted := rfl, put := fun _ _ _ => Pc.noConfusion,
        erase := fun _ => Pc.noConfusion, ready := fun _ => ⟨trivial, rfl, rfl, .inl hne⟩ } hsame⟩
  | eraseCheck h =>
    exact ⟨db, hopen, .silent
      { queue := rfl, puts := rfl, removals := rfl, reserved := rfl, uncounted := rfl,
        unshifted := rfl, overcounted := rfl, put := fun _ _ _ => Pc.noConfusion,
        erase := fun _ he => by cases he; exact h
        ready := fun _ => ⟨trivial, rfl, rfl, .inr ⟨_, rfl, h⟩⟩ } hsame⟩
  | sigNotify hn | removeNotify _ hn =>
    rw [notifyOne_eq hn]
    exact ⟨db, hopen, .silent (.of_quiet rfl rfl rfl rfl rfl rfl rfl
      (fun _ _ _ => Pc.noConfusion) id) hsame⟩
  | call =>
    exact ⟨db, hopen, .silent (.of_start _ _ rfl rfl rfl) hsame⟩
  | _ =>
    exact ⟨db, hopen, .silent (.of_quiet rfl rfl rfl rfl rfl rfl rfl
      (fun _ _ _ => Pc.noConfusion) id) hsame⟩

/-! ## The keys that `readNext` returns -/

/-- The key of an answer of `readNext`. -/
def Answer.Names (key : UInt64) : Answer → Prop
  | .read k r => k = key ∧ r.status = some Status.ok
  | _ => False

/-- The keys that a control point carries out of a `readNext` or into an `erase`. -/
def Pc.Names (key : UInt64) : Pc → Prop
  | .eraseTest k | .eraseLock k | .eraseCheck k | .eraseStore k => k = key
  | .removeNext (.answer ans) | .removeSub (.answer ans) => ans.Names key
  | .removeNotify ans _ | .takeUnlock ans => ans.Names key
  | _ => False

/-- Some `readNext` returned the key. -/
def Shared.Returned (sh : Shared T) (key : UInt64) : Prop :=
  ∃ ret ∈ sh.returns, ret.answer.Names key

omit [DecidableEq T] in
theorem Shared.returned_answered {key : UInt64} {ans : Answer}
    (h : (sh.answered t ans).Returned key) : sh.Returned key ∨ ans.Names key := by
  obtain ⟨ret, hret, hans⟩ := h
  rcases List.mem_append.mp hret with hold | hnew
  · exact .inl ⟨ret, hold, hans⟩
  · obtain rfl := List.mem_singleton.mp hnew
    exact .inr hans

/-- A key is named after a step if it was named before, if `erase` is called with it, or if a
`readNext` has just read the message under `minKey`. -/
theorem Move.names {key : UInt64} (h : Move t ch sh p p' sh')
    (hn : p'.Names key ∨ sh'.Returned key) :
    (p.Names key ∨ sh.Returned key) ∨ (p = .idle ∧ ch.op = .erase key) ∨
      (p.Ready ∧ key = sh.queue.minKey ∧ sh'.queue = sh.queue ∧ p.unshifted = 0) := by
  cases h with
  | call =>
    rcases hn with hp | hr
    · cases hop : ch.op with
      | erase k =>
        rw [hop] at hp
        exact .inr (.inl ⟨rfl, by rw [show k = key from hp]⟩)
      | put | consume | clear =>
        rw [hop] at hp
        cases hv : sh.queue.isValid_ <;> rw [hv] at hp <;> exact hp.elim
    · exact .inl (.inr hr)
  | readStore =>
    rcases hn with ⟨rfl, -⟩ | hr
    · exact .inr (.inr ⟨trivial, rfl, rfl, rfl⟩)
    · exact .inl (.inr hr)
  | takeUnlock =>
    rcases hn with hp | hr
    · exact hp.elim
    · exact .inl (Shared.returned_answered hr).symm
  | eraseRefused =>
    rcases hn with hp | hr
    · exact hp.elim
    · exact .inl (.inr ((Shared.returned_answered hr).resolve_right id))
  | waitPasses | lastPasses =>
    rename_i w _
    cases w with
    | mk consumer => cases consumer <;> exact .inl (hn.imp False.elim id)
  | sigNotify hnot =>
    rw [notifyOne_eq hnot] at hn
    exact .inl (hn.imp False.elim id)
  | removeNotify _ hnot =>
    rw [notifyOne_eq hnot] at hn
    exact .inl hn
  | removeNext =>
    rename_i k
    cases k <;> exact .inl hn
  | eraseTest | eraseLock | eraseCheck | removeSub | removeSilent => exact .inl hn
  | _ => exact .inl (hn.imp False.elim id)

end Librocks.Threads
