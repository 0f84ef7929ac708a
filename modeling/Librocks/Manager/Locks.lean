import Librocks.Common.LockOrder
import Librocks.Manager.Blind

/-!
# The lock protocol

Reference: `include/impl/utils.h`, `include/impl/KueueImpl.h`, `include/impl/KueueManagerImpl.h`,
`src/impl/StoreImpl.cpp`.

What every public operation acquires and releases. There is one manager with its monitor, one store
with its monitor, and any number of queues with two locks each. The order is: manager, `putLock`,
`takeLock`, store. `locks_never_deadlock` follows from the check of each operation against that order.

Nothing inside a section on the store's monitor locks again: `put_`, `get_`, `validateOpen` and the
other helpers take no mutex, which is what makes the plain mutex behind `synchronize` enough.
-/

namespace Librocks

/-- The mutexes. -/
inductive Lock (Q : Type)
  | manager
  | putLock (q : Q)
  | takeLock (q : Q)
  | store
  deriving DecidableEq

/-- The order in which they are nested. -/
def Lock.rank {Q : Type} : Lock Q → Fin 4
  | .manager => 0
  | .putLock _ => 1
  | .takeLock _ => 2
  | .store => 3

open LockProg

variable {Q : Type}

/-! ## The store -/

/-- `synchronize(monitor)` around a body that takes no further lock. -/
def storeSection : LockProg (Lock Q) := .guard .store .skip

/-- The same in a method that returns before it locks if an argument is refused. -/
def checkedSection : LockProg (Lock Q) := .optional storeSection

/-- The methods of `StoreImpl`. -/
def StoreImpl.Call.locks : StoreImpl.Call → LockProg (Lock Q)
  | .put .. | .remove .. | .singleRemove .. | .removeRange .. | .get .. | .updateIfPresent ..
  | .singleRemoveIfPresent .. | .removeIfPresent .. | .putIfAbsent .. | .findMinKey ..
  | .findMaxKey .. | .compact .. => checkedSection
  | .getKinds _ | .getDefaultKind _ | .getOrCreateKind .. | .compactAll _ | .syncWAL | .flush
  | .flushNoWait | .close => storeSection
  | .getKindManager _ => .skip

/-! ## Queues -/

/-- `signalNotEmpty`. -/
def KueueImpl.signalNotEmptyLocks (q : Q) : LockProg (Lock Q) := .guard (.takeLock q) .skip

/-- The loop around `notEmpty.wait`, with or without a timeout. -/
def KueueImpl.waitLocks (q : Q) : LockProg (Lock Q) := .loop (.wait (.takeLock q))

/-- The methods of `KueueImpl`. On a queue that is not valid they return without locking. -/
def KueueImpl.Call.locks (q : Q) : KueueImpl.Call → LockProg (Lock Q)
  | .put .. =>
      .optional (.seq
        (.guard (.putLock q) checkedSection) -- `store->put`
        (.optional (KueueImpl.signalNotEmptyLocks q)))
  | .take .. =>
      .optional (.guard (.takeLock q) (.seq
        (KueueImpl.waitLocks q)
        checkedSection)) -- `store->singleRemoveIfPresent`
  | .takeTimed .. =>
      -- after a timeout the store is not called
      .optional (.guard (.takeLock q) (.seq
        (KueueImpl.waitLocks q)
        (.optional checkedSection)))
  | .readNext .. =>
      .optional (.guard (.takeLock q) (.seq
        (KueueImpl.waitLocks q)
        (.optional checkedSection))) -- `store->get`
  | .erase _ =>
      -- the key is compared again under the lock
      .optional (.guard (.takeLock q) (.optional checkedSection))
  | .clear _ =>
      .optional (.guard (.putLock q) (.guard (.takeLock q)
        (.loop checkedSection))) -- `store->singleRemove`

/-- The constructor of `KueueImpl`: each call to the store is made only if the one before succeeded. -/
def KueueImpl.newLocks : LockProg (Lock Q) :=
  .optional (.seq
    storeSection -- `manager.getOrCreateKind`
    (.optional (.seq
      checkedSection -- `store->findMinKey`
      (.optional checkedSection)))) -- `store->findMaxKey`

/-! ## The manager -/

/-- The methods of `KueueManagerImpl`, which hold the monitor while they use the store. -/
def KueueManagerImpl.Method.locks : KueueManagerImpl.Method → LockProg (Lock Q)
  | .get _ =>
      -- closed, found, or built
      .guard .manager (.optional (.optional KueueImpl.newLocks))
  | .compactAll => .guard .manager (.optional storeSection)
  | .syncWal => .guard .manager (.optional storeSection)

/-- `close`: an open store is closed by its destructor. -/
def KueueManagerImpl.closeLocks : LockProg (Lock Q) := .guard .manager (.optional (.optional storeSection))

/-- Everything that a thread can call. -/
def operations (Q : Type) : Set (LockProg (Lock Q)) :=
  {p | (∃ c : StoreImpl.Call, p = c.locks) ∨ (∃ (q : Q) (c : KueueImpl.Call), p = c.locks q) ∨
    (∃ o : KueueManagerImpl.Method, p = o.locks) ∨ p = KueueManagerImpl.closeLocks}

/-! ## The order is kept -/

section Order

variable [DecidableEq Q] {held : List (Lock Q)}

/-- The store can be called wherever its monitor is not held. -/
theorem check_storeSection (hlt : ∀ h ∈ held, h.rank < Lock.rank (Q := Q) .store) :
    storeSection.check Lock.rank held = some held :=
  check_guard hlt rfl

theorem check_checkedSection (hlt : ∀ h ∈ held, h.rank < Lock.rank (Q := Q) .store) :
    checkedSection.check Lock.rank held = some held :=
  check_optional (check_storeSection hlt)

theorem check_waitLocks (q : Q) :
    (KueueImpl.waitLocks q).check Lock.rank [.takeLock q] = some [.takeLock q] :=
  check_loop (if_pos rfl)

theorem check_queue (q : Q) (c : KueueImpl.Call) : (c.locks q).check Lock.rank [] = some [] := by
  have htake : ∀ h ∈ [Lock.takeLock q], h.rank < Lock.rank (Q := Q) .store := by simp [Lock.rank]
  have hput : ∀ h ∈ [Lock.putLock q], h.rank < Lock.rank (Q := Q) .store := by simp [Lock.rank]
  have hput' : ∀ h ∈ [Lock.putLock q], h.rank < Lock.rank (.takeLock q) := by simp [Lock.rank]
  have hboth : ∀ h ∈ [Lock.takeLock q, Lock.putLock q], h.rank < Lock.rank (Q := Q) .store := by
    simp [Lock.rank]
  cases c with
  | put =>
    refine check_optional (check_seq (check_guard (by simp) (check_checkedSection hput)) ?_)
    exact check_optional (check_guard (by simp) rfl)
  | take =>
    refine check_optional (check_guard (by simp) (check_seq (check_waitLocks q) ?_))
    exact check_checkedSection htake
  | takeTimed | readNext =>
    refine check_optional (check_guard (by simp) (check_seq (check_waitLocks q) ?_))
    exact check_optional (check_checkedSection htake)
  | erase =>
    exact check_optional (check_guard (by simp) (check_optional (check_checkedSection htake)))
  | clear =>
    refine check_optional (check_guard (by simp) (check_guard hput' ?_))
    exact check_loop (check_checkedSection hboth)

theorem check_manager (o : KueueManagerImpl.Method) :
    (o.locks (Q := Q)).check Lock.rank [] = some [] := by
  have hmanager : ∀ h ∈ [(Lock.manager : Lock Q)], h.rank < Lock.rank (Q := Q) .store := by simp [Lock.rank]
  cases o with
  | get id =>
    refine check_guard (by simp) (check_optional (check_optional ?_))
    refine check_optional (check_seq (check_storeSection hmanager) (check_optional ?_))
    exact check_seq (check_checkedSection hmanager) (check_optional (check_checkedSection hmanager))
  | compactAll | syncWal =>
    exact check_guard (by simp) (check_optional (check_storeSection hmanager))

/-- **Every operation keeps to the order**, and ends with nothing held. -/
theorem check_operations (p : LockProg (Lock Q)) (hp : p ∈ operations Q) :
    p.check Lock.rank [] = some [] := by
  rcases hp with ⟨c, rfl⟩ | ⟨q, c, rfl⟩ | ⟨o, rfl⟩ | rfl
  · have hnone : ∀ h ∈ ([] : List (Lock Q)), h.rank < Lock.rank (Q := Q) .store := by simp
    cases c with
    | getKindManager => rfl
    | put | remove | singleRemove | removeRange | get | updateIfPresent | singleRemoveIfPresent
    | removeIfPresent | putIfAbsent | findMinKey | findMaxKey | compact =>
      exact check_checkedSection hnone
    | getKinds | getDefaultKind | getOrCreateKind | compactAll | syncWAL | flush | flushNoWait
    | close => exact check_storeSection hnone
  · exact check_queue q c
  · exact check_manager o
  · refine check_guard (by simp) (check_optional (check_optional (check_storeSection ?_)))
    simp [Lock.rank]

end Order

/-- **The lock protocol is free of deadlock.** Any number of threads, queues and operations, in any
interleaving: no thread acquires a mutex that it holds, a thread that is blocked in `notEmpty`'s wait
holds no mutex, and there is no set of threads each of which waits for a mutex held in the set. -/
theorem locks_never_deadlock {T : Type} [DecidableEq T] [DecidableEq Q] {ts : List T}
    {x : T → LockThread (Lock Q)}
    (hrun : Run (LockThread.Step (operations Q)) (fun _ => {}) ts x) :
    (∀ t l, (x t).Wants l → l ∉ (x t).held) ∧
      (∀ t, (x t).Asleep → (x t).held = []) ∧
      ∀ S : Set T, S.Nonempty → ¬ ∀ t ∈ S, ∃ l, (x t).Wants l ∧ ∃ u ∈ S, l ∈ (x u).held := by
  have hidle : LockThread.Disciplined Lock.rank (fun _ : T => ({} : LockThread (Lock Q))) :=
    LockThread.disciplined_idle
  have h := hidle.run check_operations hrun
  exact ⟨fun _ _ hw => h.not_held_of_wants hw, fun _ hs => h.held_eq_nil_of_asleep hs,
    fun S hne => h.not_circular S hne⟩

/-- A run in which one thread sleeps in `take` while another is inside `put`. -/
private theorem take_put_run :
    ∃ (ts : List Bool) (x : Bool → LockThread (Lock Unit)),
      Run (LockThread.Step (operations Unit)) (fun _ => {}) ts x ∧
        (x false).Asleep ∧ (x true).held = [.putLock ()] := by
  have htake : (KueueImpl.Call.take none none).locks () ∈ operations Unit := .inr (.inl ⟨(), _, rfl⟩)
  have hput : (KueueImpl.Call.put none []).locks () ∈ operations Unit := .inr (.inl ⟨(), _, rfl⟩)
  apply Exists.intro
  apply Exists.intro
  apply And.intro
  case left =>
    -- the taker, up to its wait
    apply Run.cons (LockThread.Step.begin (t := false) rfl htake)
    apply Run.cons (LockThread.Step.of_not_acquire (t := false) (.right _ _) (by simp))
    apply Run.cons (LockThread.Step.go (t := false) (.seq (.acquire _)) fun l hl u => by
      cases hl; cases u <;> simp [Function.update, Act.after])
    apply Run.cons (LockThread.Step.of_not_acquire (t := false) (.next _) (by simp))
    apply Run.cons (LockThread.Step.of_not_acquire (t := false) (.seq (.seq (.turn _))) (by simp))
    apply Run.cons (LockThread.Step.of_not_acquire (t := false) (.seq (.seq (.seq (.wait _)))) (by simp))
    -- the putter, up to its first lock
    apply Run.cons (LockThread.Step.begin (t := true) rfl hput)
    apply Run.cons (LockThread.Step.of_not_acquire (t := true) (.right _ _) (by simp))
    apply Run.cons (LockThread.Step.go (t := true) (.seq (.seq (.acquire _))) fun l hl u => by
      cases hl; cases u <;> simp [Function.update, Act.after])
    exact .nil _
  case right => exact ⟨⟨_, .seq (.seq (.seq (.wake _)))⟩, rfl⟩

/-- The sleeping taker holds nothing, and the two do not wait for each other. -/
theorem locks_never_deadlock_take_put :
    ∃ (ts : List Bool) (x : Bool → LockThread (Lock Unit)),
      Run (LockThread.Step (operations Unit)) (fun _ => {}) ts x ∧
        (x false).Asleep ∧ (x false).held = [] ∧ (x true).held = [.putLock ()] := by
  obtain ⟨ts, x, hrun, hasleep, hheld⟩ := take_put_run
  exact ⟨ts, x, hrun, hasleep, (locks_never_deadlock hrun).2.1 false hasleep, hheld⟩

end Librocks
