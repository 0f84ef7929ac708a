import Librocks.Common.Run
import Librocks.Kueue.Defs

/-!
# A queue shared by threads

Reference: `include/impl/KueueImpl.h`.

The methods of `KueueImpl` as any number of threads run them. A thread is at a control point `Pc`, and
`exec` is its next atomic step: an acquire or a release of `putLock` or `takeLock`, one store call, one
load, `fetch_add` or `fetch_sub` of `count`, one update of `minKey` or `maxKey`, one test of `erase`,
or a step of a wait on `notEmpty`. The steps of different threads interleave in any order.

Whatever the thread does not decide itself is its `Choice`: the call it makes next, the answers of
RocksDB to a store call, the thread that a `notify_one` wakes up, and how a wait ends. A waiter is
woken up when it is taken off the list `waiters`; it goes on once it has the lock again.

The fields `puts`, `removals` and `returns` of the shared state record what happened. No step reads
them.
-/

namespace Librocks.Threads

/-- The operations that wait for a message. -/
inductive Consumer
  | take
  | takeTimed (timeout : ℤ)
  | readNext (timeout : ℤ)
  deriving DecidableEq

/-- A call of one of them, with the value of `*state` and the `valLen` it passes on to the store. -/
structure Wait where
  consumer : Consumer
  state : ℤ := Status.ok
  valLen : Option ℕ := some 0
  deriving DecidableEq

namespace Wait

/-- The test that ends the wait: `take` without a timeout only asks that the count is not zero. -/
def passes (w : Wait) (count : Int64) : Bool :=
  match w.consumer with
  | .take => decide (count ≠ 0)
  | .takeTimed _ | .readNext _ => decide (count > 0)

/-- Only a positive timeout ends a wait. -/
def timed (w : Wait) : Bool :=
  match w.consumer with
  | .take => false
  | .takeTimed timeout | .readNext timeout => decide (timeout > 0)

end Wait

/-- A public method with its arguments. -/
inductive Op
  | put (state : ℤ) (value : Bytes)
  | consume (w : Wait)
  | erase (key : UInt64)
  | clear (state : ℤ)

/-- What a consumer answers: the reply of the store together with the key it was asked for, or a
timeout, or the Boolean of `erase`. -/
inductive Answer
  | taken (key : UInt64) (r : StoreImpl.Reply)
  | read (key : UInt64) (r : StoreImpl.Reply)
  | timedOut
  | erased (key : UInt64) (b : Bool)
  deriving DecidableEq

/-- What follows a removal: the answer of the call, or the next turn of the loop of `clear`. -/
inductive After
  | answer (ans : Answer)
  | loop
  deriving DecidableEq

/-- The control points. Each is named after the step that the thread takes next. -/
inductive Pc
  | idle
  -- `put` and `signalNotEmpty`; `c` is the local variable that decides about the signal
  | putLock (state : ℤ) (value : Bytes)
  | putNext (state : ℤ) (value : Bytes)
  | putStore (state : ℤ) (value : Bytes) (key : UInt64)
  | putAdd
  | putUndo
  | putUnlock (c : Int64)
  | sigLock
  | sigNotify
  | sigUnlock
  -- the waits; `blocked` is inside `wait`, `timedOut` and `waitLast` follow a timeout
  | waitLock (w : Wait)
  | waitTest (w : Wait)
  | waitSleep (w : Wait)
  | blocked (w : Wait)
  | timedOut (w : Wait)
  | waitLast (w : Wait)
  | takeStore (w : Wait)
  | readStore (w : Wait)
  | eraseTest (key : UInt64)
  | eraseLock (key : UInt64)
  | eraseCheck (key : UInt64)
  | eraseStore (key : UInt64)
  | clearLockPut (state : ℤ)
  | clearLockTake (state : ℤ)
  | clearTest (state : ℤ)
  | clearStore (state : ℤ)
  | clearUnlockTake
  | clearUnlockPut
  -- the updates after a removal that `take`, `erase` and `clear` have in common
  | removeNext (k : After)
  | removeSub (k : After)
  | removeNotify (ans : Answer) (c : Int64)
  | takeUnlock (ans : Answer)
  deriving DecidableEq

/-- How a wait on `notEmpty` goes on. -/
inductive Event
  | resume
  | spurious
  | timeout

/-- What a step leaves to the client, to RocksDB and to the scheduler. -/
structure Choice (T : Type) where
  op : Op := .clear Status.ok
  answers : Answers := {}
  wake : Option T := none
  event : Event := .resume

/-- A message that was removed: by which call of which thread, its key, and what was stored there. -/
structure Removed (T : Type) where
  thread : T
  call : ℕ
  key : UInt64
  value : Option Bytes
  deriving DecidableEq

/-- A call of a consumer that returned. -/
structure Return (T : Type) where
  thread : T
  call : ℕ
  answer : Answer
  deriving DecidableEq

/-- The queue object with its locks, its store, the number of calls that each thread made, and the
record of what happened. -/
structure Shared (T : Type) where
  queue : KueueImpl
  store : StoreImpl
  putLock : Option T := none
  takeLock : Option T := none
  waiters : List T := []
  calls : T → ℕ := fun _ => 0
  puts : List Bytes := []
  removals : List (Removed T) := []
  returns : List (Return T) := []

namespace Shared

variable {T : Type} [DecidableEq T]

/-- The message under `minKey`. -/
def head (sh : Shared T) : Option Bytes := do
  let db ← sh.store.txnDb
  let kind ← sh.queue.queueKind
  let kd ← kind.toKindImpl
  (db.data kd.handle).lookup (putU64BE sh.queue.minKey)

/-- Take a thread off the wait queue. -/
def wakeUp (sh : Shared T) (t : T) : Shared T :=
  { sh with waiters := sh.waiters.filter (· ≠ t) }

/-- `notify_one`: one waiter is woken up, unless there is none. -/
def notifyOne (sh : Shared T) : Option T → Option (Shared T)
  | some t => if t ∈ sh.waiters then some (sh.wakeUp t) else none
  | none => if sh.waiters = [] then some sh else none

/-- Record the removal of the message under `key`, which the store call that led to `store` deleted. -/
def remove (sh : Shared T) (t : T) (key : UInt64) (store : StoreImpl) : Shared T :=
  { sh with
    store
    removals := sh.removals ++ [⟨t, sh.calls t, key, sh.head⟩] }

/-- Record what a call returned. -/
def answered (sh : Shared T) (t : T) (ans : Answer) : Shared T :=
  { sh with returns := sh.returns ++ [⟨t, sh.calls t, ans⟩] }

end Shared

/-! ## Steps -/

/-- The first control point of a call. A queue that is not valid answers at once. -/
def Op.start (valid : Bool) : Op → Pc
  | .put state value => if valid then .putLock state value else .idle
  | .consume w => if valid then .waitLock w else .idle
  | .erase key => .eraseTest key
  | .clear state => if valid then .clearLockPut state else .idle

/-- The store call after the wait. -/
def Wait.body (w : Wait) : Pc :=
  match w.consumer with
  | .take | .takeTimed _ => .takeStore w
  | .readNext _ => .readStore w

variable {T : Type} [DecidableEq T]

/-- The next step of the thread `t`. There is none while the thread has to wait. -/
def exec (t : T) (ch : Choice T) (sh : Shared T) : Pc → Option (Pc × Shared T)
  | .idle =>
      some (ch.op.start sh.queue.isValid_,
        { sh with calls := Function.update sh.calls t (sh.calls t + 1) })
  | .putLock state value =>
      if sh.putLock = none then some (.putNext state value, { sh with putLock := some t }) else none
  | .putNext state value =>
      some (.putStore state value sh.queue.maxKey,
        { sh with queue := { sh.queue with maxKey := sh.queue.maxKey + 1 } })
  | .putStore state value key => do
      let kind ← sh.queue.queueKind
      let (st, store) ← (sh.store.put ch.answers (some state) kind (some (putU64BE key)) value).toOption
      if st = some Status.ok then
        some (.putAdd, { sh with store, puts := sh.puts ++ [value] })
      else some (.putUndo, { sh with store })
  | .putAdd =>
      some (.putUnlock sh.queue.count,
        { sh with queue := { sh.queue with
            count := sh.queue.count + 1, totalPuts_ := sh.queue.totalPuts_ + 1 } })
  | .putUndo =>
      some (.putUnlock (-1), { sh with queue := { sh.queue with maxKey := sh.queue.maxKey - 1 } })
  | .putUnlock c => some (if c = 0 then .sigLock else .idle, { sh with putLock := none })
  | .sigLock =>
      if sh.takeLock = none then some (.sigNotify, { sh with takeLock := some t }) else none
  | .sigNotify => (sh.notifyOne ch.wake).map fun sh => (.sigUnlock, sh)
  | .sigUnlock => some (.idle, { sh with takeLock := none })
  | .waitLock w =>
      if sh.takeLock = none then some (.waitTest w, { sh with takeLock := some t }) else none
  | .waitTest w => some (if w.passes sh.queue.count then w.body else .waitSleep w, sh)
  | .waitSleep w => some (.blocked w, { sh with takeLock := none, waiters := t :: sh.waiters })
  | .blocked w =>
      match ch.event with
      | .resume =>
          if t ∉ sh.waiters ∧ sh.takeLock = none then
            some (.waitTest w, { sh with takeLock := some t })
          else none
      | .spurious => some (.blocked w, sh.wakeUp t)
      | .timeout => if w.timed then some (.timedOut w, sh.wakeUp t) else none
  | .timedOut w =>
      if sh.takeLock = none then some (.waitLast w, { sh with takeLock := some t }) else none
  | .waitLast w => some (if w.passes sh.queue.count then w.body else .takeUnlock .timedOut, sh)
  | .takeStore w => do
      let kind ← sh.queue.queueKind
      let key := sh.queue.minKey
      let (r, store) ← (sh.store.singleRemoveIfPresent ch.answers (some w.state) kind w.valLen
        (some (putU64BE key))).toOption
      if r.status = some Status.ok then
        some (.removeNext (.answer (.taken key r)), sh.remove t key store)
      else some (.takeUnlock (.taken key r), { sh with store })
  | .readStore w => do
      let kind ← sh.queue.queueKind
      let key := sh.queue.minKey
      let (r, store) ← (sh.store.get ch.answers (some w.state) kind w.valLen
        (some (putU64BE key))).toOption
      some (.takeUnlock (.read key r), { sh with store })
  -- the test that `erase` makes before it has the lock
  | .eraseTest key =>
      if sh.queue.isValid_ ∧ key = sh.queue.minKey then some (.eraseLock key, sh)
      else some (.idle, sh.answered t (.erased key false))
  | .eraseLock key =>
      if sh.takeLock = none then some (.eraseCheck key, { sh with takeLock := some t }) else none
  -- `state` is still Ok when the second test fails, and `erase` returns true
  | .eraseCheck key =>
      some (if key = sh.queue.minKey then .eraseStore key else .takeUnlock (.erased key true), sh)
  | .eraseStore key => do
      let kind ← sh.queue.queueKind
      let (st, store) ← (sh.store.singleRemove ch.answers (some Status.ok) kind
        (some (putU64BE key))).toOption
      if st = some Status.ok then
        some (.removeNext (.answer (.erased key true)), sh.remove t key store)
      else some (.takeUnlock (.erased key false), { sh with store })
  | .clearLockPut state =>
      if sh.putLock = none then some (.clearLockTake state, { sh with putLock := some t }) else none
  | .clearLockTake state =>
      if sh.takeLock = none then some (.clearTest state, { sh with takeLock := some t }) else none
  | .clearTest state =>
      some (if sh.queue.count > 0 then .clearStore state else .clearUnlockTake, sh)
  | .clearStore state => do
      let kind ← sh.queue.queueKind
      let key := sh.queue.minKey
      let (st, store) ← (sh.store.singleRemove ch.answers (some state) kind
        (some (putU64BE key))).toOption
      if st = some Status.ok then some (.removeNext .loop, sh.remove t key store)
      else some (.clearUnlockTake, { sh with store })
  | .clearUnlockTake => some (.clearUnlockPut, { sh with takeLock := none })
  | .clearUnlockPut => some (.idle, { sh with putLock := none })
  | .removeNext k =>
      some (.removeSub k,
        { sh with queue := { sh.queue with minKey := sh.queue.minKey + 1 } })
  | .removeSub k =>
      some (match k with
          | .answer ans => .removeNotify ans sh.queue.count
          | .loop => .clearTest Status.ok,
        { sh with queue := { sh.queue with
            count := sh.queue.count - 1, totalTakes_ := sh.queue.totalTakes_ + 1 } })
  | .removeNotify ans c =>
      if c > 1 then (sh.notifyOne ch.wake).map fun sh => (.takeUnlock ans, sh)
      else some (.takeUnlock ans, sh)
  | .takeUnlock ans => some (.idle, { sh with takeLock := none }.answered t ans)

/-- The whole system: the shared state and the control points of the threads. -/
structure State (T : Type) where
  shared : Shared T
  pc : T → Pc

/-- A step is taken by one thread. -/
structure Label (T : Type) where
  thread : T
  choice : Choice T

/-- The state after a step, if the thread can take it. -/
def State.next (x : State T) (l : Label T) : Option (State T) :=
  (exec l.thread l.choice x.shared (x.pc l.thread)).map fun y =>
    ⟨y.2, Function.update x.pc l.thread y.1⟩

def Step (x : State T) (l : Label T) (y : State T) : Prop := x.next l = some y

/-- A queue object that no thread uses yet. -/
def State.start (T : Type) (q : KueueImpl) (s : StoreImpl) : State T where
  shared := { queue := q, store := s }
  pc := fun _ => .idle

end Librocks.Threads
