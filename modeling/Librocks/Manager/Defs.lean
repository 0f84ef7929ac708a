import Librocks.Kueue.Defs

/-!
# The queue manager and the entry points of the library

Reference: `include/impl/KueueManagerImpl.h`, `src/impl/librocks.cpp`.

A manager owns one store and the queues on it. The entry points delete the object that they could not
open; `left` records the store as it was deleted, so that one can say that none is left open.
-/

namespace Librocks

/-- What an entry point returns: the status, the object (or a null pointer), and the store that was
deleted on the way, if one was. -/
structure Opened (α : Type) where
  status : Option ℤ
  object : Option α
  left : Option StoreImpl

/-- `KueueManagerImpl`, without the version text. -/
structure KueueManagerImpl where
  store : Option StoreImpl
  queues : List (Bytes × KueueImpl) := []

namespace KueueManagerImpl

/-- The constructor `KueueManagerImpl(status, path)`. -/
def new (a : StoreImpl.OpenAnswers) (b : Answers) (status : Option ℤ) :
    Except Halt (Option ℤ × KueueManagerImpl × Option StoreImpl) := do
  let status := assign Status.ok status
  let impl ← StoreImpl.new a
  if impl.isOpen then return (status, { store := some impl }, none)
  else do
    let status := assign impl.code status
    let (_, impl) ← impl.close b
    let (_, impl) ← impl.destroy b
    return (status, { store := none }, some impl)

def isOpen (m : KueueManagerImpl) : Bool :=
  match m.store with
  | some s => s.isOpen
  | none => false

/-- `validateOpen`: the answer and the status. -/
def validateOpen (status : Option ℤ) (m : KueueManagerImpl) : Bool × Option ℤ :=
  if m.isOpen then (true, assign Status.ok status) else (false, assign Status.closed status)

/-- `store->`. -/
def deref (m : KueueManagerImpl) : Except Halt StoreImpl :=
  match m.store with
  | some s => .ok s
  | none => .error .nullDeref

/-- `get`: the status and the queue, which is built when there is none under this identifier. -/
def get (as : ℕ → Answers) (status : Option ℤ) (id : Bytes) (m : KueueManagerImpl) :
    Except Halt (Option ℤ × Option KueueImpl × KueueManagerImpl) :=
  match m.validateOpen status with
  | (true, status) =>
      let identifier := cStr id
      match m.queues.lookup identifier with
      | some queue => return (status, some queue, m)
      | none => do
          let s ← m.deref
          let (queue, s) ← KueueImpl.new (as 0) (as 1) (as 2) identifier s
          return (status, some queue,
            { store := some s, queues := m.queues ++ [(identifier, queue)] })
  | (false, status) => return (status, none, m)

def compactAll (a : Answers) (status : Option ℤ) (m : KueueManagerImpl) :
    Except Halt (Option ℤ × KueueManagerImpl) :=
  match m.validateOpen status with
  | (true, status) => do
      let s ← m.deref
      let (status, s) ← s.compactAll a status
      return (status, { m with store := some s })
  | (false, status) => return (status, m)

def syncWal (a : Answers) (status : Option ℤ) (m : KueueManagerImpl) :
    Except Halt (Option ℤ × KueueManagerImpl) :=
  match m.validateOpen status with
  | (true, status) => do
      let s ← m.deref
      let s ← s.syncWAL a
      return (status, { m with store := some s })
  | (false, status) => return (status, m)

/-- `close_`: the database that was deleted, if one was, and the state after. -/
def close_ (a : Answers) (m : KueueManagerImpl) :
    Except Halt (Option Rocks.Db × KueueManagerImpl) :=
  if m.isOpen then do
    let s ← m.deref
    let (db, _) ← s.destroy a
    return (db, { store := none, queues := [] })
  else return (none, m)

def close (a : Answers) (m : KueueManagerImpl) : Except Halt (Option Rocks.Db × KueueManagerImpl) :=
  m.close_ a

/-- The destructor `~KueueManagerImpl`. -/
def destroy (a : Answers) (m : KueueManagerImpl) :
    Except Halt (Option Rocks.Db × KueueManagerImpl) :=
  m.close_ a

/-! ## Runs -/

/-- The calls of a client: the methods of the manager, and those of a queue that it has handed out. -/
inductive Call
  | get (status : Option ℤ) (id : Bytes)
  | compactAll (status : Option ℤ)
  | syncWal (status : Option ℤ)
  | close
  | queue (id : Bytes) (c : KueueImpl.Call)

/-- A call through the queue under an identifier. There is no such call when the manager holds no
queue of that name. -/
def onQueue (as : ℕ → Answers) (id : Bytes) (c : KueueImpl.Call) (m : KueueManagerImpl) :
    Except Halt KueueManagerImpl :=
  match m.queues.lookup id, m.store with
  | some q, some s => do
      let (_, q, s) ← c.run as q s
      return { store := some s,
               queues := m.queues.map fun e => if e.1 = id then (id, q) else e }
  | _, _ => return m

/-- The state after a call. -/
def Call.run (as : ℕ → Answers) (m : KueueManagerImpl) : Call → Except Halt KueueManagerImpl
  | .get status id => (m.get as status id).map fun x => x.2.2
  | .compactAll status => (m.compactAll (as 0) status).map fun x => x.2
  | .syncWal status => (m.syncWal (as 0) status).map fun x => x.2
  | .close => (m.close (as 0)).map fun x => x.2
  | .queue id c => m.onQueue as id c

/-- One call that returns. -/
def Step (m : KueueManagerImpl) (l : Call × (ℕ → Answers)) (m' : KueueManagerImpl) : Prop :=
  l.1.run l.2 m = .ok m'

end KueueManagerImpl

/-! ## Entry points -/

def openStore (a : StoreImpl.OpenAnswers) (b : Answers) (status : Option ℤ) :
    Except Halt (Opened StoreImpl) := do
  let status := assign Status.ok status
  let impl ← StoreImpl.new a
  if impl.isOpen then return { status, object := some impl, left := none }
  else do
    let status := assign impl.code status
    let (_, impl) ← impl.close b
    let (_, impl) ← impl.destroy b
    return { status, object := none, left := some impl }

def openKueueManager (a : StoreImpl.OpenAnswers) (b : Answers) (status : Option ℤ) :
    Except Halt (Opened KueueManagerImpl) := do
  let status := assign Status.ok status
  let (status, mgr, left) ← KueueManagerImpl.new a b status
  if mgr.isOpen then return { status, object := some mgr, left }
  else do
    let (_, mgr) ← mgr.close b
    let _ ← mgr.destroy b
    return { status, object := none, left }

end Librocks
