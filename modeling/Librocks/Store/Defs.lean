import Librocks.Api.Status
import Librocks.Rocks.Database

/-!
# The key-value store

Reference: `include/impl/StoreImpl.h`, `src/impl/StoreImpl.cpp`, `src/impl/KindImpl.cpp`.

Each method of `StoreImpl` is a function on its state. The methods that take `monitor` hold it for
their whole body, so one call is one atomic step. `txnDb` is an optional database, and every `txnDb->`
of the source is a `deref` here, which halts the program when the pointer is null.

The decisions that are not the library's own are collected in `Answers`: one value for each RocksDB
call and each clock reading that a single public call can make.
-/

namespace Librocks

open Rocks

/-- How a call can end without returning. -/
inductive Halt
  /-- A null pointer was dereferenced. -/
  | nullDeref
  /-- The calling thread waits for a notification that no other thread will send. -/
  | blocked
  deriving DecidableEq, Repr

/-! ## Kinds -/

/-- The bytes of a string up to its first NUL: what is left of it behind a `const char*`. -/
def cStr (s : Bytes) : Bytes := s.takeWhile (· ≠ 0)

/-- `KindImpl`: the name of a column family and its handle. -/
structure KindImpl where
  name_ : Bytes
  handle_ : Option Handle
  deriving DecidableEq, Repr

namespace KindImpl

/-- `KindImpl(const char* name, ColumnFamilyHandle* handle)`. -/
def new (name : Bytes) (handle : Handle) : KindImpl := ⟨cStr name, some handle⟩

/-- A Kind is valid until its handle is closed. -/
def isValid (k : KindImpl) : Bool := k.handle_.isSome

/-- `handle()`, read by RocksDB: a null handle means the default family. -/
def handle (k : KindImpl) : Handle := k.handle_.getD defaultFamily

/-- The handle is destroyed and set to null; the name stays. -/
def closeHandle (k : KindImpl) : KindImpl := { k with handle_ := none }

end KindImpl

/-- A `Kind`: one of the library's own, or a client's implementation of the interface. -/
inductive Kind
  | impl (k : KindImpl)
  | other (name : Bytes) (valid : Bool)
  deriving DecidableEq, Repr

namespace Kind

/-- `isValid` is virtual: a Kind of another class answers for itself. -/
def isValid : Kind → Bool
  | .impl k => k.isValid
  | .other _ valid => valid

/-- `toKindImpl`: the dynamic cast to `KindImpl`. -/
def toKindImpl : Kind → Option KindImpl
  | .impl k => some k
  | .other _ _ => none

end Kind

/-- What RocksDB and the clock answer during one call. -/
structure Answers where
  /-- `BeginTransaction` inside `reusableTx()` returns a transaction. -/
  reuse : Bool := true
  /-- `BeginTransaction(.., reusableTx())` returns a transaction. -/
  begins : Bool := true
  /-- `Put`, `Delete` or `SingleDelete` on the transaction. -/
  write : Option Error := none
  commit : Option Error := none
  get : Option ReadError := none
  /-- `WriteBatch::DeleteRange`. -/
  batch : Option Error := none
  /-- `TransactionDB::Write`. -/
  dbWrite : Option Error := none
  flushWAL : Option Error := none
  create : Option Error := none
  /-- `NewIterator` returns an iterator. -/
  iterator : Bool := true
  /-- `SeekToFirst` or `SeekToLast`. -/
  seek : Option Error := none
  /-- `CompactRange` on the `i`-th Kind. -/
  compact : ℕ → Option Error := fun _ => none
  /-- What a `SingleDelete` of an overwritten key leaves under that key. -/
  undefined : Option Bytes := none
  /-- `steady_clock::now()` in `since`, in nanoseconds. -/
  now : ℤ := 0
  /-- `steady_clock::now()` in `syncAndReset`. -/
  nowSync : ℤ := 0

/-- `StoreImpl`, without the option records that no method reads back. -/
structure StoreImpl where
  isOpen : Bool
  code : ℤ
  txnDb : Option Db
  reusableTx_ : Option TxnId
  kinds : List (Bytes × KindImpl)
  totalSinceLastSync : UInt64
  lastSync : ℤ

namespace StoreImpl

/-- A mask: every 16384th write syncs. -/
def FLUSH_BATCH_SIZE : UInt64 := 16384 - 1

/-- How long a write may wait for a sync, if there is a later one. -/
def FLUSH_TIME_WINDOW_MILLIS : ℤ := 985

/-- The bytes of `"default"`. -/
def DefaultCF : Bytes := [100, 101, 102, 97, 117, 108, 116]

/-- The Kind that is returned when there is none: it has no handle. -/
def EmptyKind : KindImpl := ⟨[], none⟩

/-- The Kind that `open_` registers for the default family. -/
def DefaultKind : KindImpl := .new DefaultCF defaultFamily

/-- `txnDb->`: halts on a null pointer. -/
def deref (s : StoreImpl) : Except Halt Db :=
  match s.txnDb with
  | some db => .ok db
  | none => .error .nullDeref

/-- `utils.h::since`: elapsed time in whole milliseconds, truncated. -/
def since (now start : ℤ) : ℤ := (now - start).tdiv 1000000

/-! ## Syncing -/

/-- `FlushWAL(true)`; the answer of RocksDB is thrown away. -/
def syncWALNoLock (a : Answers) (s : StoreImpl) : Except Halt StoreImpl :=
  if s.isOpen then do
    let db ← s.deref
    return { s with txnDb := some (db.flushWAL a.flushWAL) }
  else return s

/-- `Flush` moves memtables into table files; the content stays what it was. -/
def flushNoLock (s : StoreImpl) : Except Halt StoreImpl :=
  if s.isOpen then do
    let _ ← s.deref
    return s
  else return s

/-- The sync whose clock and counter start again. -/
def syncAndReset (a : Answers) (s : StoreImpl) : Except Halt StoreImpl := do
  let s ← s.syncWALNoLock a
  return { s with lastSync := a.nowSync, totalSinceLastSync := 0 }

/-- The count is raised before both tests. -/
def occasionalWalSync (a : Answers) (s : StoreImpl) : Except Halt StoreImpl :=
  let s := { s with totalSinceLastSync := s.totalSinceLastSync + 1 }
  if since a.now s.lastSync ≥ FLUSH_TIME_WINDOW_MILLIS
      ∨ s.totalSinceLastSync &&& FLUSH_BATCH_SIZE = 0 then
    s.syncAndReset a
  else return s

/-! ## Transactions -/

/-- The transaction object that all writes share, made on first use. -/
def reusableTx (a : Answers) (s : StoreImpl) : Except Halt (Option TxnId × StoreImpl) :=
  match s.reusableTx_ with
  | some tx => return (some tx, s)
  | none => do
      let db ← s.deref
      let (tx, db) := db.beginTransaction a.reuse none
      return (tx, { s with txnDb := some db, reusableTx_ := tx })

/-- The common body of `put_`, `remove_` and `singleRemove_`: one write in one transaction. Deleting
a transaction that is not the reusable one frees memory only, and leaves no trace here. -/
def txWrite (a : Answers) (write : Handle → Write) (status : Option ℤ) (k : Kind) (s : StoreImpl) :
    Except Halt (Option ℤ × StoreImpl) :=
  match k.toKindImpl with
  | none => return (assign Status.invalidArgument status, s)
  | some kind => do
      let (old, s) ← s.reusableTx a
      let db ← s.deref
      match db.beginTransaction a.begins old with
      | (none, db) => return (assign Status.noTransaction status, { s with txnDb := some db })
      | (some tx, db) =>
          match db.txnWrite a.write tx (write kind.handle) with
          | (some e, db) => return (assign e.code status, { s with txnDb := some db })
          | (none, db) =>
              match db.txnCommit a.commit tx with
              | (some e, db) => return (assign e.code status, { s with txnDb := some db })
              | (none, db) => do
                  let s ← { s with txnDb := some db }.occasionalWalSync a
                  return (status, s)

def put_ (a : Answers) (status : Option ℤ) (k : Kind) (key value : Bytes) (s : StoreImpl) :
    Except Halt (Option ℤ × StoreImpl) :=
  s.txWrite a (fun h => .put h key value) status k

def remove_ (a : Answers) (status : Option ℤ) (k : Kind) (key : Bytes) (s : StoreImpl) :
    Except Halt (Option ℤ × StoreImpl) :=
  s.txWrite a (fun h => .delete h key) status k

def singleRemove_ (a : Answers) (status : Option ℤ) (k : Kind) (key : Bytes) (s : StoreImpl) :
    Except Halt (Option ℤ × StoreImpl) :=
  s.txWrite a (fun h => .singleDelete h key a.undefined) status k

/-- `get_`: status, `*resultLen` and the returned buffer, null for an empty value. -/
def get_ (a : Answers) (status : Option ℤ) (k : Kind) (resultLen : ℕ) (key : Bytes)
    (s : StoreImpl) : Except Halt (Option ℤ × ℕ × Option Bytes) :=
  match k.toKindImpl with
  | none => return (assign Status.invalidArgument status, resultLen, none)
  | some kind => do
      let db ← s.deref
      match db.get a.get kind.handle key with
      | .ok value =>
          if value.isEmpty then return (status, resultLen, none)
          else return (status, value.length, some value)
      | .error e => return (assign e.code status, resultLen, none)

/-! ## Public operations -/

/-- `validateOpen`: the open flag, the status written, and `code` when the store is closed. -/
def validateOpen (status : Option ℤ) (s : StoreImpl) : Bool × Option ℤ × StoreImpl :=
  if s.isOpen then (true, assign Status.ok status, s)
  else (false, assign Status.closed status, { s with code := Status.closed })

/-- The frame of the operations that return nothing: argument checks, then the open check. -/
def voidOp (body : Option ℤ → Bytes → StoreImpl → Except Halt (Option ℤ × StoreImpl))
    (status : Option ℤ) (kind : Kind) (key : Option Bytes) (s : StoreImpl) :
    Except Halt (Option ℤ × StoreImpl) :=
  match key with
  | none => return (assign Status.invalidArgument status, s)
  | some key =>
      if kind.isValid then
        match s.validateOpen status with
        | (true, status, s) => body status key s
        | (false, status, s) => return (assign Status.closed status, s)
      else return (assign Status.invalidArgument status, s)

def put (a : Answers) (status : Option ℤ) (kind : Kind) (key : Option Bytes) (value : Bytes)
    (s : StoreImpl) : Except Halt (Option ℤ × StoreImpl) :=
  s.voidOp (fun status key s => s.put_ a status kind key value) status kind key

def remove (a : Answers) (status : Option ℤ) (kind : Kind) (key : Option Bytes) (s : StoreImpl) :
    Except Halt (Option ℤ × StoreImpl) :=
  s.voidOp (fun status key s => s.remove_ a status kind key) status kind key

def singleRemove (a : Answers) (status : Option ℤ) (kind : Kind) (key : Option Bytes)
    (s : StoreImpl) : Except Halt (Option ℤ × StoreImpl) :=
  s.voidOp (fun status key s => s.singleRemove_ a status kind key) status kind key

def putIfAbsent (a : Answers) (status : Option ℤ) (kind : Kind) (key : Option Bytes) (value : Bytes)
    (s : StoreImpl) : Except Halt (Option ℤ × StoreImpl) :=
  s.voidOp (fun status key s => do
    let (state, _, _) ← s.get_ a (some Status.ok) kind 0 key
    let (state, s) ←
      if state = some Status.notFound then s.put_ a (some Status.ok) kind key value
      else if state = some Status.ok then pure (some Status.alreadyExists, s)
      else pure (state, s)
    return (assign (state.getD Status.ok) status, s)) status kind key

/-- `removeRange` writes a batch past the transaction and past `occasionalWalSync`. -/
def removeRange (a : Answers) (status : Option ℤ) (k : Kind) (beginKeyInclusive : Option Bytes)
    (endKeyExclusive : Option Bytes) (s : StoreImpl) : Except Halt (Option ℤ × StoreImpl) :=
  match beginKeyInclusive, endKeyExclusive with
  | some b, some e =>
      if k.isValid then
        match s.validateOpen status with
        | (true, status, s) =>
            match k.toKindImpl with
            | none => return (assign Status.invalidArgument status, s)
            | some kind =>
                match a.batch with
                | some err => return (assign err.code status, s)
                | none => do
                    let db ← s.deref
                    match db.writeRange a.dbWrite kind.handle b e with
                    | (some err, db) =>
                        return (assign err.code status, { s with txnDb := some db })
                    | (none, db) => return (status, { s with txnDb := some db })
        | (false, status, s) => return (assign Status.closed status, s)
      else return (assign Status.invalidArgument status, s)
  | _, _ => return (assign Status.invalidArgument status, s)

/-- The observable results of an operation: the status variable, `*resultLen` and the buffer. -/
structure Reply where
  status : Option ℤ
  resultLen : Option ℕ := none
  data : Option Bytes := none
  kinds : List Kind := []
  deriving DecidableEq, Repr

/-- The frame of the operations that return a buffer. -/
def readOp (body : Option ℤ → Bytes → StoreImpl →
      Except Halt (Option ℤ × ℕ × Option Bytes × StoreImpl))
    (status : Option ℤ) (kind : Kind) (resultLen : Option ℕ) (key : Option Bytes) (s : StoreImpl) :
    Except Halt (Reply × StoreImpl) :=
  match key, resultLen with
  | some key, some _ =>
      if kind.isValid then
        match s.validateOpen status with
        | (true, status, s) => do
            let (status, len, data, s) ← body status key s
            return ({ status, resultLen := some len, data }, s)
        | (false, status, s) =>
            return ({ status := assign Status.closed status, resultLen := some 0 }, s)
      else return ({ status := assign Status.invalidArgument status, resultLen }, s)
  | _, _ => return ({ status := assign Status.invalidArgument status, resultLen }, s)

def get (a : Answers) (status : Option ℤ) (kind : Kind) (resultLen : Option ℕ) (key : Option Bytes)
    (s : StoreImpl) : Except Halt (Reply × StoreImpl) :=
  s.readOp (fun status key s => do
    let (status, len, data) ← s.get_ a status kind 0 key
    return (status, len, data, s)) status kind resultLen key

/-- The common body of `updateIfPresent`, `singleRemoveIfPresent` and `removeIfPresent`: read the old
value, write if the read reported Ok, and return the old value either way. -/
def ifPresent (a : Answers)
    (write : Option ℤ → Kind → Bytes → StoreImpl → Except Halt (Option ℤ × StoreImpl))
    (kind : Kind) (status : Option ℤ) (key : Bytes) (s : StoreImpl) :
    Except Halt (Option ℤ × ℕ × Option Bytes × StoreImpl) := do
  let (state, len, oldVal) ← s.get_ a (some Status.ok) kind 0 key
  let (state, s) ←
    if state = some Status.ok then write state kind key s
    else pure (state, s)
  return (assign (state.getD Status.ok) status, len, oldVal, s)

def updateIfPresent (a : Answers) (status : Option ℤ) (kind : Kind) (resultLen : Option ℕ)
    (key : Option Bytes) (value : Bytes) (s : StoreImpl) : Except Halt (Reply × StoreImpl) :=
  s.readOp (ifPresent a (fun status kind key s => s.put_ a status kind key value) kind)
    status kind resultLen key

def singleRemoveIfPresent (a : Answers) (status : Option ℤ) (kind : Kind) (resultLen : Option ℕ)
    (key : Option Bytes) (s : StoreImpl) : Except Halt (Reply × StoreImpl) :=
  s.readOp (ifPresent a (fun status kind key s => s.singleRemove_ a status kind key) kind)
    status kind resultLen key

def removeIfPresent (a : Answers) (status : Option ℤ) (kind : Kind) (resultLen : Option ℕ)
    (key : Option Bytes) (s : StoreImpl) : Except Halt (Reply × StoreImpl) :=
  s.readOp (ifPresent a (fun status kind key s => s.remove_ a status kind key) kind)
    status kind resultLen key

/-- The common body of `findMinKey` and `findMaxKey`. The length pointer must not be null: it is
written without a test. -/
def findKey (a : Answers) (extreme : Family → Option Bytes) (status : Option ℤ) (k : Kind)
    (resultLen : ℕ) (s : StoreImpl) : Except Halt (Reply × StoreImpl) :=
  if k.isValid then
    match k.toKindImpl with
    | none => return ({ status := assign Status.invalidArgument status,
                        resultLen := some resultLen }, s)
    | some kind =>
        match s.validateOpen status with
        | (true, status, s) => do
            let db ← s.deref
            if a.iterator then
              -- `Valid()` is false after a failed seek as well as on an empty family
              match (if a.seek.isNone then extreme (db.data kind.handle) else none) with
              | some key =>
                  if key.isEmpty then return ({ status, resultLen := some 0 }, s)
                  else return ({ status, resultLen := some key.length, data := some key }, s)
              | none => return ({ status, resultLen := some 0 }, s)
            else return ({ status := assign Status.noIterator status, resultLen := some 0 }, s)
        | (false, status, s) =>
            return ({ status := assign Status.closed status, resultLen := some 0 }, s)
  else return ({ status := assign Status.invalidArgument status, resultLen := some resultLen }, s)

def findMinKey (a : Answers) (status : Option ℤ) (k : Kind) (resultLen : ℕ) (s : StoreImpl) :
    Except Halt (Reply × StoreImpl) :=
  s.findKey a FMap.firstKey status k resultLen

def findMaxKey (a : Answers) (status : Option ℤ) (k : Kind) (resultLen : ℕ) (s : StoreImpl) :
    Except Halt (Reply × StoreImpl) :=
  s.findKey a FMap.lastKey status k resultLen

def syncWAL (a : Answers) (s : StoreImpl) : Except Halt StoreImpl := s.syncWALNoLock a

def flush (s : StoreImpl) : Except Halt StoreImpl := s.flushNoLock

def flushNoWait (s : StoreImpl) : Except Halt StoreImpl := s.flushNoLock

/-- `compactKind` on the `i`-th Kind of the call: the answer and the status. -/
def compactKind (a : Answers) (i : ℕ) (status : Option ℤ) (s : StoreImpl) :
    Except Halt (Bool × Option ℤ) := do
  let _ ← s.deref
  match a.compact i with
  | none => return (true, status)
  | some e => return (false, assign e.code status)

def compact (a : Answers) (status : Option ℤ) (k : Kind) (s : StoreImpl) :
    Except Halt (Option ℤ × StoreImpl) :=
  if k.isValid then
    match k.toKindImpl with
    | none => return (assign Status.invalidArgument status, s)
    | some _ =>
        match s.validateOpen status with
        | (true, status, s) => do
            let (_, status) ← s.compactKind a 0 status
            return (status, s)
        | (false, status, s) => return (assign Status.closed status, s)
  else return (assign Status.invalidArgument status, s)

/-- The loop of `compactAll`: it stops at the first Kind that fails. -/
def compactLoop (a : Answers) (s : StoreImpl) : ℕ → List (Bytes × KindImpl) → Option ℤ →
    Except Halt (Option ℤ)
  | _, [], status => return status
  | i, _ :: rest, status => do
      let (ok, status) ← s.compactKind a i status
      if ok then s.compactLoop a (i + 1) rest status else return status

/-- The Kinds in the order of the map. -/
def compactAll (a : Answers) (status : Option ℤ) (s : StoreImpl) :
    Except Halt (Option ℤ × StoreImpl) :=
  match s.validateOpen status with
  | (true, status, s) => do
      let status ← s.compactLoop a 0 s.kinds status
      return (status, s)
  | (false, status, s) => return (assign Status.closed status, s)

/-! ## Kinds of an open store -/

/-- `kinds[name] = kind`. -/
def insertKind (kinds : List (Bytes × KindImpl)) (name : Bytes) (kind : KindImpl) :
    List (Bytes × KindImpl) :=
  if (kinds.lookup name).isSome then
    kinds.map fun e => if e.1 = name then (name, kind) else e
  else kinds ++ [(name, kind)]

/-- The store is its own Kind manager; only the flag is looked at. -/
def getKindManager (status : Option ℤ) (s : StoreImpl) : Option ℤ × StoreImpl :=
  (s.validateOpen status).2

def getKinds (status : Option ℤ) (s : StoreImpl) : Reply × StoreImpl :=
  match s.validateOpen status with
  | (true, status, s) =>
      ({ status, resultLen := some s.kinds.length, kinds := s.kinds.map fun e => .impl e.2 }, s)
  | (false, status, s) => ({ status := assign Status.closed status }, s)

/-- The flag's status is all that is reported when the store is closed. -/
def getDefaultKind (status : Option ℤ) (s : StoreImpl) : Option ℤ × KindImpl × StoreImpl :=
  match s.validateOpen status with
  | (true, status, s) =>
      match s.kinds.lookup DefaultCF with
      | some kind => (status, kind, s)
      | none => (assign Status.notFound status, EmptyKind, s)
  | (false, status, s) => (status, EmptyKind, s)

/-- The name is cut at its first zero byte, as a C string is. -/
def createKind (a : Answers) (status : Option ℤ) (kindName : Bytes) (s : StoreImpl) :
    Except Halt (Option ℤ × KindImpl × StoreImpl) := do
  let cfName := cStr kindName
  let db ← s.deref
  match db.createColumnFamily a.create cfName with
  | .ok (cfHandle, db) =>
      let kind := KindImpl.new cfName cfHandle
      return (status, kind, { s with txnDb := some db, kinds := insertKind s.kinds cfName kind })
  | .error e => return (assign e.code status, EmptyKind, s)

/-- The Kind under the name, created when there is none. -/
def getOrCreateKind (a : Answers) (status : Option ℤ) (kindName : Bytes) (s : StoreImpl) :
    Except Halt (Option ℤ × KindImpl × StoreImpl) :=
  match s.validateOpen status with
  | (true, status, s) =>
      match s.kinds.lookup (cStr kindName) with
      | some kind => return (status, kind, s)
      | none => s.createKind a status kindName
  | (false, status, s) => return (status, EmptyKind, s)

/-! ## Opening and closing -/

/-- What RocksDB answers while a store is opened. -/
structure OpenAnswers where
  /-- `ListColumnFamilies`. -/
  list : RStatus
  families : List Bytes
  /-- `TransactionDB::Open`; on success the database and the handles of the descriptors. -/
  opened : RStatus
  db : Db
  handles : List Handle
  reuse : Bool := true
  now : ℤ := 0

def openDatabase (a : OpenAnswers) (s : StoreImpl) : Except Halt (RStatus × StoreImpl) :=
  if a.list.isOk ∨ a.list.isPathNotFound then do
    let families := if a.families.isEmpty then [DefaultCF] else a.families
    -- a failed `Open` sets `txnDb` to null
    let s := { s with txnDb := if a.opened.isOk then some a.db else none }
    let register := fun kinds (e : Bytes × Handle) =>
      insertKind kinds e.1 (KindImpl.new e.1 e.2)
    let s :=
      if a.opened.isOk then
        { s with kinds := (families.zip a.handles).foldl register s.kinds }
      else s
    -- `txnDb->EnableFileDeletions()`, on both branches
    let _ ← s.deref
    return (a.opened, s)
  else return (a.list, s)

def open_ (a : OpenAnswers) (s : StoreImpl) : Except Halt StoreImpl := do
  let (st, s) ← s.openDatabase a
  let s ←
    if st.isOk then do
      let (tx, s) ← s.reusableTx { reuse := a.reuse }
      pure { s with reusableTx_ := tx, isOpen := true }
    else pure { s with code := st.code }
  return { s with lastSync := a.now }

/-- The constructor `StoreImpl(path)`. -/
def new (a : OpenAnswers) : Except Halt StoreImpl :=
  open_ a { isOpen := false, code := Status.ok, txnDb := none, reusableTx_ := none, kinds := [],
            totalSinceLastSync := 0, lastSync := 0 }

/-- The answers when `path` does not exist yet and the database is created there. -/
def OpenAnswers.created : OpenAnswers where
  list := { error := some .ioError, pathNotFound := true }
  families := []
  opened := { error := none, pathNotFound := false }
  db := .created
  handles := [defaultFamily]

/-- The store on a database that was just created. -/
def created : StoreImpl where
  isOpen := true
  code := Status.ok
  txnDb := some (Db.created.beginTransaction true none).2
  reusableTx_ := some 0
  kinds := [(DefaultCF, DefaultKind)]
  totalSinceLastSync := 0
  lastSync := 0

theorem new_created : new .created = .ok created := rfl

/-- `close`: the database object that was deleted, if one was, and the state after. The Kinds that are
cleared have lost their handles before (`KindImpl.closeHandle`); what a client has of them is a value here,
which does not change. -/
def close (a : Answers) (s : StoreImpl) : Except Halt (Option Db × StoreImpl) :=
  if s.isOpen then do
    let s := { s with isOpen := false }
    let s ← s.syncWALNoLock a
    let s ← s.flushNoLock
    return (s.txnDb, { s with kinds := [], txnDb := none })
  else return (none, s)

/-- The destructor `~StoreImpl`. -/
def destroy (a : Answers) (s : StoreImpl) : Except Halt (Option Db × StoreImpl) :=
  if s.isOpen then s.close a else return (none, s)

end StoreImpl

end Librocks
