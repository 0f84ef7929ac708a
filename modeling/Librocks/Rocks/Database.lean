import Librocks.Common.Bytes
import Librocks.Common.FiniteMap
import Mathlib.Logic.Function.Basic

/-!
# RocksDB as the library uses it

RocksDB itself is not part of the repository; this module states the behaviour its headers document
for the calls that `StoreImpl` makes. Whatever RocksDB may decide (an error, a null result, a clock
reading) is an argument, so that a statement for all arguments covers every such decision.

* A column family is a finite map of byte strings, reached through a handle.
* A transaction buffers writes; `commit` applies the whole buffer or fails and changes nothing, and
  beginning a transaction on an old object empties that object's buffer.
* `SingleDelete` acts as `Delete` on a key that was put at most once since it was last removed. On an
  overwritten key its effect on that key is not defined, and the environment picks it.
* `wal` lists the committed writes; `synced` is how many of them the last `FlushWAL(true)` covered.
-/

namespace Librocks.Rocks

/-- The codes of a `rocksdb::Status` that is not ok. -/
inductive Error
  | notFound | corruption | notSupported | invalidArgument | ioError | mergeInProgress
  | incomplete | shutdownInProgress | timedOut | aborted | busy | expired | tryAgain
  | compactionTooLarge | columnFamilyDropped
  deriving DecidableEq, Repr

/-- `rocksdb::Status::code`, as the integer it is assigned to. -/
def Error.code : Error → ℤ
  | .notFound => 1
  | .corruption => 2
  | .notSupported => 3
  | .invalidArgument => 4
  | .ioError => 5
  | .mergeInProgress => 6
  | .incomplete => 7
  | .shutdownInProgress => 8
  | .timedOut => 9
  | .aborted => 10
  | .busy => 11
  | .expired => 12
  | .tryAgain => 13
  | .compactionTooLarge => 14
  | .columnFamilyDropped => 15

theorem Error.code_pos (e : Error) : 0 < e.code := by
  cases e <;> decide

theorem Error.code_eq_one_iff (e : Error) : e.code = 1 ↔ e = .notFound := by
  cases e <;> decide

/-- A failed read. `NotFound` is not a failure: it is the answer for an absent key. -/
abbrev ReadError := {e : Error // e ≠ .notFound}

/-- A `rocksdb::Status`: its error, if any, and whether its subcode is `kPathNotFound`. -/
structure RStatus where
  error : Option Error
  pathNotFound : Bool
  deriving DecidableEq, Repr

/-- `rocksdb::Status::ok`. -/
def RStatus.isOk (s : RStatus) : Bool := s.error.isNone

/-- `rocksdb::Status::IsPathNotFound`. -/
def RStatus.isPathNotFound (s : RStatus) : Bool :=
  (s.error == some .ioError || s.error == some .notFound) && s.pathNotFound

/-- `rocksdb::Status::code`. -/
def RStatus.code (s : RStatus) : ℤ :=
  match s.error with
  | none => 0
  | some e => e.code

/-- A column family handle. -/
abbrev Handle := ℕ

/-- The family a null handle stands for. -/
def defaultFamily : Handle := 0

/-- The content of a column family. -/
abbrev Family := FMap Bytes Bytes

/-- A transaction object. -/
abbrev TxnId := ℕ

/-- A single write, as a transaction buffers it and as the log records it. A `singleDelete` carries
what the environment makes of the key if it was overwritten. -/
inductive Write
  | put (h : Handle) (key value : Bytes)
  | delete (h : Handle) (key : Bytes)
  | singleDelete (h : Handle) (key : Bytes) (undefined : Option Bytes)
  | deleteRange (h : Handle) (beginKey endKey : Bytes)

/-- The column family that a write goes to. -/
def Write.handle : Write → Handle
  | .put h .. | .delete h .. | .singleDelete h .. | .deleteRange h .. => h

/-- An open `TransactionDB`. -/
structure Db where
  /-- The column families that exist, and the first handle that was never given out. -/
  families : List (Bytes × Handle)
  nextHandle : Handle
  data : Handle → Family
  /-- Keys that were put more than once since they were last removed. -/
  overwritten : Handle → Bytes → Bool
  /-- The buffers of the transaction objects. -/
  txns : TxnId → List Write
  nextTxn : TxnId
  wal : List Write
  synced : ℕ

namespace Db

/-- A database that was just created: the default family, with nothing in it. -/
def created : Db where
  families := [([100, 101, 102, 97, 117, 108, 116], defaultFamily)]
  nextHandle := defaultFamily + 1
  data := fun _ => ∅
  overwritten := fun _ _ => false
  txns := fun _ => []
  nextTxn := 0
  wal := []
  synced := 0

/-- Replace the content of one family. -/
def setFamily (db : Db) (h : Handle) (m : Family) : Db :=
  { db with data := Function.update db.data h m }

/-- Record whether a key is overwritten. -/
def setOverwritten (db : Db) (h : Handle) (key : Bytes) (b : Bool) : Db :=
  { db with
    overwritten := Function.update db.overwritten h (Function.update (db.overwritten h) key b) }

/-- The effect of one committed write on the data. -/
def apply (db : Db) : Write → Db
  | .put h key value =>
      (db.setOverwritten h key ((db.data h).lookup key).isSome).setFamily h
        ((db.data h).insert key value)
  | .delete h key => (db.setOverwritten h key false).setFamily h ((db.data h).erase key)
  | .singleDelete h key undefined =>
      if db.overwritten h key then
        match undefined with
        | some v => db.setFamily h ((db.data h).insert key v)
        | none => db.setFamily h ((db.data h).erase key)
      else (db.setOverwritten h key false).setFamily h ((db.data h).erase key)
  | .deleteRange h b e =>
      { db with
        data := Function.update db.data h ((db.data h).filter fun x => ¬ (b ≤ x ∧ x < e))
        overwritten := Function.update db.overwritten h fun x =>
          if b ≤ x ∧ x < e then false else db.overwritten h x }

/-- A write concerns one family. -/
theorem apply_data_of_ne (db : Db) {w : Write} {h : Handle} (hne : h ≠ w.handle) :
    (db.apply w).data h = db.data h := by
  cases w with
  | singleDelete fam key undefined =>
    simp only [apply]
    split_ifs
    · cases undefined <;> exact Function.update_of_ne hne _ _
    · exact Function.update_of_ne hne _ _
  | _ => exact Function.update_of_ne hne _ _

@[inherit_doc apply_data_of_ne] theorem apply_overwritten_of_ne (db : Db) {w : Write} {h : Handle}
    (hne : h ≠ w.handle) : (db.apply w).overwritten h = db.overwritten h := by
  cases w with
  | singleDelete fam key undefined =>
    simp only [apply]
    split_ifs
    · cases undefined <;> rfl
    · exact Function.update_of_ne hne _ _
  | _ => exact Function.update_of_ne hne _ _

/-- A write neither creates nor drops a family. -/
theorem apply_families (db : Db) (w : Write) :
    (db.apply w).families = db.families ∧ (db.apply w).nextHandle = db.nextHandle := by
  cases w with
  | singleDelete fam key undefined =>
    simp only [apply]
    split_ifs
    · cases undefined <;> exact ⟨rfl, rfl⟩
    · exact ⟨rfl, rfl⟩
  | _ => exact ⟨rfl, rfl⟩

theorem apply_synced (db : Db) (w : Write) : (db.apply w).synced = db.synced := by
  cases w with
  | singleDelete fam key undefined =>
    by_cases ho : db.overwritten fam key
    · cases undefined <;> simp [apply, setFamily, ho]
    · simp [apply, setFamily, setOverwritten, ho]
  | _ => rfl

/-- Commit a batch: apply its writes in order and log them. -/
def commitWrites (db : Db) (ws : List Write) : Db :=
  { ws.foldl apply db with wal := db.wal ++ ws }

theorem commitWrites_families (db : Db) (ws : List Write) :
    (db.commitWrites ws).families = db.families ∧
      (db.commitWrites ws).nextHandle = db.nextHandle := by
  simp only [commitWrites]
  induction ws generalizing db with
  | nil => exact ⟨rfl, rfl⟩
  | cons w ws ih =>
    obtain ⟨hfam, hnext⟩ := ih (db.apply w)
    obtain ⟨hfam', hnext'⟩ := db.apply_families w
    exact ⟨hfam.trans hfam', hnext.trans hnext'⟩

/-- `TransactionDB::BeginTransaction(.., old_txn)`. On failure the result is null. -/
def beginTransaction (db : Db) (succeeds : Bool) (old : Option TxnId) : Option TxnId × Db :=
  if succeeds then
    match old with
    | some tx => (some tx, { db with txns := Function.update db.txns tx [] })
    | none => (some db.nextTxn,
        { db with txns := Function.update db.txns db.nextTxn [], nextTxn := db.nextTxn + 1 })
  else (none, db)

/-- `Transaction::Put`, `Delete` and `SingleDelete`: buffer a write, or fail. -/
def txnWrite (db : Db) (error : Option Error) (tx : TxnId) (w : Write) : Option Error × Db :=
  match error with
  | some e => (some e, db)
  | none => (none, { db with txns := Function.update db.txns tx (db.txns tx ++ [w]) })

/-- `Transaction::Commit`. A failed commit keeps the buffer. -/
def txnCommit (db : Db) (error : Option Error) (tx : TxnId) : Option Error × Db :=
  match error with
  | some e => (some e, db)
  | none =>
      (none, { db.commitWrites (db.txns tx) with txns := Function.update db.txns tx [] })

/-- `TransactionDB::Write` of a batch that holds one `DeleteRange`. A range whose end lies before its
begin is refused. -/
def writeRange (db : Db) (error : Option Error) (h : Handle) (b e : Bytes) : Option Error × Db :=
  if e < b then (some .invalidArgument, db)
  else
    match error with
    | some err => (some err, db)
    | none => (none, db.commitWrites [.deleteRange h b e])

/-- `TransactionDB::Get`: the committed value, `NotFound` for an absent key, or a failed read. -/
def get (db : Db) (error : Option ReadError) (h : Handle) (key : Bytes) : Except Error Bytes :=
  match error with
  | some e => .error e.1
  | none =>
      match (db.data h).lookup key with
      | some v => .ok v
      | none => .error .notFound

/-- `DB::FlushWAL(true)`. -/
def flushWAL (db : Db) (error : Option Error) : Db :=
  match error with
  | some _ => db
  | none => { db with synced := db.wal.length }

/-- `DB::CreateColumnFamily`: a fresh handle for an empty family, or a failure. A name that exists
is refused. -/
def createColumnFamily (db : Db) (error : Option Error) (name : Bytes) :
    Except Error (Handle × Db) :=
  if name ∈ db.families.map Prod.fst then .error .invalidArgument
  else
    match error with
    | some e => .error e
    | none => .ok (db.nextHandle, { db with
        families := db.families ++ [(name, db.nextHandle)]
        nextHandle := db.nextHandle + 1
        data := Function.update db.data db.nextHandle ∅
        overwritten := Function.update db.overwritten db.nextHandle fun _ => false })

end Db

end Librocks.Rocks
