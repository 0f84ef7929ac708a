import Librocks.Common.Monitor
import Librocks.Rocks.Log
import Librocks.Store.Lifecycle

/-!
# Threads that share a store

Reference: `src/impl/StoreImpl.cpp`, `include/impl/utils.h`.

The functions on stores take a call for one step. Here the calls are taken apart: a method tests its
arguments, takes the monitor, looks at the open flag, and then reads and writes the members and calls
RocksDB step by step, while other threads come between. `getKindManager` and `isOpen` look at the flag
without the monitor.

`calls_linearizable`: what the threads see, whatever the interleaving, is what calls in one step give. So
what is proved of runs of calls holds of threads that share a store.

A Kind is a value here. The source frees the Kinds of a store when it is closed, so that a client which
uses one of them in a call that overlaps with `close`, or comes after it, is not modelled.
-/

namespace Librocks

open Rocks

namespace StoreImpl

/-! ## Critical sections -/

/-- What is done under the monitor. -/
abbrev Section (R : Type) : Type 1 := Critical StoreImpl Halt R

namespace Section

open Critical

variable {R S : Type}

/-- `txnDb->`: one call of RocksDB. -/
def onDb {X : Type} (f : Db → X × Db) : Section X :=
  act fun s => do
    let db ← s.deref
    return ((f db).1, { s with txnDb := some (f db).2 })

/-- The flag is read inside the monitor; a store that is going down syncs nothing. -/
def syncWALNoLock (a : Answers) : Section Unit := do
  if ← read isOpen then onDb fun db => ((), db.flushWAL a.flushWAL)

/-- `FlushWAL` and `Flush` are asked of the database, and keep it as it is. -/
def flushNoLock : Section Unit := do
  if ← read isOpen then onDb fun db => ((), db)

/-- The sync, and then the clock and the counter, one member at a time. -/
def syncAndReset (a : Answers) : Section Unit := do
  syncWALNoLock a
  write fun s => { s with lastSync := a.nowSync }
  write fun s => { s with totalSinceLastSync := 0 }

/-- The counter goes up before the clock is asked. -/
def occasionalWalSync (a : Answers) : Section Unit := do
  write fun s => { s with totalSinceLastSync := s.totalSinceLastSync + 1 }
  let lastSync ← read lastSync
  let totalSinceLastSync ← read totalSinceLastSync
  if since a.now lastSync ≥ FLUSH_TIME_WINDOW_MILLIS ∨ totalSinceLastSync &&& FLUSH_BATCH_SIZE = 0 then
    syncAndReset a

/-- The transaction object is made at the first use and kept. -/
def reusableTx (a : Answers) : Section (Option TxnId) := do
  match ← read reusableTx_ with
  | some tx => return some tx
  | none =>
      let tx ← onDb fun db => db.beginTransaction a.reuse none
      write fun s => { s with reusableTx_ := tx }
      return tx

/-- The common body of `put_`, `remove_` and `singleRemove_`. -/
def txWrite (a : Answers) (w : Handle → Write) (status : Option ℤ) (k : Kind) : Section (Option ℤ) :=
  match k.toKindImpl with
  | none => return assign Status.invalidArgument status
  | some kind => do
      let old ← reusableTx a
      match ← onDb fun db => db.beginTransaction a.begins old with
      | none => return assign Status.noTransaction status
      | some tx =>
          match ← onDb fun db => db.txnWrite a.write tx (w kind.handle) with
          | some e => return assign e.code status
          | none =>
              match ← onDb fun db => db.txnCommit a.commit tx with
              | some e => return assign e.code status
              | none =>
                  occasionalWalSync a
                  return status

def put_ (a : Answers) (status : Option ℤ) (k : Kind) (key value : Bytes) : Section (Option ℤ) :=
  txWrite a (fun h => .put h key value) status k

def remove_ (a : Answers) (status : Option ℤ) (k : Kind) (key : Bytes) : Section (Option ℤ) :=
  txWrite a (fun h => .delete h key) status k

def singleRemove_ (a : Answers) (status : Option ℤ) (k : Kind) (key : Bytes) : Section (Option ℤ) :=
  txWrite a (fun h => .singleDelete h key a.undefined) status k

/-- One read of RocksDB; the status and the length are only written afterwards. -/
def get_ (a : Answers) (status : Option ℤ) (k : Kind) (resultLen : ℕ) (key : Bytes) :
    Section (Option ℤ × ℕ × Option Bytes) :=
  match k.toKindImpl with
  | none => return (assign Status.invalidArgument status, resultLen, none)
  | some kind => do
      match ← onDb fun db => (db.get a.get kind.handle key, db) with
      | .ok value =>
          if value.isEmpty then return (status, resultLen, none)
          else return (status, value.length, some value)
      | .error e => return (assign e.code status, resultLen, none)

/-- The common body of `updateIfPresent`, `singleRemoveIfPresent` and `removeIfPresent`. -/
def ifPresent (a : Answers) (put : Option ℤ → Kind → Bytes → Section (Option ℤ)) (kind : Kind)
    (status : Option ℤ) (key : Bytes) : Section (Option ℤ × ℕ × Option Bytes) := do
  let (state, len, oldVal) ← get_ a (some Status.ok) kind 0 key
  let state ← if state = some Status.ok then put state kind key else pure state
  return (assign (state.getD Status.ok) status, len, oldVal)

/-- Two calls of RocksDB in one section: the look-up and the put. -/
def putIfAbsent (a : Answers) (kind : Kind) (value : Bytes) (status : Option ℤ) (key : Bytes) :
    Section (Option ℤ) := do
  let (state, _, _) ← get_ a (some Status.ok) kind 0 key
  let state ←
    if state = some Status.notFound then put_ a (some Status.ok) kind key value
    else if state = some Status.ok then pure (some Status.alreadyExists)
    else pure state
  return assign (state.getD Status.ok) status

/-- The batch is filled and written, with no transaction and no count for the sync. -/
def removeRange (a : Answers) (k : Kind) (b e : Bytes) (status : Option ℤ) : Section (Option ℤ) :=
  match k.toKindImpl with
  | none => return assign Status.invalidArgument status
  | some kind =>
      match a.batch with
      | some err => return assign err.code status
      | none => do
          match ← onDb fun db => db.writeRange a.dbWrite kind.handle b e with
          | some err => return assign err.code status
          | none => return status

/-- The body of `findMinKey` and `findMaxKey`, with the iterator's snapshot and seek as one step. -/
def findKey (a : Answers) (extreme : Family → Option Bytes) (kind : KindImpl) (status : Option ℤ) :
    Section Reply := do
  -- `NewIterator`, which fixes what the iterator sees, and the seek
  let found ← onDb fun db => (if a.seek.isNone then extreme (db.data kind.handle) else none, db)
  if a.iterator then
    match found with
    | some key =>
        if key.isEmpty then return { status, resultLen := some 0 }
        else return { status, resultLen := some key.length, data := some key }
    | none => return { status, resultLen := some 0 }
  else return { status := assign Status.noIterator status, resultLen := some 0 }

/-- One `CompactRange`. -/
def compactKind (a : Answers) (i : ℕ) (status : Option ℤ) : Section (Bool × Option ℤ) :=
  onDb fun db =>
    match a.compact i with
    | none => ((true, status), db)
    | some e => ((false, assign e.code status), db)

/-- The loop of `compactAll`: it stops at the first Kind that fails. -/
def compactLoop (a : Answers) : ℕ → List (Bytes × KindImpl) → Option ℤ → Section (Option ℤ)
  | _, [], status => return status
  | i, _ :: rest, status => do
      let (ok, status) ← compactKind a i status
      if ok then compactLoop a (i + 1) rest status else return status

/-- The Kinds are read once, when the loop starts. -/
def compactAll (a : Answers) (status : Option ℤ) : Section (Option ℤ) := do
  compactLoop a 0 (← read kinds) status

def getKinds (status : Option ℤ) : Section Reply := do
  let kinds ← read kinds
  return { status, resultLen := some kinds.length, kinds := kinds.map fun e => .impl e.2 }

def getDefaultKind (status : Option ℤ) : Section (Option ℤ × KindImpl) := do
  match (← read kinds).lookup DefaultCF with
  | some kind => return (status, kind)
  | none => return (assign Status.notFound status, EmptyKind)

/-- The column family is created first; the Kind is registered in a step of its own. -/
def createKind (a : Answers) (status : Option ℤ) (kindName : Bytes) : Section (Option ℤ × KindImpl) := do
  let cfName := cStr kindName
  let created : Except Error Handle ← onDb fun db =>
    match db.createColumnFamily a.create cfName with
    | .ok (cfHandle, db) => (.ok cfHandle, db)
    | .error e => (.error e, db)
  match created with
  | .ok cfHandle =>
      let kind := KindImpl.new cfName cfHandle
      write fun s => { s with kinds := insertKind s.kinds cfName kind }
      return (status, kind)
  | .error e => return (assign e.code status, EmptyKind)

/-- The look-up and the creation are one section, so that two threads create a Kind once. -/
def getOrCreateKind (a : Answers) (kindName : Bytes) (status : Option ℤ) :
    Section (Option ℤ × KindImpl) := do
  match (← read kinds).lookup (cStr kindName) with
  | some kind => return (status, kind)
  | none => createKind a status kindName

/-- The loop of `close`: one Kind after the other loses its handle. -/
def closeHandles : List (Bytes × KindImpl) → Section Unit
  | [] => return ()
  | e :: rest => do
      write fun s => { s with kinds := insertKind s.kinds e.1 e.2.closeHandle }
      closeHandles rest

/-- `close` after the flag is down. It frees the Kinds of the store; the clients' copies keep their handles,
which those of the source do not. -/
def close (a : Answers) : Section Unit := do
  syncWALNoLock a
  flushNoLock
  closeHandles (← read kinds)
  write fun s => { s with kinds := [] }
  write fun s => { s with txnDb := none }

/-- Without other threads a call of RocksDB works on the database of the store. -/
theorem run_onDb {X : Type} (f : Db → X × Db) (s : StoreImpl) :
    (onDb f).run s = s.deref >>= fun db => .ok ((f db).1, { s with txnDb := some (f db).2 }) := by
  rw [onDb, run_act]
  rfl

/-- The section of the sync, run alone, is the function of one step. -/
theorem run_syncWALNoLock (a : Answers) (s : StoreImpl) :
    (syncWALNoLock a).run s = (s.syncWALNoLock a).map ((), ·) := by
  simp only [syncWALNoLock, StoreImpl.syncWALNoLock, run_bind, run_read, ok_bind]
  split_ifs
  · rw [run_onDb]
    cases s.deref <;> rfl
  · rfl

theorem run_flushNoLock (s : StoreImpl) : flushNoLock.run s = s.flushNoLock.map ((), ·) := by
  simp only [flushNoLock, StoreImpl.flushNoLock, run_bind, run_read, ok_bind]
  split_ifs
  · simp only [run_onDb, deref]
    cases hdb : s.txnDb with
    | none => rfl
    | some db =>
      show Except.ok ((), { s with txnDb := some db }) = Except.ok ((), s)
      rw [← hdb]
  · rfl

/-- The loop over the handles ends, and touches nothing but the list of Kinds. -/
theorem run_closeHandles (kinds : List (Bytes × KindImpl)) (s : StoreImpl) :
    ∃ kinds', (closeHandles kinds).run s = .ok ((), { s with kinds := kinds' }) := by
  induction kinds generalizing s with
  | nil => exact ⟨s.kinds, rfl⟩
  | cons e rest ih => exact ih { s with kinds := insertKind s.kinds e.1 e.2.closeHandle }

/-- The section of `close`, run alone: the handles no longer matter once the list is dropped. -/
theorem run_close (a : Answers) (s : StoreImpl) : (close a).run s = do
    let s ← s.syncWALNoLock a
    let s ← s.flushNoLock
    return ((), { s with kinds := [], txnDb := none }) := by
  simp only [close, run_bind, run_syncWALNoLock, run_flushNoLock, run_read, run_write]
  cases s.syncWALNoLock a with
  | error e => rfl
  | ok s₁ =>
    simp only [Except.map, ok_bind]
    cases s₁.flushNoLock with
    | error e => rfl
    | ok s₂ =>
      obtain ⟨kinds', hrun⟩ := run_closeHandles s₂.kinds s₂
      simp only [ok_bind, hrun]
      rfl

theorem run_occasionalWalSync (a : Answers) (s : StoreImpl) :
    (occasionalWalSync a).run s = (s.occasionalWalSync a).map ((), ·) := by
  simp only [occasionalWalSync, StoreImpl.occasionalWalSync, run_bind, run_read, run_write, ok_bind]
  split_ifs
  · simp only [syncAndReset, StoreImpl.syncAndReset, run_bind, run_syncWALNoLock]
    cases StoreImpl.syncWALNoLock a { s with totalSinceLastSync := s.totalSinceLastSync + 1 } <;> rfl
  · rfl

theorem run_reusableTx (a : Answers) (s : StoreImpl) : (reusableTx a).run s = s.reusableTx a := by
  simp only [reusableTx, StoreImpl.reusableTx, run_bind, run_read, ok_bind]
  cases s.reusableTx_ with
  | some tx => rfl
  | none =>
    simp only [run_bind, run_onDb, run_write]
    cases s.deref <;> rfl

/-- The three writes, run alone, are those of one step, every refusal of RocksDB included. -/
theorem run_txWrite (a : Answers) (w : Handle → Write) (status : Option ℤ) (k : Kind) (s : StoreImpl) :
    (txWrite a w status k).run s = s.txWrite a w status k := by
  simp only [txWrite, StoreImpl.txWrite]
  cases k.toKindImpl with
  | none => rfl
  | some kind =>
    simp only [run_bind, run_reusableTx, run_onDb]
    cases s.reusableTx a with
    | error e => rfl
    | ok x =>
      obtain ⟨old, s⟩ := x
      simp only [ok_bind]
      cases s.deref with
      | error e => rfl
      | ok db =>
        simp only [ok_bind]
        rcases db.beginTransaction a.begins old with ⟨_ | tx, db₁⟩
        · rfl
        simp only [run_bind, run_onDb, deref, ok_bind]
        rcases db₁.txnWrite a.write tx (w kind.handle) with ⟨_ | e, db₂⟩
        · simp only [run_bind, run_onDb, deref, ok_bind]
          rcases db₂.txnCommit a.commit tx with ⟨_ | e, db₃⟩
          · simp only [run_bind, run_occasionalWalSync]
            cases StoreImpl.occasionalWalSync a { s with txnDb := some db₃ } <;> rfl
          · rfl
        · rfl

/-- A read, run alone, leaves the store as it is. -/
theorem run_get_ (a : Answers) (status : Option ℤ) (k : Kind) (resultLen : ℕ) (key : Bytes)
    (s : StoreImpl) :
    (get_ a status k resultLen key).run s = (s.get_ a status k resultLen key).map (·, s) := by
  simp only [get_, StoreImpl.get_]
  cases k.toKindImpl with
  | none => rfl
  | some kind =>
    simp only [run_bind, run_onDb, deref]
    cases hdb : s.txnDb with
    | none => rfl
    | some db =>
      have hs : { s with txnDb := some db } = s := by rw [← hdb]
      simp only [ok_bind, hs]
      cases db.get a.get kind.handle key with
      | error e => rfl
      | ok value =>
        simp only
        split_ifs <;> rfl

/-- The conditional operations, run alone, given that their write is the one of one step. -/
theorem run_ifPresent {a : Answers} {put : Option ℤ → Kind → Bytes → Section (Option ℤ)}
    {put' : Option ℤ → Kind → Bytes → StoreImpl → Except Halt (Option ℤ × StoreImpl)}
    (hput : ∀ status kind key s, (put status kind key).run s = put' status kind key s) (kind : Kind)
    (status : Option ℤ) (key : Bytes) (s : StoreImpl) :
    (ifPresent a put kind status key).run s
      = (StoreImpl.ifPresent a put' kind status key s).map fun x => ((x.1, x.2.1, x.2.2.1), x.2.2.2) := by
  simp only [ifPresent, StoreImpl.ifPresent, run_bind, run_get_]
  cases s.get_ a (some Status.ok) kind 0 key with
  | error e => rfl
  | ok x =>
    obtain ⟨state, len, oldVal⟩ := x
    simp only [Except.map, ok_bind]
    split_ifs
    · simp only [run_bind, hput]
      cases put' state kind key s <;> rfl
    · rfl

theorem run_putIfAbsent (a : Answers) (kind : Kind) (value : Bytes) (status : Option ℤ) (key : Bytes)
    (s : StoreImpl) : (putIfAbsent a kind value status key).run s = (do
      let (state, _, _) ← s.get_ a (some Status.ok) kind 0 key
      let (state, s) ←
        if state = some Status.notFound then s.put_ a (some Status.ok) kind key value
        else if state = some Status.ok then pure (some Status.alreadyExists, s)
        else pure (state, s)
      return (assign (state.getD Status.ok) status, s)) := by
  simp only [putIfAbsent, run_bind, run_get_]
  cases s.get_ a (some Status.ok) kind 0 key with
  | error e => rfl
  | ok x =>
    obtain ⟨state, len, oldVal⟩ := x
    simp only [Except.map, ok_bind]
    split_ifs
    · simp only [run_bind, put_, run_txWrite, StoreImpl.put_]
      cases s.txWrite a (fun h => .put h key value) (some Status.ok) kind <;> rfl
    · rfl
    · rfl

theorem run_removeRange (a : Answers) {k : Kind} (hv : k.isValid = true) (b e : Bytes) (status : Option ℤ)
    {s : StoreImpl} (hopen : s.isOpen = true) : (removeRange a k b e (assign Status.ok status)).run s
      = s.removeRange a status k (some b) (some e) := by
  simp only [removeRange, StoreImpl.removeRange, if_pos hv, validateOpen, if_pos hopen]
  cases k with
  | other name valid => rfl
  | impl kind =>
    simp only [Kind.toKindImpl]
    cases a.batch with
    | some err => rfl
    | none =>
      simp only [run_bind, run_onDb]
      cases s.deref with
      | error e => rfl
      | ok db =>
        simp only [ok_bind]
        rcases db.writeRange a.dbWrite kind.handle b e with ⟨_ | err, db'⟩ <;> rfl

theorem run_compactKind (a : Answers) (i : ℕ) (status : Option ℤ) (s : StoreImpl) :
    (compactKind a i status).run s = (s.compactKind a i status).map (·, s) := by
  simp only [compactKind, StoreImpl.compactKind, run_onDb, deref]
  cases hdb : s.txnDb with
  | none => rfl
  | some db =>
    have hs : { s with txnDb := some db } = s := by rw [← hdb]
    simp only [ok_bind]
    cases a.compact i with
    | none => exact congrArg (fun s => Except.ok ((true, status), s)) hs
    | some e => exact congrArg (fun s => Except.ok ((false, assign e.code status), s)) hs

/-- The induction is on the Kinds that are left; `i` counts the answers of `CompactRange`. -/
theorem run_compactLoop (a : Answers) (i : ℕ) (kinds : List (Bytes × KindImpl)) (status : Option ℤ)
    (s : StoreImpl) :
    (compactLoop a i kinds status).run s = (s.compactLoop a i kinds status).map (·, s) := by
  induction kinds generalizing i status with
  | nil => rfl
  | cons k rest ih =>
    simp only [compactLoop, StoreImpl.compactLoop, run_bind, run_compactKind]
    cases s.compactKind a i status with
    | error e => rfl
    | ok x =>
      obtain ⟨ok, status⟩ := x
      cases ok with
      | true => exact ih (i + 1) status
      | false => rfl

theorem run_createKind (a : Answers) (status : Option ℤ) (kindName : Bytes) (s : StoreImpl) :
    (createKind a status kindName).run s
      = (s.createKind a status kindName).map fun x => ((x.1, x.2.1), x.2.2) := by
  simp only [createKind, StoreImpl.createKind, run_bind, run_onDb, deref]
  cases hdb : s.txnDb with
  | none => rfl
  | some db =>
    simp only [ok_bind]
    cases db.createColumnFamily a.create (cStr kindName) with
    | ok x => rfl
    | error e =>
      show Except.ok ((assign e.code status, EmptyKind), { s with txnDb := some db }) = Except.ok (_, s)
      rw [← hdb]

/-! ## The steps of the sections -/

/-- A member is written, which is neither the flag nor the code, and not a new database. -/
structure Writes (g : StoreImpl → StoreImpl) (s : StoreImpl) : Prop where
  isOpen : (g s).isOpen = s.isOpen
  code : (g s).code = s.code
  any : ∀ c, g { s with code := c } = { g s with code := c }
  txnDb : (g s).txnDb = s.txnDb ∨ (g s).txnDb = none

/-- A property that the steps of the sections have: calls of RocksDB, with which the database grows, and
reading and writing members. -/
structure Usual (P : (X : Type) → (StoreImpl → Except Halt (X × StoreImpl)) → Prop) : Prop where
  onDb : ∀ {X : Type} (d : Db → X × Db), (∀ db : Db, db.Grows (d db).2) → (onDb d).All P
  read : ∀ {X : Type} (g : StoreImpl → X), (∀ s c, g { s with code := c } = g s) → (read g : Section X).All P
  write : ∀ g, (∀ s, Writes g s) → (write g : Section Unit).All P

section Usual

variable {P : (X : Type) → (StoreImpl → Except Halt (X × StoreImpl)) → Prop} (hP : Usual P) (a : Answers)

include hP

theorem all_syncWALNoLock : (syncWALNoLock a).All P := by
  refine (hP.read _ fun _ _ => rfl).bind fun isOpen => ?_
  cases isOpen with
  | true => exact hP.onDb _ fun db => .flushWAL db _
  | false => trivial

theorem all_flushNoLock : flushNoLock.All P := by
  refine (hP.read _ fun _ _ => rfl).bind fun isOpen => ?_
  cases isOpen with
  | true => exact hP.onDb _ fun db => .refl db
  | false => trivial

theorem all_syncAndReset : (syncAndReset a).All P := by
  unfold syncAndReset
  refine .bind (all_syncWALNoLock hP a) fun _ => ?_
  refine .bind (hP.write _ fun _ => ⟨rfl, rfl, fun _ => rfl, .inl rfl⟩) fun _ => ?_
  exact hP.write _ fun _ => ⟨rfl, rfl, fun _ => rfl, .inl rfl⟩

theorem all_occasionalWalSync : (occasionalWalSync a).All P := by
  unfold occasionalWalSync
  refine .bind (hP.write _ fun _ => ⟨rfl, rfl, fun _ => rfl, .inl rfl⟩) fun _ => ?_
  refine .bind (hP.read _ fun _ _ => rfl) fun _ => ?_
  refine .bind (hP.read _ fun _ _ => rfl) fun _ => ?_
  split_ifs
  · exact all_syncAndReset hP a
  · trivial

theorem all_reusableTx : (reusableTx a).All P := by
  unfold reusableTx
  refine .bind (hP.read _ fun _ _ => rfl) fun tx => ?_
  cases tx with
  | some tx => trivial
  | none =>
    refine .bind (hP.onDb _ fun db => .beginTransaction db _ _) fun tx => ?_
    exact .bind (hP.write _ fun _ => ⟨rfl, rfl, fun _ => rfl, .inl rfl⟩) fun _ => trivial

/-- The transaction of a write only makes calls of RocksDB and steps of the sync. -/
theorem all_txWrite (w : Handle → Write) (status : Option ℤ) (k : Kind) : (txWrite a w status k).All P := by
  unfold txWrite
  cases k.toKindImpl with
  | none => trivial
  | some kind =>
    refine (all_reusableTx hP a).bind fun old => ?_
    refine (hP.onDb _ fun db => .beginTransaction db _ _).bind fun tx => ?_
    cases tx with
    | none => trivial
    | some tx =>
      refine (hP.onDb _ fun db => .txnWrite db _ _ _).bind fun failed => ?_
      cases failed with
      | some e => trivial
      | none =>
        refine (hP.onDb _ fun db => .txnCommit db _ _).bind fun failed => ?_
        cases failed with
        | some e => trivial
        | none => exact (all_occasionalWalSync hP a).bind fun _ => trivial

theorem all_get_ (status : Option ℤ) (k : Kind) (resultLen : ℕ) (key : Bytes) :
    (get_ a status k resultLen key).All P := by
  unfold get_
  cases k.toKindImpl with
  | none => trivial
  | some kind =>
    refine .bind (hP.onDb _ fun db => .refl db) fun found => ?_
    cases found with
    | ok value =>
      simp only
      split_ifs <;> trivial
    | error e => trivial

/-- A read, and then the steps of the given write. -/
theorem all_ifPresent {put : Option ℤ → Kind → Bytes → Section (Option ℤ)}
    (hput : ∀ status kind key, (put status kind key).All P) (kind : Kind) (status : Option ℤ)
    (key : Bytes) : (ifPresent a put kind status key).All P := by
  unfold ifPresent
  refine .bind (all_get_ hP a _ _ _ _) fun x => ?_
  simp only
  split_ifs
  · exact .bind (hput _ _ _) fun _ => trivial
  · trivial

theorem all_putIfAbsent (kind : Kind) (value : Bytes) (status : Option ℤ) (key : Bytes) :
    (putIfAbsent a kind value status key).All P := by
  unfold putIfAbsent
  refine .bind (all_get_ hP a _ _ _ _) fun x => ?_
  simp only
  split_ifs
  · exact .bind (all_txWrite hP a _ _ _) fun _ => trivial
  · trivial
  · trivial

theorem all_removeRange (k : Kind) (b e : Bytes) (status : Option ℤ) :
    (removeRange a k b e status).All P := by
  unfold removeRange
  cases k.toKindImpl with
  | none => trivial
  | some kind =>
    cases a.batch with
    | some err => trivial
    | none =>
      refine .bind (hP.onDb _ fun db => .writeRange db _ _ _ _) fun failed => ?_
      cases failed <;> trivial

theorem all_findKey (extreme : Family → Option Bytes) (kind : KindImpl) (status : Option ℤ) :
    (findKey a extreme kind status).All P := by
  unfold findKey
  refine .bind (hP.onDb _ fun db => .refl db) fun found => ?_
  split_ifs
  · cases found with
    | none => trivial
    | some key =>
      simp only
      split_ifs <;> trivial
  · trivial

theorem all_compactKind (i : ℕ) (status : Option ℤ) : (compactKind a i status).All P := by
  refine hP.onDb _ fun db => ?_
  cases a.compact i <;> exact .refl db

/-- Each round of the loop is one call of RocksDB. -/
theorem all_compactLoop (i : ℕ) (kinds : List (Bytes × KindImpl)) (status : Option ℤ) :
    (compactLoop a i kinds status).All P := by
  induction kinds generalizing i status with
  | nil => trivial
  | cons k rest ih =>
    refine .bind (all_compactKind hP a i status) fun x => ?_
    simp only
    split_ifs
    · exact ih (i + 1) x.2
    · trivial

theorem all_compactAll (status : Option ℤ) : (compactAll a status).All P :=
  .bind (hP.read _ fun _ _ => rfl) fun kinds => all_compactLoop hP a 0 kinds status

theorem all_getKinds (status : Option ℤ) : (getKinds status).All P :=
  .bind (hP.read _ fun _ _ => rfl) fun _ => trivial

theorem all_getDefaultKind (status : Option ℤ) : (getDefaultKind status).All P := by
  unfold getDefaultKind
  refine .bind (hP.read _ fun _ _ => rfl) fun kinds => ?_
  cases kinds.lookup DefaultCF <;> trivial

/-- One call of RocksDB and one write of a member. -/
theorem all_createKind (status : Option ℤ) (name : Bytes) : (createKind a status name).All P := by
  unfold createKind
  refine .bind (hP.onDb _ fun db => ?_) fun created => ?_
  · cases hcreate : db.createColumnFamily a.create (cStr name) with
    | ok x => exact .createColumnFamily hcreate
    | error e => exact .refl db
  · cases created with
    | ok cfHandle =>
      exact .bind (hP.write _ fun _ => ⟨rfl, rfl, fun _ => rfl, .inl rfl⟩) fun _ => trivial
    | error e => trivial

theorem all_getOrCreateKind (name : Bytes) (status : Option ℤ) : (getOrCreateKind a name status).All P := by
  unfold getOrCreateKind
  refine .bind (hP.read _ fun _ _ => rfl) fun kinds => ?_
  cases kinds.lookup (cStr name) with
  | some kind => trivial
  | none => exact all_createKind hP a status name

theorem all_closeHandles (kinds : List (Bytes × KindImpl)) : (closeHandles kinds).All P := by
  induction kinds with
  | nil => trivial
  | cons e rest ih => exact .bind (hP.write _ fun _ => ⟨rfl, rfl, fun _ => rfl, .inl rfl⟩) fun _ => ih

/-- `close` syncs, closes the handles and drops the database. -/
theorem all_close : (close a).All P := by
  unfold close
  refine .bind (all_syncWALNoLock hP a) fun _ => .bind (all_flushNoLock hP) fun _ => ?_
  refine .bind (hP.read _ fun _ _ => rfl) fun kinds => .bind (all_closeHandles hP kinds) fun _ => ?_
  refine .bind (hP.write _ fun _ => ⟨rfl, rfl, fun _ => rfl, .inl rfl⟩) fun _ => ?_
  exact hP.write _ fun _ => ⟨rfl, rfl, fun _ => rfl, .inr rfl⟩

end Usual

/-! ## Steps without the monitor -/

/-- A step that reads the flag only, and may write the code. -/
def Glances (f : StoreImpl → Except Halt (S × StoreImpl)) : Prop :=
  ∃ (out : Bool → S) (code : Bool → ℤ → ℤ),
    ∀ s, f s = .ok (out s.isOpen, { s with code := code s.isOpen s.code })

/-- A step that has nothing to do with the code, and leaves the flag as it is. -/
def Apart (g : StoreImpl → Except Halt (R × StoreImpl)) : Prop :=
  ∀ s x s₁, g s = .ok (x, s₁) → s₁.isOpen = s.isOpen ∧ s₁.code = s.code ∧
    ∀ c, g { s with code := c } = .ok (x, { s₁ with code := c })

/-- A glance commutes with every step that leaves the flag alone and has nothing to do with the code. -/
theorem Glances.commutes {f : StoreImpl → Except Halt (S × StoreImpl)}
    {g : StoreImpl → Except Halt (R × StoreImpl)} (hf : Glances f) (hg : Apart g) : Commutes f g := by
  obtain ⟨out, code, hf⟩ := hf
  intro s x s₁ y s' hgs hfs
  obtain ⟨hopen, hcode, hany⟩ := hg s x s₁ hgs
  rw [hf] at hfs
  cases hfs
  refine ⟨{ s₁ with code := code s.isOpen s.code }, ?_, hany _⟩
  rw [hf, hopen, hcode]

/-- The steps of the sections make no difference to a glance. -/
theorem Glances.usual {f : StoreImpl → Except Halt (S × StoreImpl)} (hf : Glances f) :
    Usual fun _ g => Commutes f g where
  onDb d _ := by
    refine .act (hf.commutes fun s x s₁ h => ?_)
    obtain ⟨db, hdb, hs₁⟩ := exists_of_bind_eq_ok h
    cases hs₁
    refine ⟨rfl, rfl, fun c => ?_⟩
    have hdb' : deref { s with code := c } = .ok db := hdb
    rw [hdb']
    rfl
  read g hg := by
    refine .act (hf.commutes fun s x s₁ h => ?_)
    cases h
    exact ⟨rfl, rfl, fun c => by rw [hg]⟩
  write g hg := by
    refine .act (hf.commutes fun s x s₁ h => ?_)
    cases h
    exact ⟨(hg s).isOpen, (hg s).code, fun c => by rw [(hg s).any]⟩

end Section

/-! ## Methods -/

/-- What a thread asks of a store. -/
inductive Request
  | call (c : Call) (a : Answers)
  | isOpen

/-- What it is answered. -/
inductive Outcome
  | reply (r : Reply)
  | flag (isOpen : Bool)
  deriving DecidableEq

namespace Request

open Critical

/-- A method that returns before it takes the monitor. -/
def refuse (r : Reply) : Method StoreImpl Halt Outcome := .free fun s => .ok (.reply r, s)

/-- `synchronize(monitor)`, `validateOpen(status)`, and what follows on an open store and on a closed one.
-/
def checked (status : Option ℤ) (closed : Option ℤ → Reply) (body : Option ℤ → Section Reply) :
    Method StoreImpl Halt Outcome :=
  .locked (fun s => let (opened, status, s) := s.validateOpen status; .ok ((opened, status), s)) fun x => do
    if x.1 then return .reply (← body x.2) else return .reply (closed x.2)

/-- The frame of the operations that return nothing. -/
def voidOp (body : Option ℤ → Bytes → Section (Option ℤ)) (status : Option ℤ) (kind : Kind)
    (key : Option Bytes) : Method StoreImpl Halt Outcome :=
  match key with
  | none => refuse { status := assign Status.invalidArgument status }
  | some key =>
      if kind.isValid then
        checked status (fun status => { status := assign Status.closed status }) fun status => do
          return { status := ← body status key }
      else refuse { status := assign Status.invalidArgument status }

/-- The frame of the operations that return a buffer. -/
def readOp (body : Option ℤ → Bytes → Section (Option ℤ × ℕ × Option Bytes)) (status : Option ℤ)
    (kind : Kind) (resultLen : Option ℕ) (key : Option Bytes) : Method StoreImpl Halt Outcome :=
  match key, resultLen with
  | some key, some _ =>
      if kind.isValid then
        checked status (fun status => { status := assign Status.closed status, resultLen := some 0 })
          fun status => do
            let (status, len, data) ← body status key
            return { status, resultLen := some len, data }
      else refuse { status := assign Status.invalidArgument status, resultLen }
  | _, _ => refuse { status := assign Status.invalidArgument status, resultLen }

def findKey (a : Answers) (extreme : Family → Option Bytes) (status : Option ℤ) (k : Kind)
    (resultLen : ℕ) : Method StoreImpl Halt Outcome :=
  if k.isValid then
    match k.toKindImpl with
    | none => refuse { status := assign Status.invalidArgument status, resultLen := some resultLen }
    | some kind =>
        checked status (fun status => { status := assign Status.closed status, resultLen := some 0 })
          (Section.findKey a extreme kind)
  else refuse { status := assign Status.invalidArgument status, resultLen := some resultLen }

/-- The method that a thread calls. -/
def method : Request → Method StoreImpl Halt Outcome
  | .call (.put status kind key value) a =>
      voidOp (fun status key => Section.put_ a status kind key value) status kind key
  | .call (.remove status kind key) a =>
      voidOp (fun status key => Section.remove_ a status kind key) status kind key
  | .call (.singleRemove status kind key) a =>
      voidOp (fun status key => Section.singleRemove_ a status kind key) status kind key
  | .call (.removeRange status k b e) a =>
      match b, e with
      | some b, some e =>
          if k.isValid then
            checked status (fun status => { status := assign Status.closed status }) fun status => do
              return { status := ← Section.removeRange a k b e status }
          else refuse { status := assign Status.invalidArgument status }
      | _, _ => refuse { status := assign Status.invalidArgument status }
  | .call (.get status kind len key) a =>
      readOp (fun status key => Section.get_ a status kind 0 key) status kind len key
  | .call (.updateIfPresent status kind len key value) a =>
      readOp (Section.ifPresent a (fun status kind key => Section.put_ a status kind key value) kind)
        status kind len key
  | .call (.singleRemoveIfPresent status kind len key) a =>
      readOp (Section.ifPresent a (Section.singleRemove_ a) kind) status kind len key
  | .call (.removeIfPresent status kind len key) a =>
      readOp (Section.ifPresent a (Section.remove_ a) kind) status kind len key
  | .call (.putIfAbsent status kind key value) a => voidOp (Section.putIfAbsent a kind value) status kind key
  | .call (.findMinKey status k len) a => findKey a FMap.firstKey status k len
  | .call (.findMaxKey status k len) a => findKey a FMap.lastKey status k len
  | .call .syncWAL a => synchronized do
      Section.syncWALNoLock a
      return .reply { status := none }
  | .call .flush _ | .call .flushNoWait _ => synchronized do
      Section.flushNoLock
      return .reply { status := none }
  | .call (.compact status k) a =>
      if k.isValid then
        match k.toKindImpl with
        | none => refuse { status := assign Status.invalidArgument status }
        | some _ =>
            checked status (fun status => { status := assign Status.closed status }) fun status => do
              let (_, status) ← Section.compactKind a 0 status
              return { status }
      else refuse { status := assign Status.invalidArgument status }
  | .call (.compactAll status) a =>
      checked status (fun status => { status := assign Status.closed status }) fun status => do
        return { status := ← Section.compactAll a status }
  | .call (.getKindManager status) _ =>
      -- without the monitor
      .free fun s => let (status, s) := s.getKindManager status; .ok (.reply { status }, s)
  | .call (.getKinds status) _ =>
      checked status (fun status => { status := assign Status.closed status }) Section.getKinds
  | .call (.getDefaultKind status) _ =>
      checked status (fun status => { status, kinds := [.impl EmptyKind] }) fun status => do
        let (status, kind) ← Section.getDefaultKind status
        return { status, kinds := [.impl kind] }
  | .call (.getOrCreateKind status name) a =>
      checked status (fun status => { status, kinds := [.impl EmptyKind] }) fun status => do
        let (status, kind) ← Section.getOrCreateKind a name status
        return { status, kinds := [.impl kind] }
  | .call .close a =>
      -- under the monitor nobody else writes the flag
      .locked (fun s => .ok (s.isOpen, { s with isOpen := false })) fun wasOpen => do
        if wasOpen then Section.close a
        return .reply { status := none }
  | .isOpen => .free fun s => .ok (.flag s.isOpen, s)

/-- The same in one step. -/
inductive Spec (s : StoreImpl) : Request → Outcome → StoreImpl → Prop
  | call {c : Call} {a : Answers} {r : Reply} {s' : StoreImpl} (h : c.run a s = .ok (r, s')) :
      Spec s (.call c a) (.reply r) s'
  | isOpen : Spec s .isOpen (.flag s.isOpen) s

/-- A method that looks at the flag under the monitor, run alone. -/
theorem run_checked (status : Option ℤ) (closed : Option ℤ → Reply) (body : Option ℤ → Section Reply)
    (s : StoreImpl) : (checked status closed body).run s =
      if s.isOpen then ((body (assign Status.ok status)).run s).map fun x => (.reply x.1, x.2)
      else .ok (.reply (closed (assign Status.closed status)), { s with code := Status.closed }) := by
  simp only [checked, Method.run, Critical.run, validateOpen]
  split_ifs with hopen
  · simp only [ok_bind, if_true, run_bind]
    cases (body (assign Status.ok status)).run s <;> rfl
  · rfl

/-- The writing methods, run alone: the checks of the arguments come before the monitor. -/
theorem run_voidOp {body : Option ℤ → Bytes → Section (Option ℤ)}
    {body' : Option ℤ → Bytes → StoreImpl → Except Halt (Option ℤ × StoreImpl)}
    (hbody : ∀ status key s, (body status key).run s = body' status key s) (status : Option ℤ) (kind : Kind)
    (key : Option Bytes) (s : StoreImpl) : (voidOp body status kind key).run s =
      (s.voidOp body' status kind key).map fun x => (.reply (voidReply x).1, x.2) := by
  rcases key with _ | key
  · rfl
  simp only [voidOp, StoreImpl.voidOp]
  split_ifs
  · simp only [run_checked, validateOpen]
    split_ifs
    · simp only [run_bind, hbody]
      cases body' (assign Status.ok status) key s <;> rfl
    · simp only [assign_assign]
      rfl
  · rfl

/-- The reading methods, run alone. -/
theorem run_readOp {body : Option ℤ → Bytes → Section (Option ℤ × ℕ × Option Bytes)}
    {body' : Option ℤ → Bytes → StoreImpl → Except Halt (Option ℤ × ℕ × Option Bytes × StoreImpl)}
    (hbody : ∀ status key s,
      (body status key).run s = (body' status key s).map fun x => ((x.1, x.2.1, x.2.2.1), x.2.2.2))
    (status : Option ℤ) (kind : Kind) (resultLen : Option ℕ) (key : Option Bytes) (s : StoreImpl) :
    (readOp body status kind resultLen key).run s =
      (s.readOp body' status kind resultLen key).map fun x => (.reply x.1, x.2) := by
  rcases key with _ | key
  · rfl
  rcases resultLen with _ | len
  · rfl
  simp only [readOp, StoreImpl.readOp]
  split_ifs
  · simp only [run_checked, validateOpen]
    split_ifs
    · simp only [run_bind, hbody]
      cases body' (assign Status.ok status) key s <;> rfl
    · simp only [assign_assign]
      rfl
  · rfl

theorem run_findKey (a : Answers) (extreme : Family → Option Bytes) (status : Option ℤ) (k : Kind)
    (resultLen : ℕ) (s : StoreImpl) : (findKey a extreme status k resultLen).run s =
      (s.findKey a extreme status k resultLen).map fun x => (.reply x.1, x.2) := by
  by_cases hv : k.isValid = true
  swap
  · simp only [findKey, StoreImpl.findKey, if_neg hv]
    rfl
  simp only [findKey, StoreImpl.findKey, if_pos hv]
  cases k.toKindImpl with
  | none => rfl
  | some kind =>
    by_cases hopen : s.isOpen = true
    swap
    · simp only [run_checked, validateOpen, if_neg hopen, assign_assign]
      rfl
    simp only [run_checked, validateOpen, if_pos hopen, Section.findKey, run_bind, Section.run_onDb, deref]
    cases hdb : s.txnDb with
    | none => rfl
    | some db =>
      have hs : { s with txnDb := some db } = s := by rw [← hdb]
      simp only [ok_bind, hs]
      generalize (if a.seek.isNone then extreme (db.data kind.handle) else none) = found
      cases a.iterator with
      | false => rfl
      | true =>
        rcases found with _ | key
        · rfl
        · simp only [if_true]
          by_cases hkey : key.isEmpty = true
          · simp only [if_pos hkey]
            rfl
          · simp only [if_neg hkey]
            rfl

/-- **Without interruption a method is the call in one step.** -/
theorem run_method (c : Call) (a : Answers) (s : StoreImpl) :
    (method (.call c a)).run s = (c.run a s).map fun x => (.reply x.1, x.2) := by
  have hmap : ∀ {x : Except Halt (Option ℤ × StoreImpl)},
      (x.map voidReply).map (fun x => (Outcome.reply x.1, x.2))
        = x.map fun x => (.reply (voidReply x).1, x.2) := by
    rintro (e | x) <;> rfl
  cases c with
  | put status kind key value =>
    exact (run_voidOp (fun status key s => Section.run_txWrite a _ status kind s) status kind key s).trans
      hmap.symm
  | remove status kind key =>
    exact (run_voidOp (fun status key s => Section.run_txWrite a _ status kind s) status kind key s).trans
      hmap.symm
  | singleRemove status kind key =>
    exact (run_voidOp (fun status key s => Section.run_txWrite a _ status kind s) status kind key s).trans
      hmap.symm
  | putIfAbsent status kind key value =>
    exact (run_voidOp (fun status key s => Section.run_putIfAbsent a kind value status key s) status kind key
      s).trans hmap.symm
  | removeRange status k b e =>
    rcases b with _ | b
    · rfl
    rcases e with _ | e
    · rfl
    by_cases hv : k.isValid = true
    swap
    · simp only [method, Call.run, StoreImpl.removeRange, if_neg hv]
      rfl
    by_cases hopen : s.isOpen = true
    swap
    · simp only [method, Call.run, StoreImpl.removeRange, if_pos hv, run_checked, validateOpen, if_neg hopen,
        assign_assign]
      rfl
    simp only [method, if_pos hv, run_checked, if_pos hopen, run_bind,
      Section.run_removeRange a hv _ _ _ hopen, Call.run]
    cases s.removeRange a status k (some b) (some e) <;> rfl
  | get status kind len key =>
    refine run_readOp (fun status key s => ?_) status kind len key s
    rw [Section.run_get_]
    cases s.get_ a status kind 0 key <;> rfl
  | updateIfPresent status kind len key value =>
    exact run_readOp (Section.run_ifPresent (fun status kind key s => Section.run_txWrite a _ status kind s)
      kind) status kind len key s
  | singleRemoveIfPresent status kind len key =>
    exact run_readOp (Section.run_ifPresent (fun status kind key s => Section.run_txWrite a _ status kind s)
      kind) status kind len key s
  | removeIfPresent status kind len key =>
    exact run_readOp (Section.run_ifPresent (fun status kind key s => Section.run_txWrite a _ status kind s)
      kind) status kind len key s
  | findMinKey status k len => exact run_findKey a _ status k len s
  | findMaxKey status k len => exact run_findKey a _ status k len s
  | syncWAL =>
    simp only [method, run_synchronized, run_bind, Section.run_syncWALNoLock, Call.run, syncWAL]
    cases s.syncWALNoLock a <;> rfl
  | flush =>
    simp only [method, run_synchronized, run_bind, Section.run_flushNoLock, Call.run, flush]
    cases s.flushNoLock <;> rfl
  | flushNoWait =>
    simp only [method, run_synchronized, run_bind, Section.run_flushNoLock, Call.run, flushNoWait]
    cases s.flushNoLock <;> rfl
  | compact status k =>
    simp only [method, Call.run, StoreImpl.compact]
    by_cases hv : k.isValid = true
    swap
    · simp only [if_neg hv]
      rfl
    simp only [if_pos hv]
    cases k.toKindImpl with
    | none => rfl
    | some kind =>
      by_cases hopen : s.isOpen = true
      · simp only [run_checked, validateOpen, if_pos hopen, run_bind, Section.run_compactKind]
        cases s.compactKind a 0 (assign Status.ok status) <;> rfl
      · simp only [run_checked, validateOpen, if_neg hopen, assign_assign]
        rfl
  | compactAll status =>
    simp only [method, Call.run, StoreImpl.compactAll]
    by_cases hopen : s.isOpen = true
    · simp only [run_checked, validateOpen, if_pos hopen, Section.compactAll, run_bind, run_read, ok_bind,
        Section.run_compactLoop]
      cases s.compactLoop a 0 s.kinds (assign Status.ok status) <;> rfl
    · simp only [run_checked, validateOpen, if_neg hopen, assign_assign]
      rfl
  | getKindManager status => rfl
  | getKinds status =>
    simp only [method, Call.run, StoreImpl.getKinds]
    by_cases hopen : s.isOpen = true
    · simp only [run_checked, validateOpen, if_pos hopen]
      rfl
    · simp only [run_checked, validateOpen, if_neg hopen, assign_assign]
      rfl
  | getDefaultKind status =>
    simp only [method, Call.run, StoreImpl.getDefaultKind]
    by_cases hopen : s.isOpen = true
    · simp only [run_checked, validateOpen, if_pos hopen, Section.getDefaultKind, run_bind, run_read, ok_bind]
      cases s.kinds.lookup DefaultCF <;> rfl
    · simp only [run_checked, validateOpen, if_neg hopen]
      rfl
  | getOrCreateKind status name =>
    simp only [method, Call.run, StoreImpl.getOrCreateKind]
    by_cases hopen : s.isOpen = true
    · simp only [run_checked, validateOpen, if_pos hopen, Section.getOrCreateKind, run_bind, run_read,
        ok_bind]
      cases s.kinds.lookup (cStr name) with
      | some kind => rfl
      | none =>
        simp only [Section.run_createKind]
        cases s.createKind a (assign Status.ok status) name <;> rfl
    · simp only [run_checked, validateOpen, if_neg hopen]
      rfl
  | close =>
    simp only [method, Call.run, StoreImpl.close]
    by_cases hopen : s.isOpen = true
    · simp only [Method.run, Critical.run, ok_bind, hopen, if_true, run_bind, Section.run_close,
        StoreImpl.syncWALNoLock, StoreImpl.flushNoLock]
      rfl
    · have hs : { s with isOpen := false } = s := by
        rw [← Bool.eq_false_iff.mpr hopen]
      simp only [Method.run, Critical.run, ok_bind, if_neg hopen, hs]
      rfl

/-! ## The object -/

/-- What a method does without the monitor is a glance, and what it does under it begins with a look at the
flag. -/
def Orderly : Method StoreImpl Halt Outcome → Prop
  | .free f => Section.Glances f
  | .locked f k => (∀ s x s', f s = .ok (x, s') → s'.txnDb = s.txnDb) ∧
      ∀ P, Section.Usual P → ∀ x, (k x).All P

/-- A glance at the flag between two steps of an orderly method could as well come before or after it. -/
theorem Orderly.tolerates {m : Method StoreImpl Halt Outcome} (h : Orderly m)
    {f : StoreImpl → Except Halt (Outcome × StoreImpl)} (hf : Section.Glances f) : m.Tolerates f := by
  cases m with
  | free g => trivial
  | locked g k => exact h.2 _ hf.usual

theorem orderly_refuse (r : Reply) : Orderly (refuse r) :=
  ⟨fun _ => .reply r, fun _ code => code, fun _ => rfl⟩

/-- A section of usual steps behind the test of the flag is orderly. -/
theorem orderly_checked (status : Option ℤ) (closed : Option ℤ → Reply) {body : Option ℤ → Section Reply}
    (hbody : ∀ P, Section.Usual P → ∀ status, (body status).All P) :
    Orderly (checked status closed body) := by
  refine ⟨fun s x s' h => ?_, fun P hP x => ?_⟩
  · simp only [validateOpen] at h
    split_ifs at h <;> cases h <;> rfl
  · obtain ⟨_ | _, status⟩ := x
    · trivial
    · exact .bind (hbody P hP status) fun _ => trivial

theorem orderly_synchronized {X : Type} {f : StoreImpl → Except Halt (X × StoreImpl)}
    (k : X → Section Outcome) (hfirst : ∀ s x s', f s = .ok (x, s') → s'.txnDb = s.txnDb)
    (hall : ∀ P, Section.Usual P → (Critical.step f k).All P) : Orderly (.locked f k) :=
  ⟨hfirst, fun P hP => (hall P hP).2⟩

/-- The writing methods are orderly. -/
theorem orderly_voidOp {body : Option ℤ → Bytes → Section (Option ℤ)}
    (hbody : ∀ P, Section.Usual P → ∀ status key, (body status key).All P)
    (status : Option ℤ) (kind : Kind) (key : Option Bytes) : Orderly (voidOp body status kind key) := by
  rcases key with _ | key
  · exact orderly_refuse _
  unfold voidOp
  split_ifs
  · exact orderly_checked _ _ fun P hP status => .bind (hbody P hP status key) fun _ => trivial
  · exact orderly_refuse _

/-- The reading methods are orderly. -/
theorem orderly_readOp {body : Option ℤ → Bytes → Section (Option ℤ × ℕ × Option Bytes)}
    (hbody : ∀ P, Section.Usual P → ∀ status key, (body status key).All P)
    (status : Option ℤ) (kind : Kind) (resultLen : Option ℕ) (key : Option Bytes) :
    Orderly (readOp body status kind resultLen key) := by
  rcases key with _ | key
  · exact orderly_refuse _
  rcases resultLen with _ | len
  · exact orderly_refuse _
  unfold readOp
  split_ifs
  · exact orderly_checked _ _ fun P hP status => .bind (hbody P hP status key) fun _ => trivial
  · exact orderly_refuse _

theorem orderly_findKey (a : Answers) (extreme : Family → Option Bytes) (status : Option ℤ) (k : Kind)
    (resultLen : ℕ) : Orderly (findKey a extreme status k resultLen) := by
  unfold findKey
  split_ifs
  · cases k.toKindImpl with
    | none => exact orderly_refuse _
    | some kind => exact orderly_checked _ _ fun P hP => Section.all_findKey hP a extreme kind
  · exact orderly_refuse _

/-- **Every method is orderly.** -/
theorem orderly (q : Request) : Orderly q.method := by
  rcases q with ⟨c, a⟩ | _
  swap
  · exact ⟨.flag, fun _ code => code, fun s => rfl⟩
  cases c with
  | put status kind key value =>
    exact orderly_voidOp (fun P hP status key => Section.all_txWrite hP a _ status kind) status kind key
  | remove status kind key =>
    exact orderly_voidOp (fun P hP status key => Section.all_txWrite hP a _ status kind) status kind key
  | singleRemove status kind key =>
    exact orderly_voidOp (fun P hP status key => Section.all_txWrite hP a _ status kind) status kind key
  | putIfAbsent status kind key value =>
    exact orderly_voidOp (fun P hP => Section.all_putIfAbsent hP a kind value) status kind key
  | removeRange status k b e =>
    rcases b with _ | b
    · exact orderly_refuse _
    rcases e with _ | e
    · exact orderly_refuse _
    simp only [method]
    split_ifs
    · exact orderly_checked _ _ fun P hP status =>
        .bind (Section.all_removeRange hP a k b e status) fun _ => trivial
    · exact orderly_refuse _
  | get status kind len key =>
    exact orderly_readOp (fun P hP status key => Section.all_get_ hP a status kind 0 key) status kind len key
  | updateIfPresent status kind len key value =>
    exact orderly_readOp (fun P hP => Section.all_ifPresent hP a
      (fun status kind key => Section.all_txWrite hP a _ status kind) kind) status kind len key
  | singleRemoveIfPresent status kind len key =>
    exact orderly_readOp (fun P hP => Section.all_ifPresent hP a
      (fun status kind key => Section.all_txWrite hP a _ status kind) kind) status kind len key
  | removeIfPresent status kind len key =>
    exact orderly_readOp (fun P hP => Section.all_ifPresent hP a
      (fun status kind key => Section.all_txWrite hP a _ status kind) kind) status kind len key
  | findMinKey status k len => exact orderly_findKey a _ status k len
  | findMaxKey status k len => exact orderly_findKey a _ status k len
  | syncWAL =>
    exact orderly_synchronized _ (by rintro s x s' ⟨⟩; rfl) fun P hP =>
      .bind (Section.all_syncWALNoLock hP a) fun _ => trivial
  | flush | flushNoWait =>
    exact orderly_synchronized _ (by rintro s x s' ⟨⟩; rfl) fun P hP =>
      .bind (Section.all_flushNoLock hP) fun _ => trivial
  | compact status k =>
    simp only [method]
    split_ifs
    · cases k.toKindImpl with
      | none => exact orderly_refuse _
      | some kind =>
        exact orderly_checked _ _ fun P hP status =>
          .bind (Section.all_compactKind hP a 0 status) fun _ => trivial
    · exact orderly_refuse _
  | compactAll status =>
    simp only [method]
    exact orderly_checked _ _ fun P hP status => .bind (Section.all_compactAll hP a status) fun _ => trivial
  | getKindManager status =>
    refine ⟨fun opened => .reply { status := assign (if opened then Status.ok else Status.closed) status },
      fun opened code => if opened then code else Status.closed, fun s => ?_⟩
    simp only [getKindManager, validateOpen]
    split_ifs <;> rfl
  | getKinds status =>
    simp only [method]
    exact orderly_checked _ _ fun P hP => Section.all_getKinds hP
  | getDefaultKind status =>
    simp only [method]
    exact orderly_checked _ _ fun P hP status => .bind (Section.all_getDefaultKind hP status) fun _ => trivial
  | getOrCreateKind status name =>
    simp only [method]
    exact orderly_checked _ _ fun P hP status =>
      .bind (Section.all_getOrCreateKind hP a name status) fun _ => trivial
  | close =>
    refine ⟨fun s x s' h => ?_, fun P hP wasOpen => ?_⟩
    · cases h
      rfl
    · cases wasOpen with
      | true => exact .bind (Section.all_close hP a) fun _ => trivial
      | false => trivial

/-- The calls keep the invariant of the store, also when other calls come between them. -/
theorem method_sound : Monitored.Sound method StoreImpl.Sound where
  returns q s hs := by
    rcases q with ⟨c, a⟩ | _
    · obtain ⟨r, s', hrun, hsound⟩ := StoreImpl.run_sound hs a c
      exact ⟨.reply r, s', by rw [run_method, hrun]; rfl, hsound⟩
    · exact ⟨.flag s.isOpen, s, rfl, hs⟩
  tolerates q f hf q' := by
    have hq := orderly q
    rw [hf] at hq
    exact (orderly q').tolerates hq

/-- What a method does in one step is what the function of `Store.Defs` does. -/
theorem spec_of_method {s s' : StoreImpl} {q : Request} {r : Outcome}
    (h : Monitored.Spec method s q r s') : Spec s q r s' := by
  rcases q with ⟨c, a⟩ | _
  · obtain ⟨⟨r', t⟩, hrun, hr⟩ := exists_of_map_eq_ok ((run_method c a s).symm.trans h)
    cases hr
    exact .call hrun
  · cases h
    exact .isOpen

/-- A call that took effect, as a label of a run of calls. -/
def label {T : Type} (p : Point T Request Outcome) : Option Label :=
  match p.op, p.result with
  | .call c a, .reply r => some ⟨c, a, r⟩
  | _, _ => none

/-- The calls among the requests are a run of the store. -/
theorem run_labels {T : Type} {s s' : StoreImpl} {lin : List (Point T Request Outcome)}
    (h : Run (fun s p s' => Spec s p.op p.result s') s lin s') :
    Run StoreImpl.Step s (lin.filterMap label) s' := by
  induction h with
  | nil s => exact .nil s
  | @cons s t u p lin hstep _ ih =>
    obtain ⟨thread, n, q, r⟩ := p
    cases hstep with
    | call hrun => exact .cons hrun ih
    | isOpen => exact ih

end Request

/-! ## Shared stores -/

/-- A store with the threads that share it. -/
abbrev Shared (T : Type) : Type 1 := Monitored T Request StoreImpl Halt Outcome

/-- One step of one thread. -/
abbrev Shared.Step {T : Type} [DecidableEq T] : Shared T → T → Shared T → Prop :=
  Monitored.Step Request.method

section

variable {T : Type} [DecidableEq T] {s₀ : StoreImpl} {x : Shared T}
  {ts : List T}

/-- **A store that threads share is linearizable.** In every run of their steps the requests can be put in
a sequence that answers each of them alike, as if each took one step between its call and its return. The
calls in it are a run of the store, which ends where the store is when nobody has the monitor; and if some
thread is in a call, one of those in a call can go on. -/
theorem calls_linearizable (hs : s₀.Sound) (hrun : Run Shared.Step (.start s₀) ts x) :
    ∃ s lin, Linearizes Request.Spec s₀ s x.history lin ∧
      Run StoreImpl.Step s₀ (lin.filterMap Request.label) s ∧ (x.owner = none → x.state = s) ∧
      ∀ t, x.pc t ≠ .idle → ∃ u y, x.pc u ≠ .idle ∧ Shared.Step x u y := by
  obtain ⟨s, lin, hlin, hstate, hgo⟩ := Monitored.linearizes Request.method_sound hs hrun
  have hspec := hlin.mono fun _ _ _ _ => Request.spec_of_method
  exact ⟨s, lin, hspec, Request.run_labels hspec.legal, hstate, hgo⟩

end

/-- One thread asks while another one closes the store. -/
theorem calls_linearizable_close :
    ∃ (x : Shared Bool) (ts : List Bool), Run Shared.Step (.start .created) ts x ∧
      x.history = [.call true 1 (.call .close {}), .call false 1 .isOpen, .ret false 1 (.flag false),
        .ret true 1 (.reply { status := none })] ∧
      ∃ s lin, Linearizes Request.Spec .created s x.history lin := by
  have hclose : Run Shared.Step (.start .created) [true, true, true] _ :=
    .cons (Monitored.Step.call (Request.call Call.close {}) rfl) <| .cons (.acquire rfl rfl rfl) <|
      .single (.first rfl rfl rfl)
  -- the flag is down, and the database is still there
  have hasks : Run Shared.Step (.start .created) ([true, true, true] ++ [false, false, false]) _ :=
    hclose.append <| .cons (Monitored.Step.call Request.isOpen rfl) <| .cons (.free rfl rfl rfl) <|
      .single (.ret rfl)
  have hclosed : Run Shared.Step (.start .created) ([true, true, true] ++ [false, false, false] ++
      [true, true, true, true, true, true, true, true]) _ :=
    hasks.append <| .cons (.next rfl rfl) <| .cons (.next rfl rfl) <| .cons (.next rfl rfl) <|
      .cons (.next rfl rfl) <| .cons (.next rfl rfl) <| .cons (.next rfl rfl) <| .cons (.release rfl) <|
      .single (.ret rfl)
  obtain ⟨s, lin, hlin, -⟩ := calls_linearizable (fun _ => rfl) hclosed
  exact ⟨_, _, hclosed, rfl, s, lin, hlin⟩

end StoreImpl

end Librocks
