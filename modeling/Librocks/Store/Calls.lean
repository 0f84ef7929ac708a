import Librocks.Store.Spec

/-!
# Runs of store calls

`Call` lists the public methods of `StoreImpl` with their arguments, and `Call.run` dispatches. A run
of the store is a list of calls, each with the answers RocksDB gave to it; `Step` labels a step with
the call, the answers and the reply, so a run carries everything a client can observe.

`run_open` says once what any call can do to an open store (`Effect`); durability and lifecycle
results are derived from it.
-/

namespace Librocks

open Rocks

namespace StoreImpl

/-- A public method with its arguments. -/
inductive Call
  | put (status : Option ℤ) (kind : Kind) (key : Option Bytes) (value : Bytes)
  | remove (status : Option ℤ) (kind : Kind) (key : Option Bytes)
  | singleRemove (status : Option ℤ) (kind : Kind) (key : Option Bytes)
  | removeRange (status : Option ℤ) (kind : Kind) (beginKey endKey : Option Bytes)
  | get (status : Option ℤ) (kind : Kind) (resultLen : Option ℕ) (key : Option Bytes)
  | updateIfPresent (status : Option ℤ) (kind : Kind) (resultLen : Option ℕ) (key : Option Bytes)
      (value : Bytes)
  | singleRemoveIfPresent (status : Option ℤ) (kind : Kind) (resultLen : Option ℕ)
      (key : Option Bytes)
  | removeIfPresent (status : Option ℤ) (kind : Kind) (resultLen : Option ℕ) (key : Option Bytes)
  | putIfAbsent (status : Option ℤ) (kind : Kind) (key : Option Bytes) (value : Bytes)
  | findMinKey (status : Option ℤ) (kind : Kind) (resultLen : ℕ)
  | findMaxKey (status : Option ℤ) (kind : Kind) (resultLen : ℕ)
  | syncWAL
  | flush
  | flushNoWait
  | compact (status : Option ℤ) (kind : Kind)
  | compactAll (status : Option ℤ)
  | getKindManager (status : Option ℤ)
  | getKinds (status : Option ℤ)
  | getDefaultKind (status : Option ℤ)
  | getOrCreateKind (status : Option ℤ) (kindName : Bytes)
  | close

/-- The reply of a method that returns nothing but its status. -/
def voidReply (x : Option ℤ × StoreImpl) : Reply × StoreImpl := ({ status := x.1 }, x.2)

/-- The reply of a method that has no status. -/
def noReply (s : StoreImpl) : Reply × StoreImpl := ({ status := none }, s)

/-- The reply of a method that returns a Kind. -/
def kindReply (x : Option ℤ × KindImpl × StoreImpl) : Reply × StoreImpl :=
  ({ status := x.1, kinds := [.impl x.2.1] }, x.2.2)

def Call.run (a : Answers) (s : StoreImpl) : Call → Except Halt (Reply × StoreImpl)
  | .put status kind key value => (s.put a status kind key value).map voidReply
  | .remove status kind key => (s.remove a status kind key).map voidReply
  | .singleRemove status kind key => (s.singleRemove a status kind key).map voidReply
  | .removeRange status kind b e => (s.removeRange a status kind b e).map voidReply
  | .get status kind len key => s.get a status kind len key
  | .updateIfPresent status kind len key value => s.updateIfPresent a status kind len key value
  | .singleRemoveIfPresent status kind len key => s.singleRemoveIfPresent a status kind len key
  | .removeIfPresent status kind len key => s.removeIfPresent a status kind len key
  | .putIfAbsent status kind key value => (s.putIfAbsent a status kind key value).map voidReply
  | .findMinKey status kind len => s.findMinKey a status kind len
  | .findMaxKey status kind len => s.findMaxKey a status kind len
  | .syncWAL => (s.syncWAL a).map noReply
  | .flush => s.flush.map noReply
  | .flushNoWait => s.flushNoWait.map noReply
  | .compact status kind => (s.compact a status kind).map voidReply
  | .compactAll status => (s.compactAll a status).map voidReply
  | .getKindManager status => .ok (voidReply (s.getKindManager status))
  | .getKinds status => .ok (s.getKinds status)
  | .getDefaultKind status => .ok (kindReply (s.getDefaultKind status))
  | .getOrCreateKind status name => (s.getOrCreateKind a status name).map kindReply
  | .close => (s.close a).map fun x => noReply x.2

/-- A label of a run: a call, the answers to it and the reply. -/
structure Label where
  call : Call
  answers : Answers
  reply : Reply

/-- One call that returns. -/
def Step (s : StoreImpl) (l : Label) (s' : StoreImpl) : Prop :=
  l.call.run l.answers s = .ok (l.reply, s')

/-- The state after a call that returns. -/
def Call.after (a : Answers) (c : Call) (s : StoreImpl) : StoreImpl :=
  match c.run a s with
  | .ok (_, s') => s'
  | .error _ => s

/-- A step on concrete data is found by evaluating the reply. -/
theorem Call.step_after {s : StoreImpl} {c : Call} {a : Answers} {r : Reply}
    (h : (c.run a s).map Prod.fst = .ok r) : Step s ⟨c, a, r⟩ (c.after a s) := by
  unfold Step after
  cases hrun : c.run a s with
  | error e => rw [hrun] at h; cases h
  | ok x => rw [hrun] at h; cases h; rfl

/-- The `removeRange` calls that commit their batch: nothing refuses the arguments, and RocksDB
reports no error. -/
def Call.commitsRange (a : Answers) : Call → Bool
  | .removeRange _ (.impl k) (some b) (some e) =>
      k.isValid && decide (b ≤ e) && a.batch.isNone && a.dbWrite.isNone
  | _ => false

/-! ## The effect of one call on an open store -/

/-- `FlushWAL(true)` and nothing else. -/
structure Flushed (a : Answers) (s : StoreImpl) (db : Db) (s' : StoreImpl) (db' : Db) : Prop
    extends OpenWith s' db' where
  data : db'.data = db.data
  overwritten : db'.overwritten = db.overwritten
  wal : db'.wal = db.wal
  synced : db'.synced = if a.flushWAL.isNone then db.wal.length else db.synced
  kinds : s'.kinds = s.kinds
  total : s'.totalSinceLastSync = s.totalSinceLastSync
  lastSync : s'.lastSync = s.lastSync

/-- A new column family: the log and the bookkeeping are not involved. -/
structure Created (s : StoreImpl) (db : Db) (s' : StoreImpl) (db' : Db) : Prop
    extends OpenWith s' db' where
  wal : db'.wal = db.wal
  synced : db'.synced = db.synced
  total : s'.totalSinceLastSync = s.totalSinceLastSync
  lastSync : s'.lastSync = s.lastSync

/-- Everything a call other than `close` can do to an open store. -/
inductive Effect (a : Answers) (c : Call) (s : StoreImpl) (db : Db) (s' : StoreImpl) (db' : Db) : Prop
  | untouched (h : Untouched s db s' db') (hc : c ≠ .syncWAL)
  | committed (w : Write) (h : Committed a w s db s' db')
  | unbooked (w : Write) (h : Unbooked w s db s' db') (hc : c.commitsRange a = true)
  | flushed (h : Flushed a s db s' db') (hc : c = .syncWAL)
  | created (h : Created s db s' db')

theorem Effect.openWith {a : Answers} {c : Call} {s s' : StoreImpl} {db db' : Db}
    (h : Effect a c s db s' db') : OpenWith s' db' := by
  cases h with
  | untouched h _ => exact h.toOpenWith
  | committed _ h => exact h.toOpenWith
  | unbooked _ h _ => exact h.toOpenWith
  | flushed h _ => exact h.toOpenWith
  | created h => exact h.toOpenWith

theorem findKey_open {s : StoreImpl} {db : Db} (h : OpenWith s db) (a : Answers)
    (extreme : Family → Option Bytes) (status : Option ℤ) (k : Kind) (len : ℕ) :
    ∃ r, s.findKey a extreme status k len = .ok (r, s) := by
  unfold findKey
  by_cases hv : k.isValid
  · cases k with
    | other name valid => exact ⟨_, by simp only [hv, if_true, Kind.toKindImpl]; rfl⟩
    | impl k =>
      simp only [hv, if_true, Kind.toKindImpl, h.validateOpen_eq, h.deref_eq, ok_bind]
      split
      · split
        · split <;> exact ⟨_, rfl⟩
        · exact ⟨_, rfl⟩
      · exact ⟨_, rfl⟩
  · exact ⟨_, by simp only [hv]; rfl⟩

/-- Given an iterator, `findMinKey` and `findMaxKey` report Ok, with the key that the iterator is at. It
is at none if the seek failed. -/
theorem findKey_sought {s : StoreImpl} {db : Db} {a : Answers} {kd : KindImpl} {found : Option Bytes}
    (h : OpenWith s db) (hv : kd.isValid = true) (hit : a.iterator = true)
    (extreme : Family → Option Bytes) (status : Option ℤ) (len : ℕ)
    (hfound : (if a.seek.isNone then extreme (db.data kd.handle) else none) = found) :
    s.findKey a extreme status (.impl kd) len
      = .ok ({ status := assign Status.ok status, resultLen := some (found.getD []).length,
               data := found.bind buffer }, s) := by
  have hvalid : (Kind.impl kd).isValid = true := hv
  simp only [findKey, hvalid, if_true, Kind.toKindImpl, h.validateOpen_eq, h.deref_eq, ok_bind, hit,
    hfound]
  cases found with
  | none => rfl
  | some key => cases key <;> rfl

/-- Without an iterator they report that. -/
theorem findKey_noIterator {s : StoreImpl} {db : Db} {a : Answers} {kd : KindImpl} (h : OpenWith s db)
    (hv : kd.isValid = true) (hit : a.iterator = false) (extreme : Family → Option Bytes)
    (status : Option ℤ) (len : ℕ) :
    s.findKey a extreme status (.impl kd) len
      = .ok ({ status := assign Status.noIterator status, resultLen := some 0 }, s) := by
  have hvalid : (Kind.impl kd).isValid = true := hv
  simp only [findKey, hvalid, if_true, Kind.toKindImpl, h.validateOpen_eq, h.deref_eq, ok_bind, hit,
    assign_assign]
  rfl

theorem syncWAL_open {s : StoreImpl} {db : Db} (h : OpenWith s db) (a : Answers) :
    ∃ s' db', s.syncWAL a = .ok s' ∧ Flushed a s db s' db' := by
  refine ⟨{ s with txnDb := some (db.flushWAL a.flushWAL) }, db.flushWAL a.flushWAL, ?_, ?_⟩
  · simp only [syncWAL, syncWALNoLock, h.isOpen, if_true, h.deref_eq, ok_bind]
    rfl
  · cases hf : a.flushWAL <;>
      exact { isOpen := h.isOpen, txnDb := rfl, data := rfl, overwritten := rfl, wal := rfl,
              synced := by simp [Db.flushWAL, hf], kinds := rfl, total := rfl, lastSync := rfl }

theorem flushNoLock_open {s : StoreImpl} {db : Db} (h : OpenWith s db) : s.flushNoLock = .ok s := by
  simp only [flushNoLock, h.isOpen, if_true, h.deref_eq, ok_bind]
  rfl

theorem compactKind_open {s : StoreImpl} {db : Db} (h : OpenWith s db) (a : Answers) (i : ℕ)
    (status : Option ℤ) : ∃ r, s.compactKind a i status = .ok r := by
  simp only [compactKind, h.deref_eq, ok_bind]
  split <;> exact ⟨_, rfl⟩

theorem compactLoop_open {s : StoreImpl} {db : Db} (h : OpenWith s db) (a : Answers) (i : ℕ)
    (kinds : List (Bytes × KindImpl)) (status : Option ℤ) :
    ∃ status', s.compactLoop a i kinds status = .ok status' := by
  induction kinds generalizing i status with
  | nil => exact ⟨status, rfl⟩
  | cons k rest ih =>
    obtain ⟨⟨ok, status'⟩, hk⟩ := compactKind_open h a i status
    simp only [compactLoop, hk, ok_bind]
    cases ok with
    | true => exact ih (i + 1) status'
    | false => exact ⟨status', rfl⟩

theorem compact_open {s : StoreImpl} {db : Db} (h : OpenWith s db) (a : Answers) (status : Option ℤ)
    (k : Kind) : ∃ status', s.compact a status k = .ok (status', s) := by
  unfold compact
  by_cases hv : k.isValid
  · cases k with
    | other name valid => exact ⟨_, by simp only [hv, if_true, Kind.toKindImpl]; rfl⟩
    | impl k =>
      obtain ⟨⟨ok, status'⟩, hk⟩ := compactKind_open h a 0 (assign Status.ok status)
      refine ⟨status', ?_⟩
      simp only [hv, if_true, Kind.toKindImpl, h.validateOpen_eq, hk, ok_bind]
      rfl
  · exact ⟨_, by simp only [hv]; rfl⟩

theorem compactAll_open {s : StoreImpl} {db : Db} (h : OpenWith s db) (a : Answers)
    (status : Option ℤ) : ∃ status', s.compactAll a status = .ok (status', s) := by
  obtain ⟨status', hl⟩ := compactLoop_open h a 0 s.kinds (assign Status.ok status)
  refine ⟨status', ?_⟩
  simp only [compactAll, h.validateOpen_eq, hl, ok_bind]
  rfl

theorem getKindManager_open {s : StoreImpl} {db : Db} (h : OpenWith s db) (status : Option ℤ) :
    (s.getKindManager status).2 = s := by
  simp only [getKindManager, h.validateOpen_eq]

theorem getKinds_open {s : StoreImpl} {db : Db} (h : OpenWith s db) (status : Option ℤ) :
    (s.getKinds status).2 = s := by
  simp only [getKinds, h.validateOpen_eq]

theorem getDefaultKind_open {s : StoreImpl} {db : Db} (h : OpenWith s db) (status : Option ℤ) :
    (s.getDefaultKind status).2.2 = s := by
  simp only [getDefaultKind, h.validateOpen_eq]
  split <;> rfl

theorem getOrCreateKind_open {s : StoreImpl} {db : Db} (h : OpenWith s db) (a : Answers)
    (status : Option ℤ) (name : Bytes) :
    ∃ status' kind s' db', s.getOrCreateKind a status name = .ok (status', kind, s') ∧
      Created s db s' db' := by
  have hself : Created s db s db := { h with wal := rfl, synced := rfl, total := rfl, lastSync := rfl }
  simp only [getOrCreateKind, h.validateOpen_eq]
  split
  · exact ⟨_, _, s, db, rfl, hself⟩
  · simp only [createKind, h.deref_eq, ok_bind, Db.createColumnFamily]
    split_ifs with hin
    · exact ⟨_, _, s, db, rfl, hself⟩
    · cases a.create with
      | some e => exact ⟨_, _, s, db, rfl, hself⟩
      | none =>
        exact ⟨_, _, _, _, rfl,
          { isOpen := h.isOpen, txnDb := rfl, wal := rfl, synced := rfl, total := rfl, lastSync := rfl }⟩

theorem Failed.effect {status status' : Option ℤ} {a : Answers} {c : Call} {s s' : StoreImpl}
    {db db' : Db} (h : Failed status status' s db s' db') (hc : c ≠ .syncWAL) :
    Effect a c s db s' db' := by
  obtain ⟨_, _, _, hu⟩ := h
  exact .untouched hu hc

/-- **Every call on an open store returns, and does one of five things.** -/
theorem run_open {s : StoreImpl} {db : Db} (h : OpenWith s db) (a : Answers) (c : Call)
    (hclose : c ≠ .close) :
    ∃ r s' db', c.run a s = .ok (r, s') ∧ Effect a c s db s' db' := by
  cases c with
  | put status kind key value =>
    obtain ⟨st, s', db', hrun, hres⟩ :=
      voidWrite_open h a (fun key fam => .put fam key value) status kind key
    refine ⟨_, s', db', by simp only [Call.run, put, put_, hrun]; rfl, ?_⟩
    rcases hres with hf | ⟨_, _, _, _, _, hcom⟩
    · exact hf.effect (by simp)
    · exact .committed _ hcom
  | remove status kind key =>
    obtain ⟨st, s', db', hrun, hres⟩ :=
      voidWrite_open h a (fun key fam => .delete fam key) status kind key
    refine ⟨_, s', db', by simp only [Call.run, remove, remove_, hrun]; rfl, ?_⟩
    rcases hres with hf | ⟨_, _, _, _, _, hcom⟩
    · exact hf.effect (by simp)
    · exact .committed _ hcom
  | singleRemove status kind key =>
    obtain ⟨st, s', db', hrun, hres⟩ :=
      voidWrite_open h a (fun key fam => .singleDelete fam key a.undefined) status kind key
    refine ⟨_, s', db', by simp only [Call.run, singleRemove, singleRemove_, hrun]; rfl, ?_⟩
    rcases hres with hf | ⟨_, _, _, _, _, hcom⟩
    · exact hf.effect (by simp)
    · exact .committed _ hcom
  | removeRange status kind b e =>
    obtain ⟨st, s', db', hrun, hres⟩ := removeRange_open h a status kind b e
    refine ⟨_, s', db', by simp only [Call.run, hrun]; rfl, ?_⟩
    rcases hres with hf | ⟨k, b', e', rfl, rfl, rfl, ⟨hv, hle, hbatch, hwrite⟩, _, hun⟩
    · exact hf.effect (by simp)
    · exact .unbooked _ hun (by simp [Call.commitsRange, hv, hle, hbatch, hwrite])
  | get status kind len key =>
    obtain ⟨r, hrun, -⟩ := get_open h a status kind len key
    exact ⟨r, s, db, hrun, .untouched h.untouched (by simp)⟩
  | updateIfPresent status kind len key value =>
    obtain ⟨r, s', db', hrun, hres⟩ :=
      ifPresent_open h a (fun key fam => .put fam key value) status kind len key
    refine ⟨r, s', db', hrun, ?_⟩
    rcases hres with hf | ⟨_, _, _, _, _, _, _, _, _, hcom⟩
    · exact hf.effect (by simp)
    · exact .committed _ hcom
  | singleRemoveIfPresent status kind len key =>
    obtain ⟨r, s', db', hrun, hres⟩ :=
      ifPresent_open h a (fun key fam => .singleDelete fam key a.undefined) status kind len key
    refine ⟨r, s', db', hrun, ?_⟩
    rcases hres with hf | ⟨_, _, _, _, _, _, _, _, _, hcom⟩
    · exact hf.effect (by simp)
    · exact .committed _ hcom
  | removeIfPresent status kind len key =>
    obtain ⟨r, s', db', hrun, hres⟩ :=
      ifPresent_open h a (fun key fam => .delete fam key) status kind len key
    refine ⟨r, s', db', hrun, ?_⟩
    rcases hres with hf | ⟨_, _, _, _, _, _, _, _, _, hcom⟩
    · exact hf.effect (by simp)
    · exact .committed _ hcom
  | putIfAbsent status kind key value =>
    obtain ⟨st, s', db', hrun, hres⟩ := putIfAbsent_open h a status kind key value
    refine ⟨_, s', db', by simp only [Call.run, hrun]; rfl, ?_⟩
    rcases hres with hf | ⟨_, _, _, _, _, _, hcom⟩
    · exact hf.effect (by simp)
    · exact .committed _ hcom
  | findMinKey status kind len =>
    obtain ⟨r, hrun⟩ := findKey_open h a FMap.firstKey status kind len
    exact ⟨r, s, db, hrun, .untouched h.untouched (by simp)⟩
  | findMaxKey status kind len =>
    obtain ⟨r, hrun⟩ := findKey_open h a FMap.lastKey status kind len
    exact ⟨r, s, db, hrun, .untouched h.untouched (by simp)⟩
  | syncWAL =>
    obtain ⟨s', db', hrun, hf⟩ := syncWAL_open h a
    exact ⟨_, s', db', by simp only [Call.run, hrun]; rfl, .flushed hf rfl⟩
  | flush =>
    exact ⟨_, s, db, by simp only [Call.run, flush, flushNoLock_open h]; rfl,
      .untouched h.untouched (by simp)⟩
  | flushNoWait =>
    exact ⟨_, s, db, by simp only [Call.run, flushNoWait, flushNoLock_open h]; rfl,
      .untouched h.untouched (by simp)⟩
  | compact status kind =>
    obtain ⟨status', hrun⟩ := compact_open h a status kind
    exact ⟨_, s, db, by simp only [Call.run, hrun]; rfl, .untouched h.untouched (by simp)⟩
  | compactAll status =>
    obtain ⟨status', hrun⟩ := compactAll_open h a status
    exact ⟨_, s, db, by simp only [Call.run, hrun]; rfl, .untouched h.untouched (by simp)⟩
  | getKindManager status =>
    exact ⟨_, s, db, congrArg Except.ok (Prod.ext rfl (getKindManager_open h status)),
      .untouched h.untouched (by simp)⟩
  | getKinds status =>
    exact ⟨_, s, db, congrArg Except.ok (Prod.ext rfl (getKinds_open h status)),
      .untouched h.untouched (by simp)⟩
  | getDefaultKind status =>
    exact ⟨_, s, db, congrArg Except.ok (Prod.ext rfl (getDefaultKind_open h status)),
      .untouched h.untouched (by simp)⟩
  | getOrCreateKind status name =>
    obtain ⟨_, _, s', db', hrun, hcr⟩ := getOrCreateKind_open h a status name
    exact ⟨_, s', db', by simp only [Call.run, hrun]; rfl, .created hcr⟩
  | close => exact absurd rfl hclose

end StoreImpl

end Librocks
