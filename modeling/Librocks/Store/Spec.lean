import Librocks.Common.Run
import Librocks.Store.Defs

/-!
# What one call does to an open store

Every public call on an open store returns. Whatever RocksDB answers, the database either keeps its
content (`Untouched`) or has exactly one more committed write, with the bookkeeping of
`occasionalWalSync` done for the writes that go through a transaction (`Committed`) and left out for
`removeRange` (`Unbooked`). Later modules reason from these lemmas and never unfold a method.
-/

namespace Librocks

open Rocks

namespace StoreImpl

/-- The store is open on the database `db`. -/
structure OpenWith (s : StoreImpl) (db : Db) : Prop where
  isOpen : s.isOpen = true
  txnDb : s.txnDb = some db

theorem OpenWith.db_eq {s : StoreImpl} {db db' : Db} (h : OpenWith s db) (hdb : s.txnDb = some db') :
    db = db' :=
  Option.some.inj (h.txnDb.symm.trans hdb)

/-- Two database states with the same content, log and sync marker. Transaction objects may differ. -/
structure SameContent (db db' : Db) : Prop where
  data : db'.data = db.data
  overwritten : db'.overwritten = db.overwritten
  families : db'.families = db.families
  nextHandle : db'.nextHandle = db.nextHandle
  wal : db'.wal = db.wal
  synced : db'.synced = db.synced

/-- A step that leaves content, log and bookkeeping of an open store as they were. -/
structure Untouched (s : StoreImpl) (db : Db) (s' : StoreImpl) (db' : Db) : Prop
    extends OpenWith s' db' where
  content : SameContent db db'
  kinds : s'.kinds = s.kinds
  total : s'.totalSinceLastSync = s.totalSinceLastSync
  lastSync : s'.lastSync = s.lastSync

/-- `db'` is `db` with the write `w` committed; the sync marker is not constrained. -/
structure Wrote (w : Write) (db db' : Db) : Prop where
  data : db'.data = (db.apply w).data
  overwritten : db'.overwritten = (db.apply w).overwritten
  wal : db'.wal = db.wal ++ [w]

/-- `occasionalWalSync` syncs after the commit that it is called for. -/
def SyncDue (a : Answers) (s : StoreImpl) : Prop :=
  since a.now s.lastSync ≥ FLUSH_TIME_WINDOW_MILLIS
    ∨ (s.totalSinceLastSync + 1) &&& FLUSH_BATCH_SIZE = 0

/-- A transaction committed the write `w`, and `occasionalWalSync` ran after it. -/
structure Committed (a : Answers) (w : Write) (s : StoreImpl) (db : Db) (s' : StoreImpl) (db' : Db) :
    Prop extends OpenWith s' db', Wrote w db db' where
  kinds : s'.kinds = s.kinds
  due : SyncDue a s →
    s'.totalSinceLastSync = 0 ∧ s'.lastSync = a.nowSync ∧
      (a.flushWAL = none → db'.synced = db'.wal.length)
  notDue : ¬ SyncDue a s →
    s'.totalSinceLastSync = s.totalSinceLastSync + 1 ∧ s'.lastSync = s.lastSync ∧
      db'.synced = db.synced

/-- A write was committed with no bookkeeping at all. -/
structure Unbooked (w : Write) (s : StoreImpl) (db : Db) (s' : StoreImpl) (db' : Db) : Prop
    extends OpenWith s' db', Wrote w db db' where
  kinds : s'.kinds = s.kinds
  total : s'.totalSinceLastSync = s.totalSinceLastSync
  lastSync : s'.lastSync = s.lastSync
  synced : db'.synced = db.synced

theorem SameContent.refl (db : Db) : SameContent db db := ⟨rfl, rfl, rfl, rfl, rfl, rfl⟩

theorem SameContent.trans {db db' db'' : Db} (h : SameContent db db') (h' : SameContent db' db'') :
    SameContent db db'' :=
  ⟨h'.data.trans h.data, h'.overwritten.trans h.overwritten, h'.families.trans h.families,
    h'.nextHandle.trans h.nextHandle, h'.wal.trans h.wal, h'.synced.trans h.synced⟩

/-- `apply` reads only the content, so it sends equal contents to equal contents. -/
theorem SameContent.wrote {db db' db'' : Db} {w : Write} (h : SameContent db db')
    (h' : Wrote w db' db'') : Wrote w db db'' := by
  have happly : (db'.apply w).data = (db.apply w).data
      ∧ (db'.apply w).overwritten = (db.apply w).overwritten := by
    cases w with
    | put => simp [Db.apply, Db.setFamily, Db.setOverwritten, h.data, h.overwritten]
    | delete => simp [Db.apply, Db.setFamily, Db.setOverwritten, h.data, h.overwritten]
    | singleDelete fam key undefined =>
      by_cases ho : db.overwritten fam key
      · cases undefined <;> simp [Db.apply, Db.setFamily, h.data, h.overwritten, ho]
      · simp [Db.apply, Db.setFamily, Db.setOverwritten, h.data, h.overwritten, ho]
    | deleteRange => simp [Db.apply, h.data, h.overwritten]
  exact ⟨h'.data.trans happly.1, h'.overwritten.trans happly.2, by rw [h'.wal, h.wal]⟩

theorem OpenWith.untouched {s : StoreImpl} {db : Db} (h : OpenWith s db) : Untouched s db s db :=
  { h with content := .refl db, kinds := rfl, total := rfl, lastSync := rfl }

theorem OpenWith.deref_eq {s : StoreImpl} {db : Db} (h : OpenWith s db) :
    s.deref = .ok db := by
  simp [deref, h.txnDb]

theorem OpenWith.validateOpen_eq {s : StoreImpl} {db : Db} (h : OpenWith s db)
    (status : Option ℤ) : s.validateOpen status = (true, assign Status.ok status, s) := by
  simp [validateOpen, h.isOpen]

/-! ## Database calls -/

theorem beginTransaction_sameContent (db : Db) (succeeds : Bool) (old : Option TxnId) :
    SameContent db (db.beginTransaction succeeds old).2 := by
  cases succeeds <;> cases old <;> exact ⟨rfl, rfl, rfl, rfl, rfl, rfl⟩

/-- A transaction that was just begun has an empty buffer, also when the object is reused. -/
theorem beginTransaction_buffer {db db' : Db} {succeeds : Bool} {old : Option TxnId} {tx : TxnId}
    (h : db.beginTransaction succeeds old = (some tx, db')) : db'.txns tx = [] := by
  cases succeeds with
  | false => simp [Db.beginTransaction] at h
  | true =>
    cases old with
    | none =>
      simp only [Db.beginTransaction, if_true, Prod.mk.injEq, Option.some.injEq] at h
      obtain ⟨rfl, rfl⟩ := h
      simp
    | some t =>
      simp only [Db.beginTransaction, if_true, Prod.mk.injEq, Option.some.injEq] at h
      obtain ⟨rfl, rfl⟩ := h
      simp

theorem txnWrite_sameContent (db : Db) (error : Option Error) (tx : TxnId) (w : Write) :
    SameContent db (db.txnWrite error tx w).2 := by
  cases error <;> exact ⟨rfl, rfl, rfl, rfl, rfl, rfl⟩

/-- Committing a buffer of one write. -/
theorem txnCommit_wrote {db : Db} {tx : TxnId} {w : Write} (h : db.txns tx = [w]) :
    Wrote w db (db.txnCommit none tx).2 ∧ (db.txnCommit none tx).2.synced = (db.apply w).synced := by
  simp only [Db.txnCommit, Db.commitWrites, h]
  exact ⟨⟨rfl, rfl, rfl⟩, rfl⟩

/-! ## The transactional writes -/

theorem occasionalWalSync_open {s : StoreImpl} {db : Db} (h : OpenWith s db) (a : Answers) :
    ∃ s' db', s.occasionalWalSync a = .ok s' ∧ OpenWith s' db' ∧ s'.kinds = s.kinds ∧
      db'.data = db.data ∧ db'.overwritten = db.overwritten ∧ db'.wal = db.wal ∧
      (SyncDue a s → s'.totalSinceLastSync = 0 ∧ s'.lastSync = a.nowSync ∧
        (a.flushWAL = none → db'.synced = db'.wal.length)) ∧
      (¬ SyncDue a s → s'.totalSinceLastSync = s.totalSinceLastSync + 1 ∧
        s'.lastSync = s.lastSync ∧ db'.synced = db.synced) := by
  by_cases hdue : SyncDue a s
  · refine ⟨{ s with txnDb := some (db.flushWAL a.flushWAL), lastSync := a.nowSync,
                     totalSinceLastSync := 0 }, db.flushWAL a.flushWAL, ?_, ⟨h.isOpen, rfl⟩, ?_⟩
    · unfold occasionalWalSync
      simp only [SyncDue] at hdue
      rw [if_pos hdue]
      simp only [syncAndReset, syncWALNoLock, h.isOpen, if_true, deref, h.txnDb]
      rfl
    · refine ⟨rfl, ?_, ?_, ?_, fun _ => ⟨rfl, rfl, ?_⟩, fun hn => absurd hdue hn⟩
      · cases a.flushWAL <;> rfl
      · cases a.flushWAL <;> rfl
      · cases a.flushWAL <;> rfl
      · intro hf
        simp [Db.flushWAL, hf]
  · refine ⟨{ s with totalSinceLastSync := s.totalSinceLastSync + 1 }, db, ?_,
      ⟨h.isOpen, h.txnDb⟩, rfl, rfl, rfl, rfl, fun hd => absurd hd hdue, fun _ => ⟨rfl, rfl, rfl⟩⟩
    unfold occasionalWalSync
    simp only [SyncDue] at hdue
    rw [if_neg hdue]
    rfl

theorem reusableTx_open {s : StoreImpl} {db : Db} (h : OpenWith s db) (a : Answers) :
    ∃ old s' db', s.reusableTx a = .ok (old, s') ∧ Untouched s db s' db' := by
  unfold reusableTx
  cases hr : s.reusableTx_ with
  | some tx => exact ⟨some tx, s, db, rfl, h.untouched⟩
  | none =>
    refine ⟨_, _, (db.beginTransaction a.reuse none).2, by rw [h.deref_eq]; rfl, ?_⟩
    exact { isOpen := h.isOpen, txnDb := rfl, content := beginTransaction_sameContent db _ _,
            kinds := rfl, total := rfl, lastSync := rfl }

/-- **Transactional writes.** On an open store `txWrite` either commits its write and keeps the
status, or changes nothing and assigns a code other than Ok. -/
theorem txWrite_open {s : StoreImpl} {db : Db} (h : OpenWith s db) (a : Answers)
    (write : Handle → Write) (status : Option ℤ) (k : Kind) :
    ∃ status' s' db', s.txWrite a write status k = .ok (status', s') ∧
      ((∃ c, c ≠ Status.ok ∧ status' = assign c status ∧ Untouched s db s' db') ∨
        (∃ kind, k = .impl kind ∧ status' = status ∧
          Committed a (write kind.handle) s db s' db')) := by
  cases k with
  | other name valid =>
    exact ⟨_, s, db, rfl, .inl ⟨Status.invalidArgument, by decide, rfl, h.untouched⟩⟩
  | impl kind =>
    obtain ⟨old, s₁, db₁, hreuse, h₁⟩ := reusableTx_open h a
    have hopen₁ : OpenWith s₁ db₁ := h₁.toOpenWith
    -- a failed step leaves the content of `db₁`, which is that of `db`
    have hfail : ∀ db₂, SameContent db₁ db₂ → Untouched s db { s₁ with txnDb := some db₂ } db₂ :=
      fun db₂ hc => { isOpen := hopen₁.isOpen, txnDb := rfl, content := h₁.content.trans hc,
                      kinds := h₁.kinds, total := h₁.total, lastSync := h₁.lastSync }
    simp only [txWrite, Kind.toKindImpl, hreuse, ok_bind, hopen₁.deref_eq]
    have hbegin := beginTransaction_sameContent db₁ a.begins old
    cases hb : db₁.beginTransaction a.begins old with
    | mk tx db₂ =>
      rw [hb] at hbegin
      cases tx with
      | none =>
        exact ⟨_, _, db₂, rfl, .inl ⟨Status.noTransaction, by decide, rfl, hfail db₂ hbegin⟩⟩
      | some tx =>
        have hbuffer := beginTransaction_buffer hb
        cases hw : a.write with
        | some e =>
          exact ⟨_, _, db₂, rfl, .inl ⟨e.code, e.code_pos.ne', rfl, hfail db₂ hbegin⟩⟩
        | none =>
          set db₃ := (db₂.txnWrite none tx (write kind.handle)).2 with hdb₃
          have hwrite : SameContent db₁ db₃ := hbegin.trans (txnWrite_sameContent db₂ none tx _)
          have hone : db₃.txns tx = [write kind.handle] := by
            simp [hdb₃, Db.txnWrite, hbuffer]
          cases hc : a.commit with
          | some e =>
            exact ⟨_, _, db₃, rfl, .inl ⟨e.code, e.code_pos.ne', rfl, hfail db₃ hwrite⟩⟩
          | none =>
            obtain ⟨hwrote, hsynced⟩ := txnCommit_wrote hone
            set db₄ := (db₃.txnCommit none tx).2 with hdb₄
            have hopen₄ : OpenWith { s₁ with txnDb := some db₄ } db₄ := ⟨hopen₁.isOpen, rfl⟩
            obtain ⟨s₅, db₅, hrun, hopen₅, hkinds, hdata, hover, hwal, hdue, hnot⟩ :=
              occasionalWalSync_open hopen₄ a
            have hiff : SyncDue a s ↔ SyncDue a { s₁ with txnDb := some db₄ } := by
              simp only [SyncDue, h₁.lastSync, h₁.total]
            have hwrote' := (h₁.content.trans hwrite).wrote hwrote
            refine ⟨status, s₅, db₅, ?_, .inr ⟨kind, rfl, rfl, ?_⟩⟩
            · show (do
                  let s ← occasionalWalSync a { s₁ with txnDb := some db₄ }
                  pure (status, s)) = _
              rw [hrun]
              rfl
            · exact
                { toOpenWith := hopen₅
                  data := hdata.trans hwrote'.data
                  overwritten := hover.trans hwrote'.overwritten
                  wal := hwal.trans hwrote'.wal
                  kinds := hkinds.trans h₁.kinds
                  due := fun hd => hdue (hiff.mp hd)
                  notDue := fun hn => by
                    obtain ⟨ht, hl, hs⟩ := hnot (fun hd => hn (hiff.mpr hd))
                    refine ⟨ht.trans (by rw [h₁.total]), hl.trans h₁.lastSync, ?_⟩
                    rw [hs, hsynced, Db.apply_synced, hwrite.synced, h₁.content.synced] }

/-! ## Public operations -/

/-- A call that reported a code other than Ok and changed nothing. -/
def Failed (status status' : Option ℤ) (s : StoreImpl) (db : Db) (s' : StoreImpl) (db' : Db) : Prop :=
  ∃ c, c ≠ Status.ok ∧ status' = assign c status ∧ Untouched s db s' db'

/-- A call that was refused before it reached the database. -/
theorem OpenWith.failed {s : StoreImpl} {db : Db} (h : OpenWith s db) {c : ℤ} (hc : c ≠ Status.ok)
    (status : Option ℤ) : Failed status (assign c status) s db s db :=
  ⟨c, hc, rfl, h.untouched⟩

/-- On an open store the frame of the void operations refuses bad arguments or runs the body. -/
theorem voidOp_open {s : StoreImpl} {db : Db} (h : OpenWith s db)
    (body : Option ℤ → Bytes → StoreImpl → Except Halt (Option ℤ × StoreImpl))
    (status : Option ℤ) (kind : Kind) (key : Option Bytes) :
    s.voidOp body status kind key = .ok (assign Status.invalidArgument status, s) ∨
      ∃ key', key = some key' ∧ s.voidOp body status kind key = body (assign Status.ok status) key' s := by
  cases key with
  | none => exact .inl rfl
  | some key =>
    by_cases hv : kind.isValid
    · refine .inr ⟨key, rfl, ?_⟩
      simp only [voidOp, hv, if_true, h.validateOpen_eq]
    · refine .inl ?_
      simp only [voidOp, hv]
      rfl

/-- The reply of a buffer-returning operation whose body returned. -/
def replyOf (x : Option ℤ × ℕ × Option Bytes × StoreImpl) : Reply × StoreImpl :=
  ({ status := x.1, resultLen := some x.2.1, data := x.2.2.1 }, x.2.2.2)

/-- On an open store the frame of the reading operations refuses bad arguments or runs the body. -/
theorem readOp_open {s : StoreImpl} {db : Db} (h : OpenWith s db)
    (body : Option ℤ → Bytes → StoreImpl → Except Halt (Option ℤ × ℕ × Option Bytes × StoreImpl))
    (status : Option ℤ) (kind : Kind) (resultLen : Option ℕ) (key : Option Bytes) :
    s.readOp body status kind resultLen key =
        .ok ({ status := assign Status.invalidArgument status, resultLen }, s) ∨
      ∃ key', key = some key' ∧ s.readOp body status kind resultLen key =
        (body (assign Status.ok status) key' s).map replyOf := by
  rcases key with _ | key
  · exact .inl rfl
  rcases resultLen with _ | len
  · exact .inl rfl
  by_cases hv : kind.isValid
  · refine .inr ⟨key, rfl, ?_⟩
    simp only [readOp, hv, if_true, h.validateOpen_eq]
    cases body (assign Status.ok status) key s <;> rfl
  · refine .inl ?_
    simp only [readOp, hv]
    rfl

/-- `put`, `remove` and `singleRemove`: the frame around a transactional write. -/
theorem voidWrite_open {s : StoreImpl} {db : Db} (h : OpenWith s db) (a : Answers)
    (write : Bytes → Handle → Write) (status : Option ℤ) (kind : Kind) (key : Option Bytes) :
    ∃ status' s' db',
      s.voidOp (fun status key s => s.txWrite a (write key) status kind) status kind key
        = .ok (status', s') ∧
      (Failed status status' s db s' db' ∨
        ∃ k key', kind = .impl k ∧ key = some key' ∧ status' = assign Status.ok status ∧
          Committed a (write key' k.handle) s db s' db') := by
  rcases voidOp_open h (fun status key s => s.txWrite a (write key) status kind) status kind key with
    hrun | ⟨key', rfl, hrun⟩
  · exact ⟨_, s, db, hrun, .inl (h.failed (by decide) status)⟩
  · obtain ⟨status', s', db', hbody, hres⟩ :=
      txWrite_open h a (write key') (assign Status.ok status) kind
    refine ⟨status', s', db', hrun.trans hbody, ?_⟩
    rcases hres with ⟨c, hc, rfl, hu⟩ | ⟨k, rfl, rfl, hcom⟩
    · exact .inl ⟨c, hc, assign_assign _ _ _, hu⟩
    · exact .inr ⟨k, key', rfl, rfl, rfl, hcom⟩

/-- The buffer that stands for a value: null for the empty one. -/
def buffer (value : Bytes) : Option Bytes := if value.isEmpty then none else some value

/-- The three answers of `get_` on an open store. -/
theorem getBody_open {s : StoreImpl} {db : Db} (h : OpenWith s db) (a : Answers) (status : Option ℤ)
    (k : KindImpl) (key : Bytes) :
    (∃ value, (db.data k.handle).lookup key = some value ∧
        s.get_ a status (.impl k) 0 key = .ok (status, value.length, buffer value)) ∨
      ((db.data k.handle).lookup key = none ∧
        s.get_ a status (.impl k) 0 key = .ok (assign Status.notFound status, 0, none)) ∨
      (∃ e : ReadError, s.get_ a status (.impl k) 0 key = .ok (assign e.1.code status, 0, none)) := by
  simp only [get_, Kind.toKindImpl, h.deref_eq, ok_bind]
  cases hget : a.get with
  | some e => exact .inr (.inr ⟨e, rfl⟩)
  | none =>
    cases hl : (db.data k.handle).lookup key with
    | none => exact .inr (.inl ⟨rfl, by simp only [Db.get, hl]; rfl⟩)
    | some value =>
      refine .inl ⟨value, rfl, ?_⟩
      cases value <;> simp only [Db.get, hl, buffer] <;> rfl

/-- A failed read carries neither of the two codes that the conditional operations test for. -/
theorem readError_code_ne (e : ReadError) : e.1.code ≠ Status.ok ∧ e.1.code ≠ Status.notFound :=
  ⟨e.1.code_pos.ne', fun hc => e.2 ((Error.code_eq_one_iff e.1).mp hc)⟩

/-- `get` never changes the store, and reports Ok only with the stored value. -/
theorem get_open {s : StoreImpl} {db : Db} (h : OpenWith s db) (a : Answers) (status : Option ℤ)
    (kind : Kind) (resultLen : Option ℕ) (key : Option Bytes) :
    ∃ r, s.get a status kind resultLen key = .ok (r, s) ∧
      ((∃ c, c ≠ Status.ok ∧ r.status = assign c status ∧ r.data = none) ∨
        ∃ k key' value, kind = .impl k ∧ key = some key' ∧ r.status = assign Status.ok status ∧
          (db.data k.handle).lookup key' = some value ∧
          r.data = buffer value ∧ r.resultLen = some value.length) := by
  unfold get
  rcases readOp_open h _ status kind resultLen key with hrun | ⟨key', rfl, hrun⟩
  · exact ⟨_, hrun, .inl ⟨Status.invalidArgument, by decide, rfl, rfl⟩⟩
  cases kind with
  | other name valid =>
    exact ⟨_, hrun, .inl ⟨Status.invalidArgument, by decide, assign_assign _ _ _, rfl⟩⟩
  | impl k =>
    rcases getBody_open h a (assign Status.ok status) k key' with
      ⟨value, hl, hbody⟩ | ⟨-, hbody⟩ | ⟨e, hbody⟩
    · rw [hbody] at hrun
      exact ⟨_, hrun, .inr ⟨k, key', value, rfl, rfl, rfl, hl, rfl, rfl⟩⟩
    · rw [hbody] at hrun
      exact ⟨_, hrun, .inl ⟨Status.notFound, by decide, assign_assign _ _ _, rfl⟩⟩
    · rw [hbody] at hrun
      exact ⟨_, hrun, .inl ⟨e.1.code, (readError_code_ne e).1, assign_assign _ _ _, rfl⟩⟩

/-- `updateIfPresent`, `singleRemoveIfPresent` and `removeIfPresent`: an Ok means that the key was
present, its old value was returned, and the write was committed. -/
theorem ifPresent_open {s : StoreImpl} {db : Db} (h : OpenWith s db) (a : Answers)
    (write : Bytes → Handle → Write) (status : Option ℤ) (kind : Kind) (resultLen : Option ℕ)
    (key : Option Bytes) :
    ∃ r s' db',
      s.readOp (ifPresent a (fun status kind key s => s.txWrite a (write key) status kind) kind)
        status kind resultLen key = .ok (r, s') ∧
      (Failed status r.status s db s' db' ∨
        ∃ k key' value, kind = .impl k ∧ key = some key' ∧ r.status = assign Status.ok status ∧
          (db.data k.handle).lookup key' = some value ∧
          r.data = buffer value ∧ r.resultLen = some value.length ∧
          Committed a (write key' k.handle) s db s' db') := by
  rcases readOp_open h (ifPresent a (fun status kind key s => s.txWrite a (write key) status kind) kind)
      status kind resultLen key with hrun | ⟨key', rfl, hrun⟩
  · exact ⟨_, s, db, hrun, .inl (h.failed (by decide) status)⟩
  cases kind with
  | other name valid =>
    exact ⟨_, s, db, hrun, .inl ⟨Status.invalidArgument, by decide, assign_assign _ _ _, h.untouched⟩⟩
  | impl k =>
    rcases getBody_open h a (some Status.ok) k key' with
      ⟨value, hl, hbody⟩ | ⟨-, hbody⟩ | ⟨e, hbody⟩
    · obtain ⟨status', s', db', hwrite, hres⟩ :=
        txWrite_open h a (write key') (some Status.ok) (.impl k)
      simp only [ifPresent, hbody, ok_bind, if_true, hwrite] at hrun
      refine ⟨_, s', db', hrun, ?_⟩
      rcases hres with ⟨c, hc, rfl, hu⟩ | ⟨k', hk, rfl, hcom⟩
      · exact .inl ⟨c, hc, assign_assign _ _ _, hu⟩
      · cases hk
        exact .inr ⟨k, key', value, rfl, rfl, assign_assign _ _ _, hl, rfl, rfl, hcom⟩
    · simp only [ifPresent, hbody, ok_bind] at hrun
      exact ⟨_, s, db, hrun, .inl ⟨Status.notFound, by decide, assign_assign _ _ _, h.untouched⟩⟩
    · have hne : (some e.1.code : Option ℤ) ≠ some Status.ok := by
        simpa using (readError_code_ne e).1
      simp only [ifPresent, hbody, ok_bind, assign_some, if_neg hne] at hrun
      exact ⟨_, s, db, hrun, .inl ⟨e.1.code, (readError_code_ne e).1, assign_assign _ _ _, h.untouched⟩⟩

/-- A conditional operation hands out nothing or the value, whatever becomes of its write. -/
theorem ifPresent_hands {s s' : StoreImpl} {db : Db} (h : OpenWith s db) {a : Answers}
    {write : Bytes → Handle → Write} {status : Option ℤ} {kind : Kind} {resultLen : Option ℕ}
    {key : Option Bytes} {r : Reply}
    (hrun : s.readOp (ifPresent a (fun status kind key s => s.txWrite a (write key) status kind) kind)
      status kind resultLen key = .ok (r, s')) :
    r.data = none ∨ ∃ k key' value, kind = .impl k ∧ key = some key' ∧
      (db.data k.handle).lookup key' = some value ∧ r.data = buffer value ∧
      r.resultLen = some value.length := by
  rcases readOp_open h (ifPresent a (fun status kind key s => s.txWrite a (write key) status kind) kind)
      status kind resultLen key with hno | ⟨key', rfl, hgo⟩
  · rw [hno] at hrun
    cases hrun
    exact .inl rfl
  rw [hgo] at hrun
  obtain ⟨⟨st, len, data, s₁⟩, hbody, heq⟩ := exists_of_map_eq_ok hrun
  cases heq
  -- the write has no part in what is handed out
  have hget : ∃ state, s.get_ a (some Status.ok) kind 0 key' = .ok (state, len, data) := by
    obtain ⟨⟨state, len', old⟩, hget, hrest⟩ := exists_of_bind_eq_ok hbody
    by_cases hok : state = some Status.ok
    · simp only [if_pos hok] at hrest
      obtain ⟨y, -, hret⟩ := exists_of_bind_eq_ok hrest
      cases hret
      exact ⟨state, hget⟩
    · simp only [if_neg hok] at hrest
      cases hrest
      exact ⟨state, hget⟩
  obtain ⟨state, hget⟩ := hget
  cases kind with
  | other name valid =>
    cases hget
    exact .inl rfl
  | impl k =>
    rcases getBody_open h a (some Status.ok) k key' with
      ⟨value, hl, hfound⟩ | ⟨-, hmissed⟩ | ⟨e, hfailed⟩
    · cases hfound.symm.trans hget
      exact .inr ⟨k, key', value, rfl, rfl, hl, rfl, rfl⟩
    · cases hmissed.symm.trans hget
      exact .inl rfl
    · cases hfailed.symm.trans hget
      exact .inl rfl

/-- `putIfAbsent`: an Ok means that the key was absent and the write was committed. -/
theorem putIfAbsent_open {s : StoreImpl} {db : Db} (h : OpenWith s db) (a : Answers)
    (status : Option ℤ) (kind : Kind) (key : Option Bytes) (value : Bytes) :
    ∃ status' s' db', s.putIfAbsent a status kind key value = .ok (status', s') ∧
      (Failed status status' s db s' db' ∨
        ∃ k key', kind = .impl k ∧ key = some key' ∧ status' = assign Status.ok status ∧
          (db.data k.handle).lookup key' = none ∧
          Committed a (.put k.handle key' value) s db s' db') := by
  unfold putIfAbsent
  rcases voidOp_open h _ status kind key with hrun | ⟨key', rfl, hrun⟩
  · exact ⟨_, s, db, hrun, .inl (h.failed (by decide) status)⟩
  cases kind with
  | other name valid =>
    exact ⟨_, s, db, hrun, .inl ⟨Status.invalidArgument, by decide, assign_assign _ _ _, h.untouched⟩⟩
  | impl k =>
    rcases getBody_open h a (some Status.ok) k key' with
      ⟨old, hl, hbody⟩ | ⟨hl, hbody⟩ | ⟨e, hbody⟩
    · simp only [hbody, ok_bind] at hrun
      exact ⟨_, s, db, hrun, .inl ⟨Status.alreadyExists, by decide, assign_assign _ _ _, h.untouched⟩⟩
    · obtain ⟨status', s', db', hwrite, hres⟩ :=
        txWrite_open h a (fun fam => .put fam key' value) (some Status.ok) (.impl k)
      simp only [hbody, ok_bind, assign_some, if_true, put_, hwrite] at hrun
      refine ⟨_, s', db', hrun, ?_⟩
      rcases hres with ⟨c, hc, rfl, hu⟩ | ⟨k', hk, rfl, hcom⟩
      · exact .inl ⟨c, hc, assign_assign _ _ _, hu⟩
      · cases hk
        exact .inr ⟨k, key', rfl, rfl, assign_assign _ _ _, hl, hcom⟩
    · have hne : (some e.1.code : Option ℤ) ≠ some Status.notFound := by
        simpa using (readError_code_ne e).2
      have hne' : (some e.1.code : Option ℤ) ≠ some Status.ok := by
        simpa using (readError_code_ne e).1
      simp only [hbody, ok_bind, assign_some, if_neg hne, if_neg hne'] at hrun
      exact ⟨_, s, db, hrun, .inl ⟨e.1.code, (readError_code_ne e).1, assign_assign _ _ _, h.untouched⟩⟩

/-- `removeRange`: an Ok means that nothing was refused and the write was committed, with no
bookkeeping. -/
theorem removeRange_open {s : StoreImpl} {db : Db} (h : OpenWith s db) (a : Answers)
    (status : Option ℤ) (kind : Kind) (b e : Option Bytes) :
    ∃ status' s' db', s.removeRange a status kind b e = .ok (status', s') ∧
      (Failed status status' s db s' db' ∨
        ∃ k b' e', kind = .impl k ∧ b = some b' ∧ e = some e' ∧
          (k.isValid = true ∧ b' ≤ e' ∧ a.batch = none ∧ a.dbWrite = none) ∧
          status' = assign Status.ok status ∧
          Unbooked (.deleteRange k.handle b' e') s db s' db') := by
  rcases b with _ | b
  · exact ⟨_, s, db, rfl, .inl (h.failed (by decide) status)⟩
  rcases e with _ | e
  · exact ⟨_, s, db, rfl, .inl (h.failed (by decide) status)⟩
  by_cases hv : kind.isValid
  · cases kind with
    | other name valid =>
      refine ⟨_, s, db, ?_, .inl (h.failed (c := Status.invalidArgument) (by decide) status)⟩
      simp only [removeRange, hv, if_true, h.validateOpen_eq, Kind.toKindImpl]
      rw [assign_assign]
      rfl
    | impl k =>
      simp only [removeRange, hv, if_true, h.validateOpen_eq, Kind.toKindImpl]
      cases a.batch with
      | some err =>
        exact ⟨_, s, db, rfl, .inl ⟨err.code, err.code_pos.ne', assign_assign _ _ _, h.untouched⟩⟩
      | none =>
        simp only [h.deref_eq, ok_bind, Db.writeRange]
        by_cases hlt : e < b
        · rw [if_pos hlt]
          refine ⟨_, _, db, rfl, .inl ⟨_, by decide, assign_assign _ _ _, ?_⟩⟩
          exact { isOpen := h.isOpen, txnDb := rfl, content := .refl db, kinds := rfl, total := rfl,
                  lastSync := rfl }
        · rw [if_neg hlt]
          cases a.dbWrite with
          | some err =>
            refine ⟨_, _, db, rfl, .inl ⟨err.code, err.code_pos.ne', assign_assign _ _ _, ?_⟩⟩
            exact { isOpen := h.isOpen, txnDb := rfl, content := .refl db, kinds := rfl, total := rfl,
                    lastSync := rfl }
          | none =>
            refine ⟨_, _, db.commitWrites [.deleteRange k.handle b e], rfl,
              .inr ⟨k, b, e, rfl, rfl, rfl, ⟨hv, not_lt.mp hlt, trivial, rfl⟩, rfl, ?_⟩⟩
            exact { isOpen := h.isOpen, txnDb := rfl, data := rfl, overwritten := rfl, wal := rfl,
                    kinds := rfl, total := rfl, lastSync := rfl, synced := rfl }
  · refine ⟨_, s, db, ?_, .inl (h.failed (c := Status.invalidArgument) (by decide) status)⟩
    simp only [removeRange, hv]
    rfl

/-! ## Calls that RocksDB grants -/

/-- RocksDB grants what a put, a removal or a read asks of it. -/
structure Faultless (a : Answers) : Prop where
  reuse : a.reuse = true
  begins : a.begins = true
  write : a.write = none
  commit : a.commit = none
  get : a.get = none

theorem faultless_default : Faultless {} := ⟨rfl, rfl, rfl, rfl, rfl⟩

variable {s : StoreImpl} {db : Db} {a : Answers} {kd : KindImpl} {key : Bytes}

theorem txWrite_faultless (h : OpenWith s db) (ha : Faultless a) (kd : KindImpl)
    (write : Handle → Write) (status : Option ℤ) :
    ∃ s', s.txWrite a write status (.impl kd) = .ok (status, s') := by
  obtain ⟨old, s₁, db₁, hreuse, h₁⟩ := reusableTx_open h a
  simp only [txWrite, Kind.toKindImpl, hreuse, ok_bind, h₁.toOpenWith.deref_eq, ha.write, ha.commit]
  cases hb : db₁.beginTransaction a.begins old with
  | mk tx db₂ =>
    cases tx with
    | none =>
      rw [ha.begins] at hb
      cases old <;> cases hb
    | some tx =>
      simp only [Db.txnWrite, Db.txnCommit]
      obtain ⟨s₃, -, hsync, -⟩ := occasionalWalSync_open
        (s := { s₁ with txnDb := some _ }) ⟨h₁.isOpen, rfl⟩ a
      rw [hsync]
      exact ⟨s₃, rfl⟩

/-- A `put` or `singleRemove` on a Kind is granted. -/
theorem voidWrite_faultless (h : OpenWith s db) (ha : Faultless a) (hv : kd.isValid = true)
    (write : Bytes → Handle → Write) (c : ℤ) (key : Bytes) :
    ∃ s', s.voidOp (fun status key s => s.txWrite a (write key) status (.impl kd)) (some c)
      (.impl kd) (some key) = .ok (some Status.ok, s') := by
  have hvalid : (Kind.impl kd).isValid = true := hv
  simp only [voidOp, hvalid, if_true, h.validateOpen_eq]
  exact txWrite_faultless h ha kd _ _

theorem get_faultless (h : OpenWith s db) (ha : Faultless a) (status : Option ℤ) {v : Bytes}
    (hkey : (db.data kd.handle).lookup key = some v) :
    s.get_ a status (.impl kd) 0 key = .ok (status, v.length, buffer v) := by
  simp only [get_, Kind.toKindImpl, h.deref_eq, ok_bind, ha.get, Db.get, hkey]
  cases v <;> rfl

/-- A removal of a key that is there reads it, and is granted. -/
theorem ifPresent_faultless (h : OpenWith s db) (ha : Faultless a) (status : Option ℤ) {v : Bytes}
    (hkey : (db.data kd.handle).lookup key = some v) :
    ∃ s', ifPresent a (fun status kind key s => s.singleRemove_ a status kind key) (.impl kd) status
      key s = .ok (assign Status.ok status, v.length, buffer v, s') := by
  obtain ⟨s', hwrite⟩ := txWrite_faultless h ha kd (fun fam => .singleDelete fam key a.undefined)
    (some Status.ok)
  refine ⟨s', ?_⟩
  simp only [ifPresent, get_faultless h ha _ hkey, ok_bind, if_true, singleRemove_, hwrite,
    Option.getD_some]
  rfl

theorem singleRemoveIfPresent_faultless (h : OpenWith s db) (ha : Faultless a)
    (hv : kd.isValid = true) (c : ℤ) (len : ℕ) {v : Bytes}
    (hkey : (db.data kd.handle).lookup key = some v) :
    ∃ s', s.singleRemoveIfPresent a (some c) (.impl kd) (some len) (some key)
      = .ok ({ status := some Status.ok, resultLen := some v.length, data := buffer v }, s') := by
  have hvalid : (Kind.impl kd).isValid = true := hv
  obtain ⟨s', hbody⟩ := ifPresent_faultless h ha (some Status.ok) hkey
  refine ⟨s', ?_⟩
  simp only [singleRemoveIfPresent, readOp, hvalid, if_true, h.validateOpen_eq, assign_some, hbody]
  rfl

theorem get_granted (h : OpenWith s db) (ha : Faultless a) (hv : kd.isValid = true) (c : ℤ) (len : ℕ)
    {v : Bytes} (hkey : (db.data kd.handle).lookup key = some v) :
    s.get a (some c) (.impl kd) (some len) (some key)
      = .ok ({ status := some Status.ok, resultLen := some v.length, data := buffer v }, s) := by
  have hvalid : (Kind.impl kd).isValid = true := hv
  simp only [get, readOp, hvalid, if_true, h.validateOpen_eq, assign_some, get_faultless h ha _ hkey]
  rfl

/-- A key that is there is found, even where an argument is refused. -/
theorem singleRemoveIfPresent_found (h : OpenWith s db) (ha : Faultless a) {c : ℤ}
    {len : Option ℕ} {v : Bytes} (hkey : (db.data kd.handle).lookup key = some v) {r : Reply}
    {s' : StoreImpl}
    (hrun : s.singleRemoveIfPresent a (some c) (.impl kd) len (some key) = .ok (r, s')) :
    r.status ≠ some Status.notFound := by
  unfold singleRemoveIfPresent at hrun
  rcases readOp_open h (ifPresent a (fun status kind key s => s.singleRemove_ a status kind key)
      (.impl kd)) (some c) (.impl kd) len (some key) with hno | ⟨key', hkey', hbody⟩
  · rw [hno] at hrun
    cases hrun
    simp [Status.invalidArgument, Status.notFound]
  · cases hkey'
    obtain ⟨s₁, hpresent⟩ := ifPresent_faultless h ha (assign Status.ok (some c)) hkey
    rw [hbody, hpresent] at hrun
    cases hrun
    simp [Status.ok, Status.notFound]

theorem get_found (h : OpenWith s db) (ha : Faultless a) {c : ℤ} {len : Option ℕ} {v : Bytes}
    (hkey : (db.data kd.handle).lookup key = some v) {r : Reply} {s' : StoreImpl}
    (hrun : s.get a (some c) (.impl kd) len (some key) = .ok (r, s')) :
    r.status ≠ some Status.notFound := by
  unfold get at hrun
  rcases readOp_open h _ (some c) (.impl kd) len (some key) with hno | ⟨key', hkey', hbody⟩
  · rw [hno] at hrun
    cases hrun
    simp [Status.invalidArgument, Status.notFound]
  · cases hkey'
    rw [hbody, get_faultless h ha _ hkey] at hrun
    cases hrun
    simp [Status.ok, Status.notFound]

/-! ## What the database of a store keeps -/

/-- The database of a store, if it has one, meets `Q`. -/
def Holds (Q : Db → Prop) (s : StoreImpl) : Prop := ∀ db, s.txnDb = some db → Q db

/-- `Q` is kept by what the calls do to a database that buffer and commit the writes in `W`. -/
structure Stable (W : Write → Prop) (Q : Db → Prop) : Prop where
  beginTransaction : ∀ {db} succeeds old, Q db → Q (db.beginTransaction succeeds old).2
  txnWrite : ∀ {db w} error tx, W w → Q db → Q (db.txnWrite error tx w).2
  txnCommit : ∀ {db} error tx, Q db → Q (db.txnCommit error tx).2
  writeRange : ∀ {db} error h b e, Q db → Q (db.writeRange error h b e).2
  flushWAL : ∀ {db} error, Q db → Q (db.flushWAL error)

section Holds

variable {W : Write → Prop} {Q : Db → Prop} {db : Db} {s s' : StoreImpl} {a : Answers}

theorem Holds.of_some (hdb : s.txnDb = some db) (h : Q db) : Holds Q s := by
  intro db' hdb'
  obtain rfl := Option.some.inj (hdb.symm.trans hdb')
  exact h

theorem deref_holds (h : Holds Q s) (hdb : s.deref = .ok db) : Q db := by
  simp only [deref] at hdb
  split at hdb
  · rename_i heq
    cases hdb
    exact h _ heq
  · cases hdb

theorem syncWALNoLock_holds (hQ : Stable W Q) (h : Holds Q s) (hrun : s.syncWALNoLock a = .ok s') :
    Holds Q s' := by
  simp only [syncWALNoLock] at hrun
  split_ifs at hrun
  · obtain ⟨db, hdb, hrun⟩ := exists_of_bind_eq_ok hrun
    obtain rfl := Except.ok.inj hrun
    exact .of_some rfl (hQ.flushWAL _ (deref_holds h hdb))
  · obtain rfl := Except.ok.inj hrun
    exact h

theorem occasionalWalSync_holds (hQ : Stable W Q) (h : Holds Q s)
    (hrun : s.occasionalWalSync a = .ok s') : Holds Q s' := by
  simp only [occasionalWalSync] at hrun
  split_ifs at hrun
  · obtain ⟨s₁, hsync, hrun⟩ := exists_of_bind_eq_ok hrun
    obtain rfl := Except.ok.inj hrun
    have hcounted : Holds Q { s with totalSinceLastSync := s.totalSinceLastSync + 1 } := h
    have h₁ : Holds Q s₁ := syncWALNoLock_holds hQ hcounted hsync
    exact h₁
  · obtain rfl := Except.ok.inj hrun
    exact h

theorem reusableTx_holds (hQ : Stable W Q) (h : Holds Q s) {old : Option TxnId}
    (hrun : s.reusableTx a = .ok (old, s')) : Holds Q s' := by
  simp only [reusableTx] at hrun
  split at hrun
  · cases hrun
    exact h
  · obtain ⟨db, hdb, hrun⟩ := exists_of_bind_eq_ok hrun
    cases hrun
    exact .of_some rfl (hQ.beginTransaction _ _ (deref_holds h hdb))

/-- A transactional write: begin, buffer, commit and sync, or stop at the first failure. -/
theorem txWrite_holds (hQ : Stable W Q) (h : Holds Q s) {write : Handle → Write}
    (hw : ∀ fam, W (write fam)) {status status' : Option ℤ} {k : Kind}
    (hrun : s.txWrite a write status k = .ok (status', s')) : Holds Q s' := by
  cases k with
  | other name valid =>
    cases hrun
    exact h
  | impl kind =>
    simp only [txWrite, Kind.toKindImpl] at hrun
    obtain ⟨⟨old, s₁⟩, hreuse, hrun⟩ := exists_of_bind_eq_ok hrun
    obtain ⟨db₁, hdb₁, hrun⟩ := exists_of_bind_eq_ok hrun
    have h₁ := hQ.beginTransaction a.begins old (deref_holds (reusableTx_holds hQ h hreuse) hdb₁)
    cases hb : db₁.beginTransaction a.begins old with
    | mk tx db₂ =>
      rw [hb] at h₁
      simp only [hb] at hrun
      cases tx with
      | none =>
        cases hrun
        exact .of_some rfl h₁
      | some tx =>
        have h₂ := hQ.txnWrite a.write tx (hw kind.handle) h₁
        cases hwrite : db₂.txnWrite a.write tx (write kind.handle) with
        | mk error db₃ =>
          rw [hwrite] at h₂
          simp only [hwrite] at hrun
          cases error with
          | some e =>
            cases hrun
            exact .of_some rfl h₂
          | none =>
            have h₃ := hQ.txnCommit a.commit tx h₂
            cases hcommit : db₃.txnCommit a.commit tx with
            | mk error db₄ =>
              rw [hcommit] at h₃
              simp only [hcommit] at hrun
              cases error with
              | some e =>
                cases hrun
                exact .of_some rfl h₃
              | none =>
                obtain ⟨s₅, hsync, hrun⟩ := exists_of_bind_eq_ok hrun
                cases hrun
                exact occasionalWalSync_holds hQ (.of_some rfl h₃) hsync

/-- The frame of the void operations keeps what its body keeps. -/
theorem voidOp_holds (h : Holds Q s)
    {body : Option ℤ → Bytes → StoreImpl → Except Halt (Option ℤ × StoreImpl)}
    (hbody : ∀ status key s s' status', Holds Q s → body status key s = .ok (status', s') →
      Holds Q s') {status status' : Option ℤ} {kind : Kind} {key : Option Bytes}
    (hrun : s.voidOp body status kind key = .ok (status', s')) : Holds Q s' := by
  cases key with
  | none =>
    cases hrun
    exact h
  | some key =>
    simp only [voidOp, validateOpen] at hrun
    split_ifs at hrun
    · exact hbody _ _ _ _ _ h hrun
    · cases hrun
      exact h
    · cases hrun
      exact h

/-- The frame of the operations that return a buffer, likewise. -/
theorem readOp_holds (h : Holds Q s)
    {body : Option ℤ → Bytes → StoreImpl → Except Halt (Option ℤ × ℕ × Option Bytes × StoreImpl)}
    (hbody : ∀ status key s x, Holds Q s → body status key s = .ok x → Holds Q x.2.2.2)
    {status : Option ℤ} {kind : Kind} {len : Option ℕ} {key : Option Bytes} {r : Reply}
    (hrun : s.readOp body status kind len key = .ok (r, s')) : Holds Q s' := by
  cases key with
  | none =>
    cases hrun
    exact h
  | some key =>
    cases len with
    | none =>
      cases hrun
      exact h
    | some len =>
      simp only [readOp, validateOpen] at hrun
      split_ifs at hrun
      · obtain ⟨x, hx, hrun⟩ := exists_of_bind_eq_ok hrun
        cases hrun
        exact hbody _ _ _ _ h hx
      · cases hrun
        exact h
      · cases hrun
        exact h

/-- `put`, `remove` and `singleRemove`. -/
theorem voidWrite_holds (write : Bytes → Handle → Write) (hQ : Stable W Q) (h : Holds Q s)
    (hw : ∀ key fam, W (write key fam)) {status status' : Option ℤ} {kind : Kind}
    {key : Option Bytes}
    (hrun : s.voidOp (fun status key s => s.txWrite a (write key) status kind) status kind key
      = .ok (status', s')) : Holds Q s' :=
  voidOp_holds h (fun _ key _ _ _ hs hbody => txWrite_holds hQ hs (hw key) hbody) hrun

/-- `updateIfPresent`, `singleRemoveIfPresent` and `removeIfPresent`. -/
theorem ifPresent_holds (write : Bytes → Handle → Write) (hQ : Stable W Q) (h : Holds Q s)
    (hw : ∀ key fam, W (write key fam)) {status : Option ℤ} {kind : Kind} {len : Option ℕ}
    {key : Option Bytes} {r : Reply}
    (hrun : s.readOp (ifPresent a (fun status kind key s => s.txWrite a (write key) status kind) kind)
      status kind len key = .ok (r, s')) : Holds Q s' := by
  refine readOp_holds h (fun status key s x hs hbody => ?_) hrun
  obtain ⟨⟨state, len, oldVal⟩, -, hbody⟩ := exists_of_bind_eq_ok hbody
  simp only at hbody
  split_ifs at hbody
  · obtain ⟨⟨state', s₁⟩, hwrite, hbody⟩ := exists_of_bind_eq_ok hbody
    cases hbody
    exact txWrite_holds hQ hs (hw key) hwrite
  · cases hbody
    exact hs

theorem putIfAbsent_holds (hQ : Stable W Q) (h : Holds Q s) (hw : ∀ fam key value, W (.put fam key value))
    {status status' : Option ℤ} {kind : Kind} {key : Option Bytes} {value : Bytes}
    (hrun : s.putIfAbsent a status kind key value = .ok (status', s')) : Holds Q s' := by
  refine voidOp_holds h (fun status key s s' status' hs hbody => ?_) hrun
  obtain ⟨⟨state, len, oldVal⟩, -, hbody⟩ := exists_of_bind_eq_ok hbody
  simp only at hbody
  split_ifs at hbody
  · obtain ⟨⟨state', s₁⟩, hwrite, hbody⟩ := exists_of_bind_eq_ok hbody
    cases hbody
    exact txWrite_holds hQ hs (fun fam => hw fam key value) hwrite
  · cases hbody
    exact hs
  · cases hbody
    exact hs

theorem get_holds (h : Holds Q s) {status : Option ℤ} {kind : Kind} {len : Option ℕ}
    {key : Option Bytes} {r : Reply} (hrun : s.get a status kind len key = .ok (r, s')) :
    Holds Q s' := by
  refine readOp_holds h (fun status key s x hs hbody => ?_) hrun
  obtain ⟨y, -, hbody⟩ := exists_of_bind_eq_ok hbody
  cases hbody
  exact hs

theorem removeRange_holds (hQ : Stable W Q) (h : Holds Q s) {status status' : Option ℤ} {kind : Kind}
    {b e : Option Bytes} (hrun : s.removeRange a status kind b e = .ok (status', s')) :
    Holds Q s' := by
  cases b with
  | none =>
    cases hrun
    exact h
  | some b =>
    cases e with
    | none =>
      cases hrun
      exact h
    | some e =>
      simp only [removeRange, validateOpen] at hrun
      split_ifs at hrun
      · cases hk : kind.toKindImpl with
        | none =>
          simp only [hk] at hrun
          cases hrun
          exact h
        | some k =>
          cases hb : a.batch with
          | some err =>
            simp only [hk, hb] at hrun
            cases hrun
            exact h
          | none =>
            simp only [hk, hb] at hrun
            obtain ⟨db, hdb, hrun⟩ := exists_of_bind_eq_ok hrun
            have hrange := hQ.writeRange a.dbWrite k.handle b e (deref_holds h hdb)
            cases hwrite : db.writeRange a.dbWrite k.handle b e with
            | mk error db₁ =>
              rw [hwrite] at hrange
              simp only [hwrite] at hrun
              cases error <;>
              · cases hrun
                exact .of_some rfl hrange
      · cases hrun
        exact h
      · cases hrun
        exact h

end Holds

/-! ## Transaction buffers -/

/-- The writes that wait in the transaction objects of a database. -/
def Pending (P : Write → Prop) (db : Db) : Prop := ∀ tx, ∀ w ∈ db.txns tx, P w

/-- The same of the database of a store. -/
def Buffers (P : Write → Prop) (s : StoreImpl) : Prop := ∀ db, s.txnDb = some db → Pending P db

section Buffers

variable {P : Write → Prop} {db : Db} {s s' : StoreImpl} {a : Answers}

theorem Pending.update (h : Pending P db) (tx : TxnId) {ws : List Write} (hws : ∀ w ∈ ws, P w)
    {db' : Db} (hdb : db'.txns = Function.update db.txns tx ws) : Pending P db' := by
  intro tx' w hmem
  rw [hdb, Function.update_apply] at hmem
  split_ifs at hmem
  · exact hws w hmem
  · exact h tx' w hmem

theorem Pending.beginTransaction (h : Pending P db) (succeeds : Bool) (old : Option TxnId) :
    Pending P (db.beginTransaction succeeds old).2 := by
  cases succeeds with
  | false => exact h
  | true =>
    cases old with
    | none => exact h.update db.nextTxn (fun _ hno => absurd hno List.not_mem_nil) rfl
    | some tx => exact h.update tx (fun _ hno => absurd hno List.not_mem_nil) rfl

theorem Pending.txnWrite (h : Pending P db) (error : Option Error) (tx : TxnId) {w : Write}
    (hw : P w) : Pending P (db.txnWrite error tx w).2 := by
  cases error with
  | some e => exact h
  | none =>
    refine h.update tx (fun w' hmem => ?_) rfl
    rcases List.mem_append.mp hmem with hold | hnew
    · exact h tx w' hold
    · rw [List.mem_singleton.mp hnew]
      exact hw

theorem Pending.txnCommit (h : Pending P db) (error : Option Error) (tx : TxnId) :
    Pending P (db.txnCommit error tx).2 := by
  cases error with
  | some e => exact h
  | none =>
    exact h.update tx (fun _ hno => absurd hno List.not_mem_nil) rfl

/-- The calls buffer their own writes and nothing else. -/
theorem Pending.stable : Stable P (Pending P) where
  beginTransaction succeeds old h := h.beginTransaction succeeds old
  txnWrite error tx hw h := h.txnWrite error tx hw
  txnCommit error tx h := h.txnCommit error tx
  writeRange error h b e hdb := by
    unfold Db.writeRange
    split_ifs
    · exact hdb
    · cases error <;> exact hdb
  flushWAL error h := by cases error <;> exact h

theorem put_buffers (h : Buffers P s) (hP : ∀ fam key value, P (.put fam key value))
    {status status' : Option ℤ} {kind : Kind} {key : Option Bytes} {value : Bytes}
    (hrun : s.put a status kind key value = .ok (status', s')) : Buffers P s' :=
  voidWrite_holds (fun key fam => .put fam key value) Pending.stable h (fun _ _ => hP _ _ _) hrun

theorem singleRemove_buffers (h : Buffers P s)
    (hP : ∀ fam key undefined, P (.singleDelete fam key undefined)) {status status' : Option ℤ}
    {kind : Kind} {key : Option Bytes} (hrun : s.singleRemove a status kind key = .ok (status', s')) :
    Buffers P s' :=
  voidWrite_holds (fun key fam => .singleDelete fam key a.undefined) Pending.stable h
    (fun _ _ => hP _ _ _) hrun

theorem singleRemoveIfPresent_buffers (h : Buffers P s)
    (hP : ∀ fam key undefined, P (.singleDelete fam key undefined)) {status : Option ℤ} {kind : Kind}
    {len : Option ℕ} {key : Option Bytes} {r : Reply}
    (hrun : s.singleRemoveIfPresent a status kind len key = .ok (r, s')) : Buffers P s' :=
  ifPresent_holds (fun key fam => .singleDelete fam key a.undefined) Pending.stable h
    (fun _ _ => hP _ _ _) hrun

theorem get_buffers (h : Buffers P s) {status : Option ℤ} {kind : Kind} {len : Option ℕ}
    {key : Option Bytes} {r : Reply} (hrun : s.get a status kind len key = .ok (r, s')) :
    Buffers P s' :=
  get_holds h hrun

end Buffers

end StoreImpl

end Librocks
