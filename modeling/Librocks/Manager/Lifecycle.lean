import Librocks.Manager.Soundness
import Librocks.Store.Durability

/-!
# Opening, using and closing through the entry points

`opens_safely_iff`: the library never dereferences a null database, from the construction on and
through every sequence of calls, exactly when `TransactionDB::Open` does not fail. When it does fail,
`openDatabase` goes on to `txnDb->EnableFileDeletions()`.

`close_durable_iff`: all committed writes are covered by a `FlushWAL(true)` when the database is
deleted exactly when they were covered before `close` was called. The sync inside `close` does
nothing, because the open flag is cleared first.
-/

namespace Librocks

open Rocks StoreImpl

/-! ## Opening -/

/-- What a client may expect of `openStore` under given answers of RocksDB: it returns; a store that it
returns is open, and through every run of calls on it the open flag implies a database, every further
call returns, and so does its destruction; a null pointer comes with the code of RocksDB and with no
open store left behind; and a failed open does return a null pointer. -/
def StoreSafe (a : OpenAnswers) : Prop :=
  ∀ b status, ∃ r, openStore a b status = .ok r ∧
    (∀ s, r.object = some s → r.status = assign Status.ok status ∧ s.isOpen = true ∧
      ∀ ls s', Run StoreImpl.Step s ls s' →
        (s'.isOpen = true → s'.txnDb.isSome = true) ∧
        (∀ (c : StoreImpl.Call) (b' : Answers), ∃ x, c.run b' s' = .ok x) ∧
        ∀ b', ∃ x, s'.destroy b' = .ok x) ∧
    (r.object = none → r.status = assign a.outcome.code status ∧
      ∃ s, r.left = some s ∧ s.isOpen = false ∧ s.txnDb = none) ∧
    (a.outcome.isOk = false → r.object = none)

/-- The same for `openKueueManager` and the calls on the manager and on its queues. A call on a queue
may also wait. -/
def ManagerSafe (a : OpenAnswers) : Prop :=
  ∀ b status, ∃ r, openKueueManager a b status = .ok r ∧
    (∀ m, r.object = some m → r.status = assign Status.ok status ∧ m.isOpen = true ∧
      ∀ ls m', Run KueueManagerImpl.Step m ls m' →
        (∀ s, m'.store = some s → s.isOpen = true → s.txnDb.isSome = true) ∧
        (∀ (c : KueueManagerImpl.Call) (as : ℕ → Answers),
          c.run as m' = .error .blocked ∨ ∃ x, c.run as m' = .ok x) ∧
        ∀ b', ∃ x, m'.destroy b' = .ok x) ∧
    (r.object = none → r.status = assign a.outcome.code status ∧
      ∃ s, r.left = some s ∧ s.isOpen = false ∧ s.txnDb = none) ∧
    (a.outcome.isOk = false → r.object = none)

/-- A store that could not be opened is released as it is. -/
theorem release_closed {s : StoreImpl} (h : s.isOpen = false) (b : Answers) :
    s.close b = .ok (none, s) ∧ s.destroy b = .ok (none, s) :=
  ⟨close_closed h b, (destroy_eq_close s b).trans (close_closed h b)⟩

theorem storeSafe_opened {a : OpenAnswers} (hl : a.listed = true) (ho : a.opened.isOk = true) :
    StoreSafe a := by
  intro b status
  obtain ⟨s, db, hnew, hw, -⟩ := new_opened hl ho
  refine ⟨{ status := assign Status.ok status, object := some s, left := none }, ?_, ?_, nofun, ?_⟩
  · simp only [openStore, hnew, ok_bind, hw.isOpen, if_true]
    rfl
  · rintro t ⟨⟩
    refine ⟨rfl, hw.isOpen, fun ls s' hrun => ?_⟩
    have hs' := sound_of_run hrun hw.sound
    refine ⟨hs', fun c b' => ?_, fun b' => ?_⟩
    · obtain ⟨r, t, hcall, -⟩ := StoreImpl.run_sound hs' b' c
      exact ⟨_, hcall⟩
    · obtain ⟨db', t, hd, -⟩ := destroy_sound hs' b'
      exact ⟨_, hd⟩
  · intro hbad
    rw [OpenAnswers.outcome, if_pos hl, ho] at hbad
    cases hbad

theorem storeSafe_unlisted {a : OpenAnswers} (hl : a.listed = false) : StoreSafe a := by
  intro b status
  obtain ⟨s, hnew, hclosed, hdb, hcode⟩ := new_listFails hl
  obtain ⟨hclose, hdestroy⟩ := release_closed hclosed b
  refine ⟨{ status := assign a.list.code status, object := none, left := some s }, ?_, nofun,
    fun _ => ⟨?_, s, rfl, hclosed, hdb⟩, fun _ => rfl⟩
  · simp only [openStore, hnew, ok_bind, hclosed, hclose, hdestroy, hcode, assign_assign]
    rfl
  · simp [OpenAnswers.outcome, hl]

theorem managerSafe_opened {a : OpenAnswers} (hl : a.listed = true) (ho : a.opened.isOk = true) :
    ManagerSafe a := by
  intro b status
  obtain ⟨s, db, hnew, hw, -⟩ := new_opened hl ho
  refine ⟨{ status := assign Status.ok status, object := some { store := some s }, left := none },
    ?_, ?_, nofun, ?_⟩
  · simp only [openKueueManager, KueueManagerImpl.new, hnew, ok_bind, hw.isOpen, if_true,
      assign_assign]
    show (if s.isOpen = true then _ else _) = _
    rw [if_pos hw.isOpen]
    rfl
  · rintro t ⟨⟩
    refine ⟨rfl, hw.isOpen, fun ls m' hrun => ?_⟩
    have hm' := KueueManagerImpl.sound_of_run hrun
      ⟨fun s' hs' => by cases hs'; exact hw.sound, nofun⟩
    refine ⟨hm'.store, fun c as => ?_, fun b' => ?_⟩
    · rcases KueueManagerImpl.run_sound hm' as c with hb | ⟨m'', hok, -⟩
      · exact .inl hb
      · exact .inr ⟨m'', hok⟩
    · obtain ⟨db', m'', hd, -⟩ := KueueManagerImpl.close_sound hm' b'
      exact ⟨_, hd⟩
  · intro hbad
    rw [OpenAnswers.outcome, if_pos hl, ho] at hbad
    cases hbad

theorem managerSafe_unlisted {a : OpenAnswers} (hl : a.listed = false) : ManagerSafe a := by
  intro b status
  obtain ⟨s, hnew, hclosed, hdb, hcode⟩ := new_listFails hl
  obtain ⟨hclose, hdestroy⟩ := release_closed hclosed b
  refine ⟨{ status := assign a.list.code status, object := none, left := some s }, ?_, nofun,
    fun _ => ⟨?_, s, rfl, hclosed, hdb⟩, fun _ => rfl⟩
  · simp only [openKueueManager, KueueManagerImpl.new, hnew, ok_bind, hclosed, hclose, hdestroy, hcode,
      assign_assign]
    rfl
  · simp [OpenAnswers.outcome, hl]

/-- **The database pointer is never used when null, exactly when `TransactionDB::Open` does not
fail.** -/
theorem opens_safely_iff (a : OpenAnswers) :
    (StoreSafe a ↔ a.openFails = false) ∧ (ManagerSafe a ↔ a.openFails = false) := by
  cases hfails : a.openFails with
  | true =>
    have hnew := new_openFails hfails
    refine ⟨⟨fun hsafe => ?_, nofun⟩, ⟨fun hsafe => ?_, nofun⟩⟩
    · obtain ⟨r, hr, -⟩ := hsafe {} none
      simp only [openStore, hnew] at hr
      cases hr
    · obtain ⟨r, hr, -⟩ := hsafe {} none
      simp only [openKueueManager, KueueManagerImpl.new, hnew] at hr
      cases hr
  | false =>
    cases hl : a.listed with
    | false => exact ⟨⟨fun _ => rfl, fun _ => storeSafe_unlisted hl⟩,
        ⟨fun _ => rfl, fun _ => managerSafe_unlisted hl⟩⟩
    | true =>
      have ho : a.opened.isOk = true := by
        simpa [OpenAnswers.openFails, hl] using hfails
      exact ⟨⟨fun _ => rfl, fun _ => storeSafe_opened hl ho⟩,
        ⟨fun _ => rfl, fun _ => managerSafe_opened hl ho⟩⟩

/-- RocksDB finds no database at the path and fails to create one there, with an `IOError`. -/
def StoreImpl.OpenAnswers.uncreatable : OpenAnswers :=
  { OpenAnswers.created with opened := { error := some .ioError, pathNotFound := false } }

/-- Both entry points then dereference a null pointer. -/
theorem open_uncreatable :
    openStore .uncreatable {} (some 0) = .error .nullDeref ∧
      openKueueManager .uncreatable {} (some 0) = .error .nullDeref :=
  ⟨rfl, rfl⟩

/-! ## Closing -/

/-- The database `d` was deleted with the log of `db`, and a `FlushWAL(true)` had covered all of it. -/
structure Settled (db d : Db) : Prop where
  wal : d.wal = db.wal
  covered : ∀ i < d.wal.length, i < d.synced

theorem settled_self_iff (db : Db) : Settled db db ↔ unsynced db = 0 := by
  rw [unsynced]
  constructor
  · intro h
    by_contra hne
    have := h.covered db.synced (by omega)
    omega
  · intro h
    exact ⟨rfl, fun i hi => by omega⟩

/-- What a client may expect of closing the store `s` on `db`, directly, by destroying it or through its
manager: the database is deleted with every committed write covered, and closing again changes
nothing. -/
def ClosesDurably (s : StoreImpl) (db : Db) : Prop :=
  ∀ a queues, a.flushWAL = none →
    (∃ d t, s.close a = .ok (some d, t) ∧ Settled db d ∧ ∀ a', t.close a' = .ok (none, t)) ∧
    (∃ d t, s.destroy a = .ok (some d, t) ∧ Settled db d ∧ ∀ a', t.close a' = .ok (none, t)) ∧
    (∃ d m, KueueManagerImpl.close a ⟨some s, queues⟩ = .ok (some d, m) ∧ Settled db d ∧
      ∀ a', m.close a' = .ok (none, m))

/-- Closing deletes the database as it stands. -/
theorem manager_close_open {s : StoreImpl} {db : Db} (h : s.OpenWith db) (a : Answers)
    (queues : List (Bytes × KueueImpl)) :
    KueueManagerImpl.close a ⟨some s, queues⟩ = .ok (some db, ⟨none, []⟩) := by
  have hopen : KueueManagerImpl.isOpen ⟨some s, queues⟩ = true := h.isOpen
  simp only [KueueManagerImpl.close, KueueManagerImpl.close_, hopen, if_true, KueueManagerImpl.deref,
    ok_bind, destroy_eq_close, close_open h]
  rfl

/-- **Closing is durable exactly when there is nothing left to sync.** After any run of calls on an
open store, closing it leaves every committed write covered if and only if no write was committed
since the last `FlushWAL(true)`. -/
theorem close_durable_iff {s s' : StoreImpl} {db : Db} {ls : List StoreImpl.Label}
    (h : s.OpenWith db) (hrun : Run (guarded (fun _ l => l.call ≠ .close) StoreImpl.Step) s ls s') :
    ∃ db', s'.OpenWith db' ∧ (ClosesDurably s' db' ↔ unsynced db' = 0) := by
  have hopen : ∃ db', s'.OpenWith db' := by
    refine hrun.invariant (P := fun s => ∃ db, s.OpenWith db) ?_ ⟨db, h⟩
    rintro s l t ⟨db, hw⟩ ⟨hcall, hstep⟩
    obtain ⟨r, t', db', hok, heff⟩ := run_open hw l.answers l.call hcall
    obtain ⟨-, rfl⟩ := Prod.mk.inj (Except.ok.inj (hok.symm.trans hstep))
    exact ⟨db', heff.openWith⟩
  obtain ⟨db', hw⟩ := hopen
  refine ⟨db', hw, ?_⟩
  rw [← settled_self_iff]
  constructor
  · intro hd
    obtain ⟨⟨d, t, hclose, hs, -⟩, -⟩ := hd {} [] rfl
    rw [close_open hw] at hclose
    cases hclose
    exact hs
  · intro hs a queues _
    refine ⟨⟨db', _, close_open hw a, hs, fun a' => close_closed rfl a'⟩,
      ⟨db', _, (destroy_eq_close s' a).trans (close_open hw a), hs, fun a' => close_closed rfl a'⟩,
      ⟨db', _, manager_close_open hw a queues, hs, fun _ => rfl⟩⟩

private def putOnce : StoreImpl.Label :=
  ⟨.put (some 0) (.impl DefaultKind) (some [1]) [7], {}, { status := some 0 }⟩

private def oncePut : StoreImpl := putOnce.call.after {} .created

/-- A put that is followed by an explicit `syncWAL` is safe. -/
theorem close_durable_iff_put_sync :
    ∃ s' db', Run (guarded (fun _ l => l.call ≠ .close) StoreImpl.Step) StoreImpl.created
        [putOnce, ⟨.syncWAL, {}, { status := none }⟩] s' ∧
      s'.OpenWith db' ∧ unsynced db' = 0 ∧ db'.wal.length = 1 ∧ ClosesDurably s' db' := by
  have hput : StoreImpl.Step .created putOnce oncePut := StoreImpl.Call.step_after rfl
  have hsync : StoreImpl.Step oncePut ⟨.syncWAL, {}, { status := none }⟩
      (StoreImpl.Call.syncWAL.after {} oncePut) := StoreImpl.Call.step_after rfl
  have hrun : Run (guarded (fun _ l => l.call ≠ .close) StoreImpl.Step) StoreImpl.created
      [putOnce, ⟨.syncWAL, {}, { status := none }⟩] (StoreImpl.Call.syncWAL.after {} oncePut) :=
    .cons ⟨nofun, hput⟩ (.single ⟨nofun, hsync⟩)
  have hcreated : StoreImpl.created.OpenWith (Db.created.beginTransaction true none).2 := ⟨rfl, rfl⟩
  obtain ⟨db', hw, hiff⟩ := close_durable_iff hcreated hrun
  have hstate : unsynced db' = 0 ∧ db'.wal.length = 1 := by
    obtain ⟨-, hdb⟩ := hw
    cases hdb
    exact ⟨rfl, rfl⟩
  exact ⟨_, db', hrun, hw, hstate.1, hstate.2, hiff.mpr hstate.1⟩

/-- A put, with every RocksDB call succeeding, and then `close`: the write is in the log of the deleted
database and nothing covers it. -/
theorem close_after_put_unsynced :
    StoreImpl.Step .created putOnce oncePut ∧
      ∃ d t, oncePut.OpenWith d ∧ oncePut.close {} = .ok (some d, t) ∧
        d.wal.length = 1 ∧ d.synced = 0 ∧ ¬ ClosesDurably oncePut d := by
  refine ⟨StoreImpl.Call.step_after rfl, _, _, ⟨rfl, rfl⟩, rfl, rfl, rfl, fun hd => ?_⟩
  obtain ⟨⟨d, t, hclose, hs, -⟩, -⟩ := hd {} [] rfl
  cases hclose
  exact absurd (hs.covered 0 (by decide)) (by decide)

end Librocks
