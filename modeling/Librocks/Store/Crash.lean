import Librocks.Rocks.Log
import Librocks.Store.Refinement

/-!
# What a crash leaves of the store

After a crash RocksDB comes back with a prefix of its log, and the prefix has everything that a
`FlushWAL(true)` covered. `crash_undoes_last_calls`: replaying any such prefix gives the maps as they
were between two calls, so that a call is undone as a whole or not at all. The calls that are undone are
the last ones, and a `syncWAL` that succeeded is not among them.

A call logs one write or none. The run is cut after the last call before which the log has the given
length (`Run.exists_cut_covered`); the content at that moment is what replaying the log up to there gives.
-/

namespace Librocks

open Rocks

namespace StoreImpl

/-- What the calls write is logged, and they create no family. -/
theorem grows_stable (db₀ : Db) :
    Stable (fun _ => True) fun db => db₀.Grows db ∧ db.nextHandle = db₀.nextHandle where
  beginTransaction {db} succeeds old h :=
    ⟨h.1.trans (.beginTransaction db succeeds old),
      (beginTransaction_sameContent db succeeds old).nextHandle.trans h.2⟩
  txnWrite {db w} error tx _ h :=
    ⟨h.1.trans (.txnWrite db error tx w), (txnWrite_sameContent db error tx w).nextHandle.trans h.2⟩
  txnCommit {db} error tx h := by
    refine ⟨h.1.trans (.txnCommit db error tx), ?_⟩
    cases error with
    | some e => exact h.2
    | none => exact (db.commitWrites_families _).2.trans h.2
  writeRange {db} error fam b e h := by
    refine ⟨h.1.trans (.writeRange db error fam b e), ?_⟩
    unfold Db.writeRange
    split_ifs
    · exact h.2
    · cases error with
      | some err => exact h.2
      | none => exact (db.commitWrites_families _).2.trans h.2
  flushWAL {db} error h := by
    refine ⟨h.1.trans (.flushWAL db error), ?_⟩
    cases error <;> exact h.2

/-! ## Calls -/

/-- The calls of the refinement, and `syncWAL`. -/
def Journaled (s : StoreImpl) (l : Label) : Prop := MapCall s l ∨ l.call = .syncWAL

/-- How the maps follow them. -/
def JournalStep (m : Content) (l : Label) (m' : Content) : Prop :=
  MapStep m l m' ∨ (l.call = .syncWAL ∧ m' = m)

/-- A `syncWAL` that succeeded. -/
def Label.Syncs (l : Label) : Prop := l.call = .syncWAL ∧ l.answers.flushWAL = none

section

variable {Q : Db → Prop} {s s' : StoreImpl} {db db' db₀ : Db} {l : Label} {ls : List Label}

/-- What holds of a database whatever is written to it holds after these calls. -/
theorem Journaled.holds (hQ : Stable (fun _ => True) Q) (h : Holds Q s) (hok : Journaled s l)
    (hstep : Step s l s') : Holds Q s' := by
  obtain ⟨call, a, r⟩ := l
  cases call with
  | put status kind key value =>
    obtain ⟨x, hx, heq⟩ := exists_of_map_eq_ok hstep
    cases heq
    exact voidWrite_holds (fun key fam => .put fam key value) hQ h (fun _ _ => trivial) hx
  | remove status kind key =>
    obtain ⟨x, hx, heq⟩ := exists_of_map_eq_ok hstep
    cases heq
    exact voidWrite_holds (fun key fam => .delete fam key) hQ h (fun _ _ => trivial) hx
  | singleRemove status kind key =>
    obtain ⟨x, hx, heq⟩ := exists_of_map_eq_ok hstep
    cases heq
    exact voidWrite_holds (fun key fam => .singleDelete fam key a.undefined) hQ h
      (fun _ _ => trivial) hx
  | removeRange status kind b e =>
    obtain ⟨x, hx, heq⟩ := exists_of_map_eq_ok hstep
    cases heq
    exact removeRange_holds hQ h hx
  | get status kind len key => exact get_holds h hstep
  | updateIfPresent status kind len key value =>
    exact ifPresent_holds (fun key fam => .put fam key value) hQ h (fun _ _ => trivial) hstep
  | singleRemoveIfPresent status kind len key =>
    exact ifPresent_holds (fun key fam => .singleDelete fam key a.undefined) hQ h
      (fun _ _ => trivial) hstep
  | removeIfPresent status kind len key =>
    exact ifPresent_holds (fun key fam => .delete fam key) hQ h (fun _ _ => trivial) hstep
  | putIfAbsent status kind key value =>
    obtain ⟨x, hx, heq⟩ := exists_of_map_eq_ok hstep
    cases heq
    exact putIfAbsent_holds hQ h (fun _ _ _ => trivial) hx
  | syncWAL =>
    obtain ⟨x, hx, heq⟩ := exists_of_map_eq_ok hstep
    cases heq
    exact syncWALNoLock_holds hQ h hx
  | _ =>
    rcases hok with hmap | hsync
    · cases hmap.isMap
    · cases hsync

theorem Step.flushed (hw : OpenWith s db) (hc : l.call = .syncWAL) (hstep : Step s l s') :
    ∃ db', Flushed l.answers s db s' db' := by
  obtain ⟨t, db', hsync, hf⟩ := syncWAL_open hw l.answers
  unfold Step at hstep
  rw [hc, Call.run, hsync] at hstep
  obtain ⟨-, rfl⟩ := Prod.mk.inj (Except.ok.inj hstep)
  exact ⟨db', hf⟩

/-- A call logs a write or none, and a `syncWAL` that succeeds covers what is logged. -/
theorem Step.logged (hw : OpenWith s db) (hclose : l.call ≠ .close) (hstep : Step s l s') :
    ∃ db', OpenWith s' db' ∧ db'.wal.length ≤ db.wal.length + 1 ∧
      (l.Syncs → db'.wal = db.wal ∧ db'.synced = db'.wal.length) := by
  obtain ⟨r, t, db', hrun, heff⟩ := run_open hw l.answers l.call hclose
  obtain ⟨-, rfl⟩ := Prod.mk.inj (Except.ok.inj (hrun.symm.trans hstep))
  refine ⟨db', heff.openWith, ?_, ?_⟩
  · cases heff with
    | untouched hu => rw [hu.content.wal]; omega
    | committed w hc => rw [hc.wal, List.length_append]; rfl
    | unbooked w hu => rw [hu.wal, List.length_append]; rfl
    | flushed hf => rw [hf.wal]; omega
    | created hcr => rw [hcr.wal]; omega
  · rintro ⟨hsync, hflush⟩
    obtain ⟨db'', hf⟩ := hstep.flushed hw hsync
    obtain rfl := heff.openWith.db_eq hf.txnDb
    refine ⟨hf.wal, ?_⟩
    rw [hf.synced, hflush, hf.wal]
    rfl

/-- An open store whose content is that of `db₀` with what was logged since. -/
structure Journal (db₀ : Db) (s : StoreImpl) (db : Db) : Prop extends OpenWith s db where
  grows : db₀.Grows db
  nextHandle : db.nextHandle = db₀.nextHandle
  covered : db.synced ≤ db.wal.length

/-- **One call** logs a write or none, and loses no cover. -/
theorem Journal.step (h : Journal db₀ s db) (hok : Journaled s l) (hstep : Step s l s') :
    ∃ db', Journal db₀ s' db' ∧ JournalStep db.data l db'.data ∧ db.wal <+: db'.wal ∧
      db'.wal.length ≤ db.wal.length + 1 ∧ db.synced ≤ db'.synced ∧
      (l.Syncs → db'.wal = db.wal ∧ db'.synced = db'.wal.length) := by
  have hclose : l.call ≠ .close := by
    intro hclose
    rcases hok with hmap | hsync
    · have := hmap.isMap
      rw [hclose] at this
      cases this
    · rw [hclose] at hsync
      cases hsync
  obtain ⟨db', hw, hlogged, hcovers⟩ := hstep.logged h.toOpenWith hclose
  obtain ⟨hgrows, hnext⟩ := hok.holds (grows_stable db) (.of_some h.txnDb ⟨.refl db, rfl⟩) hstep db' hw.txnDb
  obtain ⟨hsynced, hcovered⟩ := hgrows.covered h.covered
  refine ⟨db', { hw with grows := h.grows.trans hgrows, nextHandle := hnext.trans h.nextHandle,
                         covered := hcovered }, ?_, hgrows.wal_prefix, hlogged, hsynced, hcovers⟩
  rcases hok with hmap | hsync
  · obtain ⟨db'', hw'', hmapstep⟩ := step_refines h.toOpenWith hmap hstep
    obtain rfl := hw.db_eq hw''.txnDb
    exact .inl hmapstep
  · obtain ⟨db'', hf⟩ := hstep.flushed h.toOpenWith hsync
    obtain rfl := hw.db_eq hf.txnDb
    exact .inr ⟨hsync, hf.data⟩

theorem Journal.run (h : Journal db₀ s db) (hrun : Run (guarded Journaled Step) s ls s') :
    ∃ db', Journal db₀ s' db' ∧ Run JournalStep db.data ls db'.data ∧ db.wal <+: db'.wal ∧
      db.synced ≤ db'.synced := by
  induction hrun generalizing db with
  | nil s => exact ⟨db, h, .nil _, List.prefix_refl _, le_rfl⟩
  | cons hstep _ ih =>
    obtain ⟨db₁, h₁, hfirst, hwal₁, -, hsynced₁, -⟩ := h.step hstep.1 hstep.2
    obtain ⟨db', h', hrest, hwal, hsynced⟩ := ih h₁
    exact ⟨db', h', .cons hfirst hrest, hwal₁.trans hwal, hsynced₁.trans hsynced⟩

/-- The length of the log. -/
def logged (s : StoreImpl) : ℕ :=
  match s.txnDb with
  | some db => db.wal.length
  | none => 0

/-- How much of it is covered by a `FlushWAL(true)`. -/
def synced (s : StoreImpl) : ℕ :=
  match s.txnDb with
  | some db => db.synced
  | none => 0

theorem OpenWith.logged_eq (hw : OpenWith s db) : s.logged = db.wal.length := by
  simp only [logged, hw.txnDb]

theorem OpenWith.synced_eq (hw : OpenWith s db) : s.synced = db.synced := by
  simp only [synced, hw.txnDb]

end

/-- **A crash undoes the last calls.** After any run of map operations and `syncWAL` calls on an open
store, whatever RocksDB answers: replaying any prefix of the log that has all that is covered gives the
maps as they were before some last part of the run, in which no `syncWAL` succeeded. -/
theorem crash_undoes_last_calls {s s' : StoreImpl} {db₀ : Db} {ls : List Label} (h : OpenWith s db₀)
    (hcovered : db₀.synced ≤ db₀.wal.length) (hrun : Run (guarded Journaled Step) s ls s') :
    ∃ db, OpenWith s' db ∧ Run JournalStep db₀.data ls db.data ∧
      ∀ n, db₀.wal.length ≤ n → db.synced ≤ n → n ≤ db.wal.length →
        ∃ done undone m, ls = done ++ undone ∧ Run JournalStep db₀.data done m ∧
          Run JournalStep m undone db.data ∧
          (((db.wal.take n).drop db₀.wal.length).foldl Db.apply db₀).data = m ∧
          ∀ l ∈ undone, ¬ l.Syncs := by
  have hstart : Journal db₀ s db₀ := { h with grows := .refl db₀, nextHandle := rfl, covered := hcovered }
  obtain ⟨db, hend, hmaps, -, -⟩ := hstart.run hrun
  refine ⟨db, hend.toOpenWith, hmaps, fun n hbase hsynced hn => ?_⟩
  have hone : ∀ s l t, (∃ db, Journal db₀ s db) → guarded Journaled Step s l t →
      (∃ db, Journal db₀ t db) ∧ (s.logged ≤ t.logged ∧ t.logged ≤ s.logged + 1) ∧ s.synced ≤ t.synced ∧
        (l.Syncs → t.logged = s.logged ∧ t.synced = t.logged) := by
    rintro s l t ⟨db, hj⟩ ⟨hok, hstep⟩
    obtain ⟨db', hj', -, hwal, hle, hsync, hcover⟩ := hj.step hok hstep
    rw [hj.toOpenWith.logged_eq, hj'.toOpenWith.logged_eq, hj.toOpenWith.synced_eq, hj'.toOpenWith.synced_eq]
    exact ⟨⟨db', hj'⟩, ⟨hwal.length_le, hle⟩, hsync, fun hl => ⟨by rw [(hcover hl).1], (hcover hl).2⟩⟩
  rw [← h.logged_eq] at hbase
  rw [← hend.toOpenWith.logged_eq] at hn
  rw [← hend.toOpenWith.synced_eq] at hsynced
  obtain ⟨done, undone, u, rfl, hdone, hundone, hu, hsync⟩ :=
    hrun.exists_cut_covered logged synced (fun s l t hs hstep => (hone s l t hs hstep).1)
      (fun s l t hs hstep => (hone s l t hs hstep).2.1) (fun s l t hs hstep => (hone s l t hs hstep).2.2.1)
      (fun s l t hs hstep => (hone s l t hs hstep).2.2.2) ⟨db₀, hstart⟩ hbase hn hsynced
  obtain ⟨dbu, hju, hmaps₁, -, -⟩ := hstart.run hdone
  rw [hju.toOpenWith.logged_eq] at hu
  obtain ⟨db', hend', hmaps₂, hwal, -⟩ := hju.run hundone
  obtain rfl := hend.toOpenWith.db_eq hend'.txnDb
  refine ⟨done, undone, dbu.data, rfl, hmaps₁, hmaps₂, ?_, hsync⟩
  rw [← hu]
  refine funext fun fam => hju.grows.replay hwal ?_
  rw [hju.nextHandle]
  exact lt_or_ge fam db₀.nextHandle

private def putBefore : Label :=
  ⟨.put (some 5) (.impl DefaultKind) (some [1]) [7], {}, { status := some 0 }⟩

private def syncBetween : Label := ⟨.syncWAL, {}, { status := none }⟩

private def putAfter : Label :=
  ⟨.put (some 5) (.impl DefaultKind) (some [2]) [8], {}, { status := some 0 }⟩

private def halfCovered : StoreImpl :=
  putAfter.call.after {} (syncBetween.call.after {} (putBefore.call.after {} created))

/-- Two puts with a `syncWAL` between them. Of the log of two writes the first one is covered, and a
crash that keeps no more undoes the second put. -/
theorem crash_undoes_last_calls_put :
    ∃ db, OpenWith halfCovered db ∧ db.synced = 1 ∧ db.wal.length = 2 ∧
      ∃ done undone m, [putBefore, syncBetween, putAfter] = done ++ undone ∧
        Run JournalStep (fun _ => ∅) done m ∧ Run JournalStep m undone db.data ∧
        (m defaultFamily).lookup [1] = some [7] ∧ (m defaultFamily).lookup [2] = none ∧
        ∀ l ∈ undone, ¬ l.Syncs := by
  have h₁ : Step created putBefore (putBefore.call.after {} created) := Call.step_after rfl
  have h₂ : Step (putBefore.call.after {} created) syncBetween
      (syncBetween.call.after {} (putBefore.call.after {} created)) := Call.step_after rfl
  have h₃ : Step (syncBetween.call.after {} (putBefore.call.after {} created)) putAfter halfCovered :=
    Call.step_after rfl
  have hrun : Run (guarded Journaled Step) created [putBefore, syncBetween, putAfter] halfCovered :=
    .cons ⟨.inl ⟨rfl, fun _ _ _ _ h => by cases h⟩, h₁⟩ <|
      .cons ⟨.inr rfl, h₂⟩ <| .single ⟨.inl ⟨rfl, fun _ _ _ _ h => by cases h⟩, h₃⟩
  have hcreated : OpenWith created (Db.created.beginTransaction true none).2 := ⟨rfl, rfl⟩
  obtain ⟨db, hw, -, hcrash⟩ := crash_undoes_last_calls hcreated le_rfl hrun
  obtain ⟨-, hdb⟩ := id hw
  cases hdb
  obtain ⟨done, undone, m, hsplit, hdone, hundone, rfl, hsync⟩ :=
    hcrash 1 (by decide) (by decide) (by decide)
  exact ⟨_, hw, rfl, rfl, done, undone, _, hsplit, hdone, hundone, rfl, rfl, hsync⟩

end StoreImpl

end Librocks
