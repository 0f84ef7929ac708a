import Librocks.Store.Lifecycle

/-!
# The window of writes that a power failure can lose

`unsynced` counts the committed writes that no `FlushWAL(true)` has covered. Every commit through a
transaction is counted by `totalSinceLastSync`, which `occasionalWalSync` keeps below
`FLUSH_BATCH_SIZE + 1`; the invariant `Window` says that this counter bounds `unsynced`. An explicit
`syncWAL` lowers `unsynced` and leaves the counter, which keeps the bound.

`removeRange` commits past the counter. It is the only call that does, so runs in which no
`removeRange` commits keep the window, and a run of `removeRange` calls leaves it as wide as one
likes.
-/

namespace Librocks

open Rocks

namespace StoreImpl

/-- The committed writes that no `FlushWAL(true)` has covered. -/
def unsynced (db : Db) : ℕ := db.wal.length - db.synced

/-- The counter of `occasionalWalSync` is in range and bounds the unsynced writes. -/
structure Window (s : StoreImpl) (db : Db) : Prop extends OpenWith s db where
  bounded : unsynced db ≤ s.totalSinceLastSync.toNat
  small : s.totalSinceLastSync.toNat ≤ FLUSH_BATCH_SIZE.toNat

/-- The bit mask of `occasionalWalSync` selects the multiples of 16384. -/
theorem and_FLUSH_BATCH_SIZE_eq_zero_iff (t : UInt64) :
    t &&& FLUSH_BATCH_SIZE = 0 ↔ t.toNat % 16384 = 0 := by
  have hmask : (t &&& FLUSH_BATCH_SIZE).toNat = t.toNat % 2 ^ 14 := by
    rw [UInt64.toNat_and, show FLUSH_BATCH_SIZE.toNat = 2 ^ 14 - 1 from rfl,
      Nat.and_two_pow_sub_one_eq_mod]
  rw [← UInt64.toNat_inj, hmask]
  rfl

/-- A counter in range that is not due for a sync stays in range when it is bumped. -/
theorem total_add_one {t : UInt64} (hsmall : t.toNat ≤ FLUSH_BATCH_SIZE.toNat)
    (hnot : ¬ (t + 1) &&& FLUSH_BATCH_SIZE = 0) :
    (t + 1).toNat = t.toNat + 1 ∧ t.toNat + 1 ≤ FLUSH_BATCH_SIZE.toNat := by
  have hsize : FLUSH_BATCH_SIZE.toNat = 16383 := rfl
  have hadd : (t + 1).toNat = t.toNat + 1 := by
    rw [UInt64.toNat_add]
    exact Nat.mod_eq_of_lt (by simp only [UInt64.reduceToNat]; omega)
  refine ⟨hadd, ?_⟩
  rw [and_FLUSH_BATCH_SIZE_eq_zero_iff, hadd] at hnot
  omega

/-- The calls under which the window is kept: `FlushWAL` succeeds, and no `removeRange` commits. -/
structure Booked (_ : StoreImpl) (l : Label) : Prop where
  notClose : l.call ≠ .close
  flushWAL : l.answers.flushWAL = none
  noRange : l.call.commitsRange l.answers = false

/-- What one call does to the window: the bound is kept, and a call that committed a write returns
with the log synced or with less than the time window gone since the last internal sync. -/
theorem Window.step {s s' : StoreImpl} {db : Db} {l : Label} (h : Window s db)
    (hcall : Booked s l) (hstep : Step s l s') :
    ∃ db', Window s' db' ∧
      (db'.wal ≠ db.wal → unsynced db' = 0 ∨
        (s'.lastSync = s.lastSync ∧
          since l.answers.now s'.lastSync < FLUSH_TIME_WINDOW_MILLIS)) := by
  obtain ⟨r, t, db', hrun, heff⟩ := run_open h.toOpenWith l.answers l.call hcall.notClose
  obtain ⟨-, rfl⟩ := Prod.mk.inj (Except.ok.inj (hrun.symm.trans hstep))
  refine ⟨db', ?_⟩
  have hbounded := h.bounded
  have hsmall := h.small
  cases heff with
  | untouched hu _ =>
    refine ⟨{ hu.toOpenWith with bounded := ?_, small := by rw [hu.total]; exact hsmall },
      fun hw => absurd hu.content.wal hw⟩
    rw [unsynced, hu.content.wal, hu.content.synced, hu.total]
    exact hbounded
  | unbooked w hu hc => exact absurd hc (by simp [hcall.noRange])
  | flushed hf _ =>
    refine ⟨{ hf.toOpenWith with bounded := ?_, small := by rw [hf.total]; exact hsmall },
      fun hw => absurd hf.wal hw⟩
    simp [unsynced, hf.synced, hf.wal, hcall.flushWAL]
  | created hcr =>
    refine ⟨{ hcr.toOpenWith with bounded := ?_, small := by rw [hcr.total]; exact hsmall },
      fun hw => absurd hcr.wal hw⟩
    rw [unsynced, hcr.wal, hcr.synced, hcr.total]
    exact hbounded
  | committed w hcom =>
    by_cases hdue : SyncDue l.answers s
    · -- the sync is due: the counter restarts with nothing left unsynced
      obtain ⟨htotal, -, hsynced⟩ := hcom.due hdue
      have hzero : unsynced db' = 0 := by simp [unsynced, hsynced hcall.flushWAL]
      refine ⟨{ hcom.toOpenWith with bounded := by omega, small := ?_ }, fun _ => .inl hzero⟩
      rw [htotal]
      exact Nat.zero_le _
    · obtain ⟨htotal, hlast, hsynced⟩ := hcom.notDue hdue
      simp only [SyncDue, not_or] at hdue
      obtain ⟨hadd, hle⟩ := total_add_one hsmall hdue.2
      refine ⟨{ hcom.toOpenWith with bounded := ?_, small := ?_ }, fun _ => .inr ⟨hlast, ?_⟩⟩
      · have hlen : db'.wal.length = db.wal.length + 1 := by rw [hcom.wal]; simp
        rw [htotal, hadd, unsynced, hlen, hsynced]
        unfold unsynced at hbounded
        omega
      · rw [htotal, hadd]
        exact hle
      · rw [hlast]
        exact lt_of_not_ge hdue.1

theorem Window.run {s s' : StoreImpl} {db : Db} {ls : List Label} (h : Window s db)
    (hrun : Run (guarded Booked Step) s ls s') : ∃ db', Window s' db' := by
  refine hrun.invariant (P := fun s => ∃ db, Window s db) ?_ ⟨db, h⟩
  rintro s l t ⟨db, hw⟩ ⟨hcall, hstep⟩
  obtain ⟨db', hw', -⟩ := hw.step hcall hstep
  exact ⟨db', hw'⟩

/-- A store that was just opened on a database whose log is synced. -/
theorem window_of_new {a : OpenAnswers} {s : StoreImpl} (hnew : new a = .ok s)
    (hopen : s.isOpen = true) (hclean : a.db.synced = a.db.wal.length) : ∃ db, Window s db := by
  cases hl : a.listed with
  | false =>
    obtain ⟨s', hnew', hclosed, -⟩ := new_listFails hl
    obtain rfl := Except.ok.inj (hnew.symm.trans hnew')
    rw [hclosed] at hopen
    cases hopen
  | true =>
    cases ho : a.opened.isOk with
    | false =>
      rw [new_openFails (by simp [OpenAnswers.openFails, hl, ho])] at hnew
      cases hnew
    | true =>
      obtain ⟨s', db, hnew', hw, hsame, htotal, -⟩ := new_opened hl ho
      obtain rfl := Except.ok.inj (hnew.symm.trans hnew')
      refine ⟨db, { hw with bounded := ?_, small := ?_ }⟩
      · simp [unsynced, hsame.wal, hsame.synced, hclean]
      · rw [htotal]
        exact Nat.zero_le _

/-- **Bounded window.** From a store that was just opened, in every run in which no `removeRange`
commits: after every call at most `FLUSH_BATCH_SIZE` committed writes are unsynced, and a call that
commits a write returns with the log synced or within the time window. -/
theorem unsynced_window {a : OpenAnswers} {s₀ s : StoreImpl} {ls : List Label}
    (hnew : new a = .ok s₀) (hopen : s₀.isOpen = true) (hclean : a.db.synced = a.db.wal.length)
    (hrun : Run (guarded Booked Step) s₀ ls s) :
    ∃ db, OpenWith s db ∧ unsynced db ≤ 16383 ∧
      ∀ l s', Booked s l → Step s l s' → ∃ db', OpenWith s' db' ∧ unsynced db' ≤ 16383 ∧
        (db'.wal ≠ db.wal → unsynced db' = 0 ∨
          (s'.lastSync = s.lastSync ∧ since l.answers.now s'.lastSync < 985)) := by
  obtain ⟨db₀, hw₀⟩ := window_of_new hnew hopen hclean
  obtain ⟨db, hw⟩ := hw₀.run hrun
  refine ⟨db, hw.toOpenWith, hw.bounded.trans hw.small, fun l s' hcall hstep => ?_⟩
  obtain ⟨db', hw', hwrite⟩ := hw.step hcall hstep
  exact ⟨db', hw'.toOpenWith, hw'.bounded.trans hw'.small, hwrite⟩

/-- A put half a second after the store was opened. -/
private def putAtHalf : Label :=
  ⟨.put (some 0) (.impl DefaultKind) (some [1]) [7], { now := 500000000 }, { status := some 0 }⟩

/-- Two such puts: each keeps the window, and the second returns within the time window. -/
theorem unsynced_window_two_puts :
    ∃ s s' db', Run (guarded Booked Step) created [putAtHalf] s ∧ Step s putAtHalf s' ∧
      OpenWith s' db' ∧ unsynced db' ≤ 16383 := by
  have h₁ : Step created putAtHalf (putAtHalf.call.after putAtHalf.answers created) :=
    Call.step_after rfl
  have h₂ : Step (putAtHalf.call.after putAtHalf.answers created) putAtHalf
      (putAtHalf.call.after putAtHalf.answers (putAtHalf.call.after putAtHalf.answers created)) :=
    Call.step_after rfl
  have hbooked : ∀ s, Booked s putAtHalf := fun _ => ⟨nofun, rfl, rfl⟩
  obtain ⟨db, -, -, hnext⟩ :=
    unsynced_window new_created rfl rfl (.single ⟨hbooked _, h₁⟩)
  obtain ⟨db', hopen', hle, -⟩ := hnext putAtHalf _ (hbooked _) h₂
  exact ⟨_, _, db', .single ⟨hbooked _, h₁⟩, h₂, hopen', hle⟩

/-! ## `removeRange` -/

/-- A `removeRange` of the empty range, at time `t` and with every RocksDB call succeeding. -/
def rangeAt (t : ℤ) : Label :=
  ⟨.removeRange (some Status.ok) (.impl DefaultKind) (some []) (some []),
    { now := t, nowSync := t }, { status := some Status.ok }⟩

theorem rangeAt_step {s : StoreImpl} {db : Db} (h : OpenWith s db) (t : ℤ) :
    ∃ s' db', Step s (rangeAt t) s' ∧
      Unbooked (.deleteRange DefaultKind.handle [] []) s db s' db' := by
  have hvalid : (Kind.impl DefaultKind).isValid = true := rfl
  set db' := db.commitWrites [.deleteRange DefaultKind.handle [] []]
  refine ⟨{ s with txnDb := some db' }, db', ?_, ?_⟩
  · simp only [Step, rangeAt, Call.run, removeRange, hvalid, if_true, h.validateOpen_eq,
      Kind.toKindImpl, h.deref_eq, ok_bind, Db.writeRange]
    rfl
  · exact { isOpen := h.isOpen, txnDb := rfl, data := rfl, overwritten := rfl, wal := rfl,
            kinds := rfl, total := rfl, lastSync := rfl, synced := rfl }

/-- `n` range removals leave `n` more writes unsynced, however late they come. -/
theorem rangeAt_run {s : StoreImpl} {db : Db} (h : OpenWith s db) (t : ℤ) (n : ℕ) :
    ∃ s' db', Run Step s (List.replicate n (rangeAt t)) s' ∧ OpenWith s' db' ∧
      db'.wal.length = db.wal.length + n ∧ db'.synced = db.synced ∧ s'.lastSync = s.lastSync := by
  induction n generalizing s db with
  | zero => exact ⟨s, db, .nil s, h, rfl, rfl, rfl⟩
  | succ n ih =>
    obtain ⟨s₁, db₁, hstep, hun⟩ := rangeAt_step h t
    obtain ⟨s', db', hrun, hopen, hlen, hsynced, hlast⟩ := ih hun.toOpenWith
    refine ⟨s', db', .cons hstep hrun, hopen, ?_, hsynced.trans hun.synced, hlast.trans hun.lastSync⟩
    rw [hlen, hun.wal, List.length_append, List.length_singleton]
    omega

/-- 16384 range removals, 985 ms after the store was opened: none of them is synced. -/
theorem removeRange_escapes_window :
    ∃ s db, new .created = .ok created ∧
      Run Step created (List.replicate 16384 (rangeAt 985000000)) s ∧ OpenWith s db ∧
      unsynced db = 16384 ∧ since 985000000 s.lastSync = 985 := by
  have hopen : OpenWith created (Db.created.beginTransaction true none).2 := ⟨rfl, rfl⟩
  obtain ⟨s, db, hrun, hopen', hlen, hsynced, hlast⟩ := rangeAt_run hopen 985000000 16384
  refine ⟨s, db, new_created, hrun, hopen', ?_, ?_⟩
  · rw [unsynced, hlen, hsynced]
    rfl
  · rw [hlast]
    rfl

end StoreImpl

end Librocks
