import Librocks.Store.Concurrent
import Librocks.Store.Crash

/-!
# A crash while threads share a store

Reference: `src/impl/StoreImpl.cpp`.

The threads of `Store.Concurrent` are cut off at any moment, one of them perhaps in the middle of its
section, and RocksDB comes back with a prefix of its log, as in `Store.Crash`. `durably_linearizable`: the
calls can be put in a sequence that answers each of them alike, and what comes back is what some first part
of the sequence gives. A `syncWAL` which has succeeded and returned is in that part, and so is all that is
before it.

In the middle of a section the database lies between the one before that call and the one after it
(`Monitored.interrupted`), and so does its log. A prefix that ends before the log of that call is cut as in a
run without threads; a longer one is cut among the last calls, of which none but that one can be a `syncWAL`.
-/

namespace Librocks

open Rocks

namespace StoreImpl

/-! ## Later stores -/

/-- The database of `s'`, if there still is one, is that of `s` at a later moment. -/
def Later (s s' : StoreImpl) : Prop :=
  ∀ db', s'.txnDb = some db' → ∃ db, s.txnDb = some db ∧ db.Grows db'

variable {s s' s'' : StoreImpl} {db db' db₀ : Db}

theorem Later.of_eq (h : s'.txnDb = s.txnDb) : Later s s' := fun db hdb => ⟨db, h ▸ hdb, .refl db⟩

theorem Later.trans (h : Later s s') (h' : Later s' s'') : Later s s'' := by
  intro db'' hdb''
  obtain ⟨db', hdb', hgrows'⟩ := h' db'' hdb''
  obtain ⟨db, hdb, hgrows⟩ := h db' hdb'
  exact ⟨db, hdb, hgrows.trans hgrows'⟩

theorem Later.grows (h : Later s s') (hdb : s.txnDb = some db) (hdb' : s'.txnDb = some db') :
    db.Grows db' := by
  obtain ⟨db₁, hdb₁, hgrows⟩ := h db' hdb'
  obtain rfl := Option.some.inj (hdb.symm.trans hdb₁)
  exact hgrows

/-- The steps of the sections go forward. -/
theorem usual_later : Section.Usual fun _ => Critical.Advances Later where
  onDb d hgrows := by
    refine .act fun s x s' h => ?_
    obtain ⟨db, hdb, hs'⟩ := exists_of_bind_eq_ok h
    cases hs'
    cases hs : s.txnDb with
    | none =>
      rw [deref, hs] at hdb
      cases hdb
    | some db₁ =>
      rw [deref, hs] at hdb
      cases hdb
      rintro _ ⟨⟩
      exact ⟨db, hs, hgrows db⟩
  read g _ := by
    refine .act fun s x s' h => ?_
    cases h
    exact .of_eq rfl
  write g hwrites := by
    refine .act fun s x s' h => ?_
    cases h
    rcases (hwrites s).txnDb with hsame | hnone
    · exact .of_eq hsame
    · intro db' hdb'
      rw [hnone] at hdb'
      cases hdb'

namespace Request

/-- **Every step of every request goes forward.** -/
theorem onward : Monitored.Onward method Later where
  refl s := .of_eq rfl
  trans := .trans
  step q := by
    have hq := orderly q
    cases hm : method q with
    | free f =>
      rw [hm] at hq
      obtain ⟨out, code, hf⟩ := hq
      intro s x s' h
      rw [hf] at h
      cases h
      exact .of_eq rfl
    | locked f k =>
      rw [hm] at hq
      exact ⟨fun s x s' h => .of_eq (hq.1 s x s' h), fun x => hq.2 _ usual_later x⟩

/-- The requests that leave the store open. -/
def KeepsOpen : Request → Prop
  | .call c _ => c ≠ .close
  | .isOpen => True

/-- A `syncWAL` that RocksDB carries out. -/
def Syncs : Request → Prop
  | .call c a => c = .syncWAL ∧ a.flushWAL = none
  | .isOpen => False

theorem Syncs.locks {q : Request} (h : q.Syncs) : (method q).Locks := by
  cases q with
  | call c a =>
    obtain ⟨rfl, -⟩ := h
    trivial
  | isOpen => exact h.elim

/-- A request that took effect went forward. -/
theorem Spec.later {q : Request} {r : Outcome} (h : Spec s q r s') : Later s s' := by
  have hmethod : Monitored.Spec method s q r s' := by
    cases h with
    | call hrun =>
      rw [Monitored.Spec, run_method, hrun]
      rfl
    | isOpen => rfl
  exact onward.spec hmethod

end Request

/-! ## Calls one after the other -/

/-- A call that took effect, and is not `close`. -/
abbrev Kept {T : Type} : StoreImpl → Point T Request Outcome → StoreImpl → Prop :=
  guarded (fun _ p => p.op.KeepsOpen) fun s p s' => Request.Spec s p.op p.result s'

/-- An open store whose database is `db₀` at a later moment. -/
structure Carries (db₀ : Db) (s : StoreImpl) (db : Db) : Prop extends OpenWith s db where
  grows : db₀.Grows db
  covered : db.synced ≤ db.wal.length

section

variable {T : Type} {p : Point T Request Outcome} {lin : List (Point T Request Outcome)} {n : ℕ}

/-- **One call** logs a write or none, and loses no cover. -/
theorem Carries.step (h : Carries db₀ s db) (hstep : Kept s p s') :
    ∃ db', Carries db₀ s' db' ∧ db.Grows db' ∧ db'.wal.length ≤ db.wal.length + 1 ∧
      (p.op.Syncs → db'.wal = db.wal ∧ db'.synced = db'.wal.length) := by
  obtain ⟨thread, call, q, r⟩ := p
  obtain ⟨hkeeps, hspec⟩ := hstep
  have hcarries : ∀ {db'}, OpenWith s' db' → Carries db₀ s' db' ∧ db.Grows db' := by
    intro db' hw
    have hgrows := hspec.later.grows h.txnDb hw.txnDb
    exact ⟨{ hw with grows := h.grows.trans hgrows, covered := (hgrows.covered h.covered).2 }, hgrows⟩
  cases hspec with
  | @call c a r _ hrun =>
    obtain ⟨db', hw, hlogged, hsync⟩ := Step.logged (l := ⟨c, a, r⟩) h.toOpenWith hkeeps hrun
    exact ⟨db', (hcarries hw).1, (hcarries hw).2, hlogged, hsync⟩
  | isOpen =>
    exact ⟨db, (hcarries h.toOpenWith).1, (hcarries h.toOpenWith).2, Nat.le_succ _, fun hno => hno.elim⟩

theorem Carries.run (h : Carries db₀ s db) (hrun : Run Kept s lin s') :
    ∃ db', Carries db₀ s' db' ∧ db.Grows db' := by
  refine hrun.invariant (P := fun t => ∃ db', Carries db₀ t db' ∧ db.Grows db') ?_ ⟨db, h, .refl db⟩
  rintro t p u ⟨db₁, h₁, hgrows₁⟩ hstep
  obtain ⟨db₂, h₂, hgrows₂, -⟩ := h₁.step hstep
  exact ⟨db₂, h₂, hgrows₁.trans hgrows₂⟩

/-- The log and its cover along a step. -/
theorem Kept.logged (s : StoreImpl) (p : Point T Request Outcome) (s' : StoreImpl)
    (hs : ∃ db, Carries db₀ s db) (hstep : Kept s p s') :
    (∃ db, Carries db₀ s' db) ∧ (s.logged ≤ s'.logged ∧ s'.logged ≤ s.logged + 1) ∧
      s.synced ≤ s'.synced ∧ (p.op.Syncs → s'.logged = s.logged ∧ s'.synced = s'.logged) := by
  obtain ⟨db, h⟩ := hs
  obtain ⟨db', h', hgrows, hle, hsync⟩ := h.step hstep
  rw [h.toOpenWith.logged_eq, h'.toOpenWith.logged_eq, h.toOpenWith.synced_eq, h'.toOpenWith.synced_eq]
  exact ⟨⟨db', h'⟩, ⟨hgrows.wal_prefix.length_le, hle⟩, (hgrows.covered h.covered).1,
    fun hp => ⟨by rw [(hsync hp).1], (hsync hp).2⟩⟩

/-- A run is cut where `n` writes are logged. -/
theorem Carries.exists_cut (h : Carries db₀ s db) (hrun : Run Kept s lin s') (h' : Carries db₀ s' db')
    (hn : db.wal.length ≤ n) (hn' : n ≤ db'.wal.length) :
    ∃ done undone u dbu, lin = done ++ undone ∧ Run Kept s done u ∧ Carries db₀ u dbu ∧ dbu.Grows db' ∧
      dbu.wal.length = n ∧ (db'.synced ≤ n → ∀ p ∈ undone, ¬ p.op.Syncs) := by
  rw [← h.toOpenWith.logged_eq] at hn
  rw [← h'.toOpenWith.logged_eq] at hn'
  have hcut : ∃ done undone u, lin = done ++ undone ∧ Run Kept s done u ∧ Run Kept u undone s' ∧
      u.logged = n ∧ (db'.synced ≤ n → ∀ p ∈ undone, ¬ p.op.Syncs) := by
    by_cases hc : db'.synced ≤ n
    · rw [← h'.toOpenWith.synced_eq] at hc
      obtain ⟨done, undone, u, hsplit, hdone, hundone, hu, hsync⟩ :=
        hrun.exists_cut_covered StoreImpl.logged StoreImpl.synced
          (fun s p t hs hstep => (Kept.logged s p t hs hstep).1)
          (fun s p t hs hstep => (Kept.logged s p t hs hstep).2.1)
          (fun s p t hs hstep => (Kept.logged s p t hs hstep).2.2.1)
          (fun s p t hs hstep => (Kept.logged s p t hs hstep).2.2.2) ⟨db, h⟩ hn hn' hc
      exact ⟨done, undone, u, hsplit, hdone, hundone, hu, fun _ => hsync⟩
    · obtain ⟨done, undone, u, hsplit, hdone, hundone, hu, -⟩ :=
        hrun.exists_cut StoreImpl.logged (fun s p t hs hstep => (Kept.logged s p t hs hstep).1)
          (fun s p t hs hstep => (Kept.logged s p t hs hstep).2.1.2) ⟨db, h⟩ hn hn'
      exact ⟨done, undone, u, hsplit, hdone, hundone, hu, fun hno => absurd hno hc⟩
  obtain ⟨done, undone, u, hsplit, hdone, hundone, hu, hsync⟩ := hcut
  obtain ⟨dbu, hcu, -⟩ := h.run hdone
  obtain ⟨db'', hend, hgrows⟩ := hcu.run hundone
  obtain rfl := h'.toOpenWith.db_eq hend.txnDb
  rw [hcu.toOpenWith.logged_eq] at hu
  exact ⟨done, undone, u, dbu, hsplit, hdone, hcu, hgrows, hu, hsync⟩

end

/-! ## The crash -/

section

variable {T : Type} [DecidableEq T] {s₀ : StoreImpl} {x : Shared T} {ts : List T}

/-- **A store that threads share is durably linearizable.** After every run of their steps from an open
store, without a call of `close`, the requests can be put in a sequence as in `calls_linearizable`, and
whatever is left of the log after a crash gives the content of the old Kinds after some first part of the
sequence. No `syncWAL` that RocksDB carried out and that has returned is in the rest. -/
theorem durably_linearizable (h : OpenWith s₀ db₀) (hcovered : db₀.synced ≤ db₀.wal.length)
    (hrun : Run Shared.Step (.start s₀) ts x)
    (hclose : ∀ t n a, .call t n (.call .close a) ∉ x.history) :
    ∃ s lin db, Linearizes Request.Spec s₀ s x.history lin ∧ x.state.txnDb = some db ∧
      ∀ n, db₀.wal.length ≤ n → db.synced ≤ n → n ≤ db.wal.length →
        ∃ done undone u dbu, lin = done ++ undone ∧
          Run (fun s p s' => Request.Spec s p.op p.result s') s₀ done u ∧ u.txnDb = some dbu ∧
          (∀ fam < db₀.nextHandle,
            (((db.wal.take n).drop db₀.wal.length).foldl Db.apply db₀).data fam = dbu.data fam) ∧
          ∀ p ∈ undone, p.op.Syncs → ∀ r, .ret p.thread p.call r ∉ x.history := by
  obtain ⟨s, before, after, u, hlin, hbefore, hafter, hu, hs, -, hinside, -⟩ :=
    Monitored.interrupted Request.method_sound Request.onward h.sound hrun
  have hspec := hlin.mono fun _ _ _ _ => Request.spec_of_method
  have hkeeps : ∀ p ∈ before ++ after, p.op.KeepsOpen := by
    rintro ⟨t, n, q, r⟩ hp
    cases q with
    | call c a =>
      rintro rfl
      exact hclose t n a (hspec.called _ hp)
    | isOpen => trivial
  have hstart : Carries db₀ s₀ db₀ := { h with grows := .refl db₀, covered := hcovered }
  have hpast : Run Kept s₀ before u := (hbefore.mono fun _ _ _ => Request.spec_of_method).guard
    fun p hp => hkeeps p (List.mem_append_left _ hp)
  have hlast : Run Kept u after s := (hafter.mono fun _ _ _ => Request.spec_of_method).guard
    fun p hp => hkeeps p (List.mem_append_right _ hp)
  obtain ⟨dbu, hcu, -⟩ := hstart.run hpast
  obtain ⟨dbs, hcs, -⟩ := hcu.run hlast
  obtain ⟨db, hdb, hdbs⟩ := hs dbs hcs.txnDb
  have hdbu : dbu.Grows db := hu.grows hcu.txnDb hdb
  -- a call of the last ones that syncs is in its section
  have hreturned : ∀ p ∈ after, p.op.Syncs → ∀ r, .ret p.thread p.call r ∉ x.history := by
    intro p hp hsync r hret
    obtain ⟨hcall, b, hpc⟩ := hinside p hp hsync.locks
    have hidle := (Monitored.returned_le hrun p.thread p.call r hret).2 hcall
    rw [hpc] at hidle
    cases hidle
  refine ⟨s, before ++ after, db, hspec, hdb, fun n hbase hsynced hn => ?_⟩
  by_cases hle : n ≤ dbu.wal.length
  · obtain ⟨done, undone, v, dbv, rfl, hdone, hcv, hdbv, rfl, hsync⟩ :=
      hstart.exists_cut hpast hcu hbase hle
    have hgrows := hdbv.trans hdbu
    refine ⟨done, undone ++ after, v, dbv, List.append_assoc .., hdone.mono fun _ _ _ => And.right,
      hcv.txnDb, fun fam hfam => hcv.grows.replay hgrows.wal_prefix (.inl hfam), fun p hp => ?_⟩
    rcases List.mem_append.mp hp with hp | hp
    · exact fun hno => absurd hno (hsync ((hdbu.covered hcu.covered).1.trans hsynced) p hp)
    · exact hreturned p hp
  · obtain ⟨done, undone, v, dbv, rfl, hdone, hcv, hdbv, rfl, -⟩ :=
      hcu.exists_cut hlast hcs (Nat.le_of_not_le hle) (hn.trans hdbs.wal_prefix.length_le)
    have hwal : dbv.wal <+: db.wal :=
      List.prefix_of_prefix_length_le hdbv.wal_prefix hdbs.wal_prefix hn
    refine ⟨before ++ done, undone, v, dbv, (List.append_assoc ..).symm,
      (hpast.append hdone).mono fun _ _ _ => And.right, hcv.txnDb, fun fam hfam => ?_, fun p hp => ?_⟩
    · exact hcv.grows.replay hwal (.inl hfam)
    · exact hreturned p (List.mem_append_right _ hp)

end

private def putOfSeven : Request := .call (.put (some 5) (.impl DefaultKind) (some [1]) [7]) {}

/-- A thread is cut off behind the commit of its put. What is left of the log has the put or has it not, and
the sequence is cut behind the put or before it. -/
theorem durably_linearizable_put :
    ∃ (x : Shared Bool) (ts : List Bool), Run Shared.Step (.start .created) ts x ∧
      x.history = [.call true 1 putOfSeven] ∧
      ∃ s lin db, Linearizes Request.Spec .created s x.history lin ∧ x.state.txnDb = some db ∧
        ∀ n ≤ 1, ∃ done undone u dbu, lin = done ++ undone ∧
          Run (fun s p s' => Request.Spec s p.op p.result s') .created done u ∧ u.txnDb = some dbu ∧
          (dbu.data defaultFamily).lookup [1] = if n = 0 then none else some [7] := by
  have hput : Run Shared.Step (.start .created) [true, true, true, true, true, true, true] _ :=
    .cons (Monitored.Step.call putOfSeven rfl) <| .cons (.acquire rfl rfl rfl) <|
      .cons (.first rfl rfl rfl) <| .cons (.next rfl rfl) <| .cons (.next rfl rfl) <|
      .cons (.next rfl rfl) <| .single (.next rfl rfl)
  have hcreated : OpenWith created (Db.created.beginTransaction true none).2 := ⟨rfl, rfl⟩
  obtain ⟨s, lin, db, hlin, hdb, hcrash⟩ := durably_linearizable hcreated le_rfl hput
    fun t n a hcall => by cases List.mem_singleton.mp hcall
  refine ⟨_, _, hput, rfl, s, lin, db, hlin, hdb, fun n hn => ?_⟩
  cases hdb
  obtain ⟨done, undone, u, dbu, hsplit, hdone, hu, hdata, -⟩ := hcrash n (Nat.zero_le _) (Nat.zero_le _) hn
  refine ⟨done, undone, u, dbu, hsplit, hdone, hu, ?_⟩
  rw [← hdata defaultFamily (by decide)]
  obtain rfl | rfl : n = 0 ∨ n = 1 := by omega
  · rfl
  · rfl

end StoreImpl

end Librocks
