import Librocks.Rocks.Database

/-!
# The log of a database

What a database holds can be had again from its log. `Grows db db'` says this of what was logged between
two moments, and that what is covered by a `FlushWAL(true)` stays covered. It is a preorder, and every call
of RocksDB goes forward in it.

A column family that is created in between is new and empty, while replaying does not know of it.
-/

namespace Librocks.Rocks.Db

/-- What a write makes of a family depends on that family only. -/
theorem apply_congr {db db' : Db} {h : Handle} (hdata : db'.data h = db.data h)
    (hover : db'.overwritten h = db.overwritten h) (w : Write) :
    (db'.apply w).data h = (db.apply w).data h ∧
      (db'.apply w).overwritten h = (db.apply w).overwritten h := by
  by_cases hw : h = w.handle
  · subst hw
    cases w with
    | singleDelete fam key undefined =>
      simp only [Write.handle] at hdata hover ⊢
      by_cases ho : db.overwritten fam key
      · cases undefined <;> simp [apply, setFamily, hdata, hover, ho]
      · simp [apply, setFamily, setOverwritten, hdata, hover, ho]
    | _ =>
      simp only [Write.handle] at hdata hover ⊢
      simp [apply, setFamily, setOverwritten, hdata, hover]
  · simp only [apply_data_of_ne _ hw, apply_overwritten_of_ne _ hw]
    exact ⟨hdata, hover⟩

@[inherit_doc apply_congr] theorem foldl_apply_congr {db db' : Db} {h : Handle}
    (hdata : db'.data h = db.data h) (hover : db'.overwritten h = db.overwritten h) (ws : List Write) :
    (ws.foldl apply db').data h = (ws.foldl apply db).data h ∧
      (ws.foldl apply db').overwritten h = (ws.foldl apply db).overwritten h := by
  induction ws generalizing db db' with
  | nil => exact ⟨hdata, hover⟩
  | cons w ws ih => exact ih (apply_congr hdata hover w).1 (apply_congr hdata hover w).2

/-- Replaying writes syncs nothing. -/
theorem foldl_apply_synced (db : Db) (ws : List Write) : (ws.foldl apply db).synced = db.synced := by
  induction ws generalizing db with
  | nil => rfl
  | cons w ws ih => exact (ih (db.apply w)).trans (db.apply_synced w)

/-- `db'` is `db` at a later moment. -/
structure Grows (db db' : Db) : Prop where
  nextHandle : db.nextHandle ≤ db'.nextHandle
  logged : ∃ ws, db'.wal = db.wal ++ ws ∧ ∀ h, h < db.nextHandle ∨ db'.nextHandle ≤ h →
    db'.data h = (ws.foldl apply db).data h ∧ db'.overwritten h = (ws.foldl apply db).overwritten h
  covered : db.synced ≤ db.wal.length → db.synced ≤ db'.synced ∧ db'.synced ≤ db'.wal.length

variable {db db' db'' : Db}

namespace Grows

/-- Nothing was logged. -/
theorem of_eq (hnext : db'.nextHandle = db.nextHandle) (hdata : db'.data = db.data)
    (hover : db'.overwritten = db.overwritten) (hwal : db'.wal = db.wal) (hsynced : db'.synced = db.synced) :
    Grows db db' where
  nextHandle := hnext.ge
  logged := ⟨[], by rw [hwal, List.append_nil], fun h _ => by rw [hdata, hover]; exact ⟨rfl, rfl⟩⟩
  covered hc := by rw [hsynced, hwal]; exact ⟨le_rfl, hc⟩

/-- A database is itself at a later moment. -/
theorem refl (db : Db) : Grows db db := of_eq rfl rfl rfl rfl rfl

/-- What was logged is appended, and what is covered stays covered. -/
theorem trans (h : Grows db db') (h' : Grows db' db'') : Grows db db'' where
  nextHandle := h.nextHandle.trans h'.nextHandle
  logged := by
    obtain ⟨ws, hwal, hdata⟩ := h.logged
    obtain ⟨us, hwal', hdata'⟩ := h'.logged
    refine ⟨ws ++ us, by rw [hwal', hwal, List.append_assoc], fun fam hfam => ?_⟩
    -- a family that was not created between `db` and `db''` was not created at `db'`
    have hfirst : fam < db.nextHandle ∨ db'.nextHandle ≤ fam := hfam.imp_right h'.nextHandle.trans
    have hsecond : fam < db'.nextHandle ∨ db''.nextHandle ≤ fam :=
      hfam.imp_left fun hlt => lt_of_lt_of_le hlt h.nextHandle
    obtain ⟨hd, ho⟩ := hdata fam hfirst
    obtain ⟨hd', ho'⟩ := hdata' fam hsecond
    rw [List.foldl_append, hd', ho']
    exact foldl_apply_congr hd ho us
  covered hc := by
    obtain ⟨hle, hc'⟩ := h.covered hc
    obtain ⟨hle', hc''⟩ := h'.covered hc'
    exact ⟨hle.trans hle', hc''⟩

/-- The log is only ever appended to. -/
theorem wal_prefix (h : Grows db db') : db.wal <+: db'.wal := by
  obtain ⟨ws, hwal, -⟩ := h.logged
  exact ⟨ws, hwal.symm⟩

/-- **Replaying a log** as far as that of `db'` goes gives what `db'` holds. -/
theorem replay (h : Grows db db') {log : List Write} (hlog : db'.wal <+: log) {fam : Handle}
    (hfam : fam < db.nextHandle ∨ db'.nextHandle ≤ fam) :
    (((log.take db'.wal.length).drop db.wal.length).foldl apply db).data fam = db'.data fam := by
  obtain ⟨ws, hwal, hdata⟩ := h.logged
  rw [← List.prefix_iff_eq_take.mp hlog, hwal, List.drop_left]
  exact (hdata fam hfam).1.symm

/-- The writes of a commit are logged in their order. -/
theorem commitWrites (db : Db) (ws : List Write) : Grows db (db.commitWrites ws) where
  nextHandle := (db.commitWrites_families ws).2.ge
  logged := ⟨ws, rfl, fun _ _ => ⟨rfl, rfl⟩⟩
  covered hc := by
    have hsynced : (db.commitWrites ws).synced = db.synced := db.foldl_apply_synced ws
    have hwal : (db.commitWrites ws).wal = db.wal ++ ws := rfl
    rw [hsynced, hwal, List.length_append]
    exact ⟨le_rfl, hc.trans (Nat.le_add_right _ _)⟩

/-- Beginning a transaction logs nothing. -/
theorem beginTransaction (db : Db) (succeeds : Bool) (old : Option TxnId) :
    Grows db (db.beginTransaction succeeds old).2 := by
  unfold Db.beginTransaction
  split_ifs
  · cases old <;> exact of_eq rfl rfl rfl rfl rfl
  · exact refl db

/-- A write into the buffer of a transaction logs nothing. -/
theorem txnWrite (db : Db) (error : Option Error) (tx : TxnId) (w : Write) :
    Grows db (db.txnWrite error tx w).2 := by
  cases error <;> exact of_eq rfl rfl rfl rfl rfl

/-- A commit logs the buffer, or nothing when it is refused. -/
theorem txnCommit (db : Db) (error : Option Error) (tx : TxnId) : Grows db (db.txnCommit error tx).2 := by
  cases error with
  | some e => exact refl db
  | none => exact (commitWrites db (db.txns tx)).trans (of_eq rfl rfl rfl rfl rfl)

/-- A range deletion is one write of the log. -/
theorem writeRange (db : Db) (error : Option Error) (h : Handle) (b e : Bytes) :
    Grows db (db.writeRange error h b e).2 := by
  unfold Db.writeRange
  split_ifs
  · exact refl db
  · cases error with
    | some err => exact refl db
    | none => exact commitWrites db [.deleteRange h b e]

/-- `FlushWAL(true)` covers the whole log; a refused one covers nothing new. -/
theorem flushWAL (db : Db) (error : Option Error) : Grows db (db.flushWAL error) := by
  cases error with
  | some e => exact refl db
  | none =>
    exact { nextHandle := le_rfl, logged := (refl db).logged, covered := fun hc => ⟨hc, le_rfl⟩ }

/-- The new family is behind all others, and empty. -/
theorem createColumnFamily {error : Option Error} {name : Bytes} {h : Handle}
    (hcreate : db.createColumnFamily error name = .ok (h, db')) : Grows db db' := by
  unfold Db.createColumnFamily at hcreate
  split_ifs at hcreate
  cases error with
  | some e => cases hcreate
  | none =>
    cases hcreate
    refine ⟨Nat.le_succ _, ⟨[], (List.append_nil _).symm, fun fam hfam => ?_⟩, fun hc => ⟨le_rfl, hc⟩⟩
    have hne : fam ≠ db.nextHandle := by
      rcases hfam with hlt | hle
      · exact Nat.ne_of_lt hlt
      · exact Nat.ne_of_gt hle
    exact ⟨Function.update_of_ne hne _ _, Function.update_of_ne hne _ _⟩

end Grows

end Librocks.Rocks.Db
