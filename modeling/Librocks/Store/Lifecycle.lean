import Librocks.Common.Run
import Librocks.Store.Calls

/-!
# The life of a store object

A store is `Sound` when an open flag comes with a database. The constructor builds a sound store or
halts, and it halts in exactly one situation: `openDatabase` got past `ListColumnFamilies`, and
`TransactionDB::Open` failed (`openFails`). From a sound store every call returns and leaves a sound
store: an open one by `run_open`, a closed one because every dereference sits behind the open flag.
-/

namespace Librocks

open Rocks

namespace StoreImpl

/-- The open flag implies a database. -/
def Sound (s : StoreImpl) : Prop := s.isOpen = true → s.txnDb.isSome = true

theorem OpenWith.sound {s : StoreImpl} {db : Db} (h : OpenWith s db) : s.Sound := by
  intro _
  rw [h.txnDb]
  rfl

theorem Sound.openWith {s : StoreImpl} (h : s.Sound) (hopen : s.isOpen = true) :
    ∃ db, OpenWith s db := by
  obtain ⟨db, hdb⟩ := Option.isSome_iff_exists.mp (h hopen)
  exact ⟨db, hopen, hdb⟩

theorem sound_of_closed {s : StoreImpl} (h : s.isOpen = false) : s.Sound := by
  intro hopen
  rw [h] at hopen
  cases hopen

/-! ## Calls on a closed store -/

theorem validateOpen_closed {s : StoreImpl} (h : s.isOpen = false) (status : Option ℤ) :
    s.validateOpen status = (false, assign Status.closed status, { s with code := Status.closed }) := by
  simp [validateOpen, h]

theorem voidOp_closed {s : StoreImpl} (h : s.isOpen = false)
    (body : Option ℤ → Bytes → StoreImpl → Except Halt (Option ℤ × StoreImpl))
    (status : Option ℤ) (kind : Kind) (key : Option Bytes) :
    ∃ status' s', s.voidOp body status kind key = .ok (status', s') ∧ s'.isOpen = false := by
  cases key with
  | none => exact ⟨_, s, rfl, h⟩
  | some key =>
    by_cases hv : kind.isValid
    · simp only [voidOp, hv, if_true, validateOpen_closed h]
      exact ⟨_, _, rfl, h⟩
    · simp only [voidOp, hv]
      exact ⟨_, _, rfl, h⟩

theorem readOp_closed {s : StoreImpl} (h : s.isOpen = false)
    (body : Option ℤ → Bytes → StoreImpl → Except Halt (Option ℤ × ℕ × Option Bytes × StoreImpl))
    (status : Option ℤ) (kind : Kind) (resultLen : Option ℕ) (key : Option Bytes) :
    ∃ r s', s.readOp body status kind resultLen key = .ok (r, s') ∧ s'.isOpen = false := by
  rcases key with _ | key
  · exact ⟨_, s, rfl, h⟩
  rcases resultLen with _ | len
  · exact ⟨_, s, rfl, h⟩
  by_cases hv : kind.isValid
  · simp only [readOp, hv, if_true, validateOpen_closed h]
    exact ⟨_, _, rfl, h⟩
  · simp only [readOp, hv]
    exact ⟨_, _, rfl, h⟩

theorem removeRange_closed {s : StoreImpl} (h : s.isOpen = false) (a : Answers) (status : Option ℤ)
    (kind : Kind) (b e : Option Bytes) :
    ∃ status' s', s.removeRange a status kind b e = .ok (status', s') ∧ s'.isOpen = false := by
  rcases b with _ | b
  · exact ⟨_, s, rfl, h⟩
  rcases e with _ | e
  · exact ⟨_, s, rfl, h⟩
  by_cases hv : kind.isValid
  · simp only [removeRange, hv, if_true, validateOpen_closed h]
    exact ⟨_, _, rfl, h⟩
  · simp only [removeRange, hv]
    exact ⟨_, _, rfl, h⟩

theorem findKey_closed {s : StoreImpl} (h : s.isOpen = false) (a : Answers)
    (extreme : Family → Option Bytes) (status : Option ℤ) (k : Kind) (len : ℕ) :
    ∃ r s', s.findKey a extreme status k len = .ok (r, s') ∧ s'.isOpen = false := by
  by_cases hv : k.isValid
  · cases k with
    | other name valid =>
      simp only [findKey, hv, if_true, Kind.toKindImpl]
      exact ⟨_, _, rfl, h⟩
    | impl k =>
      simp only [findKey, hv, if_true, Kind.toKindImpl, validateOpen_closed h]
      exact ⟨_, _, rfl, h⟩
  · simp only [findKey, hv]
    exact ⟨_, _, rfl, h⟩

theorem compact_closed {s : StoreImpl} (h : s.isOpen = false) (a : Answers) (status : Option ℤ)
    (k : Kind) : ∃ status' s', s.compact a status k = .ok (status', s') ∧ s'.isOpen = false := by
  by_cases hv : k.isValid
  · cases k with
    | other name valid =>
      simp only [compact, hv, if_true, Kind.toKindImpl]
      exact ⟨_, _, rfl, h⟩
    | impl k =>
      simp only [compact, hv, if_true, Kind.toKindImpl, validateOpen_closed h]
      exact ⟨_, _, rfl, h⟩
  · simp only [compact, hv]
    exact ⟨_, _, rfl, h⟩

theorem close_closed {s : StoreImpl} (h : s.isOpen = false) (a : Answers) :
    s.close a = .ok (none, s) := by
  simp only [close, h]
  rfl

/-- A closed store answers every call without touching `txnDb`, and stays closed. -/
theorem run_closed {s : StoreImpl} (h : s.isOpen = false) (a : Answers) (c : Call) :
    ∃ r s', c.run a s = .ok (r, s') ∧ s'.isOpen = false := by
  have hvoid : ∀ body status kind key, ∃ r s',
      (s.voidOp body status kind key).map voidReply = .ok (r, s') ∧ s'.isOpen = false := by
    intro body status kind key
    obtain ⟨_, s', hrun, hs'⟩ := voidOp_closed h body status kind key
    exact ⟨_, s', by rw [hrun]; rfl, hs'⟩
  cases c with
  | put status kind key value => exact hvoid _ _ _ _
  | remove status kind key => exact hvoid _ _ _ _
  | singleRemove status kind key => exact hvoid _ _ _ _
  | putIfAbsent status kind key value => exact hvoid _ _ _ _
  | removeRange status kind b e =>
    obtain ⟨_, s', hrun, hs'⟩ := removeRange_closed h a status kind b e
    exact ⟨_, s', by simp only [Call.run, hrun]; rfl, hs'⟩
  | get status kind len key => exact readOp_closed h _ _ _ _ _
  | updateIfPresent status kind len key value => exact readOp_closed h _ _ _ _ _
  | singleRemoveIfPresent status kind len key => exact readOp_closed h _ _ _ _ _
  | removeIfPresent status kind len key => exact readOp_closed h _ _ _ _ _
  | findMinKey status kind len => exact findKey_closed h a _ _ _ _
  | findMaxKey status kind len => exact findKey_closed h a _ _ _ _
  | syncWAL =>
    simp only [Call.run, syncWAL, syncWALNoLock, h]
    exact ⟨_, _, rfl, h⟩
  | flush =>
    simp only [Call.run, flush, flushNoLock, h]
    exact ⟨_, _, rfl, h⟩
  | flushNoWait =>
    simp only [Call.run, flushNoWait, flushNoLock, h]
    exact ⟨_, _, rfl, h⟩
  | compact status kind =>
    obtain ⟨_, s', hrun, hs'⟩ := compact_closed h a status kind
    exact ⟨_, s', by simp only [Call.run, hrun]; rfl, hs'⟩
  | compactAll status =>
    simp only [Call.run, compactAll, validateOpen_closed h]
    exact ⟨_, _, rfl, h⟩
  | getKindManager status =>
    simp only [Call.run, getKindManager, validateOpen_closed h]
    exact ⟨_, _, rfl, h⟩
  | getKinds status =>
    simp only [Call.run, getKinds, validateOpen_closed h]
    exact ⟨_, _, rfl, h⟩
  | getDefaultKind status =>
    simp only [Call.run, getDefaultKind, validateOpen_closed h]
    exact ⟨_, _, rfl, h⟩
  | getOrCreateKind status name =>
    simp only [Call.run, getOrCreateKind, validateOpen_closed h]
    exact ⟨_, _, rfl, h⟩
  | close =>
    simp only [Call.run, close_closed h]
    exact ⟨_, _, rfl, h⟩

/-! ## Closing -/

/-- `close` on an open store deletes the database as it stands: the flag is already down when
`syncWALNoLock` and `flushNoLock` look at it, so neither does anything. -/
theorem close_open {s : StoreImpl} {db : Db} (h : OpenWith s db) (a : Answers) :
    s.close a = .ok (some db, { s with isOpen := false, kinds := [], txnDb := none }) := by
  simp only [close, h.isOpen, if_true, syncWALNoLock, flushNoLock]
  show Except.ok (s.txnDb, { s with isOpen := false, kinds := [], txnDb := none }) = _
  rw [h.txnDb]

theorem destroy_eq_close (s : StoreImpl) (a : Answers) : s.destroy a = s.close a := by
  cases h : s.isOpen with
  | true => simp only [destroy, h, if_true]
  | false =>
    rw [close_closed h]
    simp only [destroy, h]
    rfl

/-! ## Every call on a sound store -/

/-- **Every call on a sound store returns and leaves a sound store.** -/
theorem run_sound {s : StoreImpl} (h : s.Sound) (a : Answers) (c : Call) :
    ∃ r s', c.run a s = .ok (r, s') ∧ s'.Sound := by
  cases hopen : s.isOpen with
  | false =>
    obtain ⟨r, s', hrun, hs'⟩ := run_closed hopen a c
    exact ⟨r, s', hrun, sound_of_closed hs'⟩
  | true =>
    obtain ⟨db, hw⟩ := h.openWith hopen
    by_cases hclose : c = .close
    · subst hclose
      exact ⟨_, _, by simp only [Call.run, close_open hw]; rfl, sound_of_closed rfl⟩
    · obtain ⟨r, s', db', hrun, heff⟩ := run_open hw a c hclose
      exact ⟨r, s', hrun, heff.openWith.sound⟩

/-- The store reached by a run from a sound store is sound. -/
theorem sound_of_run {s s' : StoreImpl} {ls : List Label} (hrun : Run Step s ls s') (h : s.Sound) :
    s'.Sound := by
  refine hrun.invariant (P := Sound) (fun s l t hs hstep => ?_) h
  obtain ⟨r, t', hrun', ht'⟩ := run_sound hs l.answers l.call
  obtain ⟨-, rfl⟩ := Prod.mk.inj (Except.ok.inj (hrun'.symm.trans hstep))
  exact ht'

/-- Deleting a sound store returns, and nothing is open afterwards. -/
theorem destroy_sound {s : StoreImpl} (h : s.Sound) (a : Answers) :
    ∃ db s', s.destroy a = .ok (db, s') ∧ s'.isOpen = false := by
  rw [destroy_eq_close]
  cases hopen : s.isOpen with
  | false => exact ⟨none, s, close_closed hopen a, hopen⟩
  | true =>
    obtain ⟨db, hw⟩ := h.openWith hopen
    exact ⟨_, _, close_open hw a, rfl⟩

/-! ## Opening -/

/-- `openDatabase` gets as far as `TransactionDB::Open`. -/
def OpenAnswers.listed (a : OpenAnswers) : Bool := a.list.isOk || a.list.isPathNotFound

/-- `TransactionDB::Open` is called, and fails. -/
def OpenAnswers.openFails (a : OpenAnswers) : Bool := a.listed && !a.opened.isOk

/-- The status that RocksDB gave for the attempt to open. -/
def OpenAnswers.outcome (a : OpenAnswers) : RStatus := if a.listed then a.opened else a.list

theorem RStatus_code_of_not_ok {s : RStatus} (h : s.isOk = false) : s.code ≠ Status.ok := by
  cases herr : s.error with
  | none => simp [RStatus.isOk, herr] at h
  | some e =>
    simp only [RStatus.code, herr]
    exact e.code_pos.ne'

/-- A failed `Open` ends in a null dereference. -/
theorem new_openFails {a : OpenAnswers} (h : a.openFails = true) : new a = .error .nullDeref := by
  simp only [OpenAnswers.openFails, OpenAnswers.listed, Bool.and_eq_true, Bool.or_eq_true,
    Bool.not_eq_true'] at h
  simp only [new, open_, openDatabase, if_pos h.1, h.2]
  rfl

/-- A failed `ListColumnFamilies` leaves a store that was never opened. -/
theorem new_listFails {a : OpenAnswers} (h : a.listed = false) :
    ∃ s, new a = .ok s ∧ s.isOpen = false ∧ s.txnDb = none ∧ s.code = a.list.code := by
  have hlist : ¬ (a.list.isOk = true ∨ a.list.isPathNotFound = true) := by
    simpa [OpenAnswers.listed] using h
  have hok : a.list.isOk = false := by
    simpa using fun hk => hlist (.inl hk)
  have hrun : new a = .ok
      { isOpen := false, code := a.list.code, txnDb := none, reusableTx_ := none, kinds := [],
        totalSinceLastSync := 0, lastSync := a.now } := by
    simp only [new, open_, openDatabase, if_neg hlist, pure, Except.pure, ok_bind]
    simp only [hok]
    rfl
  exact ⟨_, hrun, rfl, rfl, rfl⟩

/-- The store that the constructor builds when both calls succeed. -/
theorem new_opened {a : OpenAnswers} (hl : a.listed = true) (ho : a.opened.isOk = true) :
    ∃ s db, new a = .ok s ∧ OpenWith s db ∧ SameContent a.db db ∧
      s.totalSinceLastSync = 0 ∧ s.lastSync = a.now := by
  have hlist : a.list.isOk = true ∨ a.list.isPathNotFound = true := by
    simpa [OpenAnswers.listed] using hl
  simp only [new, open_, openDatabase, if_pos hlist, ho, if_true, deref, pure, Except.pure, ok_bind]
  simp only [reusableTx, deref, pure, Except.pure, ok_bind]
  refine ⟨_, (a.db.beginTransaction a.reuse none).2, rfl, ?_⟩
  exact ⟨⟨rfl, rfl⟩, beginTransaction_sameContent _ _ _, rfl, rfl⟩

end StoreImpl

end Librocks
