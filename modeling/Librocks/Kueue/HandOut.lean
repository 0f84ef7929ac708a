import Librocks.Kueue.Defs
import Librocks.Store.Calls

/-!
# Handing out a value and removing it

`updateIfPresent`, `removeIfPresent` and `singleRemoveIfPresent` read a value first and then write, and
either step can fail. `handed_out_iff`: the value is handed out only together with the write exactly
when no read of a non-empty value is followed by a write that fails. In that case the operations, and
the two overloads of `take` that are built on them, return the value beside the code of the error, and
the value is still stored.
-/

namespace Librocks

open Rocks

namespace StoreImpl

/-! ## The store -/

/-- The operations that read a value and then write. -/
inductive Conditional
  | updateIfPresent (value : Bytes)
  | singleRemoveIfPresent
  | removeIfPresent

def Conditional.run (a : Answers) (status : Option ℤ) (kind : Kind) (resultLen : Option ℕ)
    (key : Option Bytes) (s : StoreImpl) : Conditional → Except Halt (Reply × StoreImpl)
  | .updateIfPresent value => s.updateIfPresent a status kind resultLen key value
  | .singleRemoveIfPresent => s.singleRemoveIfPresent a status kind resultLen key
  | .removeIfPresent => s.removeIfPresent a status kind resultLen key

/-- The write that follows the read. -/
def Conditional.write (a : Answers) (key : Bytes) (h : Handle) : Conditional → Write
  | .updateIfPresent value => .put h key value
  | .singleRemoveIfPresent => .singleDelete h key a.undefined
  | .removeIfPresent => .delete h key

/-- RocksDB begins the transaction, takes the write and commits it. -/
def Grants (a : Answers) : Prop := a.begins = true ∧ a.write = none ∧ a.commit = none

/-- The two steps are torn apart: the arguments pass, a non-empty value is read, and the write after it
fails. -/
def Torn (a : Answers) (db : Db) (kind : Kind) (resultLen : Option ℕ) (key : Option Bytes) : Prop :=
  ∃ k key' value, kind = .impl k ∧ k.isValid = true ∧ resultLen.isSome = true ∧ key = some key' ∧
    a.get = none ∧ (db.data k.handle).lookup key' = some value ∧ value ≠ [] ∧ ¬ Grants a

/-- Ok says that the old value was handed out and the write committed, any other status that nothing was
handed out and nothing changed. -/
def HandsOut (a : Answers) (s : StoreImpl) (db : Db) (op : Conditional) (status : Option ℤ)
    (kind : Kind) (resultLen : Option ℕ) (key : Option Bytes) : Prop :=
  ∃ r s' db', op.run a status kind resultLen key s = .ok (r, s') ∧
    Reports status r.status
      (∃ k key' value, kind = .impl k ∧ key = some key' ∧
        (db.data k.handle).lookup key' = some value ∧ r.data = buffer value ∧
        Committed a (op.write a key' k.handle) s db s' db')
      (r.data = none ∧ Untouched s db s' db')

variable {s : StoreImpl} {db : Db}

/-- A transactional write reports Ok exactly when RocksDB granted all of it. -/
theorem txWrite_ok_iff (h : OpenWith s db) (a : Answers) (write : Handle → Write) (kd : KindImpl)
    {status : Option ℤ} {s' : StoreImpl}
    (hrun : s.txWrite a write (some Status.ok) (.impl kd) = .ok (status, s')) :
    status = some Status.ok ↔ Grants a := by
  obtain ⟨old, s₁, db₁, hreuse, h₁⟩ := reusableTx_open h a
  have hopen₁ : OpenWith s₁ db₁ := h₁.toOpenWith
  have hcode : ∀ e : Error, some e.code ≠ some Status.ok := by
    intro e heq
    exact e.code_pos.ne' (Option.some.inj heq)
  simp only [txWrite, Kind.toKindImpl, hreuse, ok_bind, hopen₁.deref_eq] at hrun
  cases hb : a.begins with
  | false =>
    rw [hb] at hrun
    cases hrun
    exact ⟨fun hno => absurd hno (by decide), fun hg => absurd (hb.symm.trans hg.1) (by decide)⟩
  | true =>
    rw [hb] at hrun
    cases hbegin : db₁.beginTransaction true old with
    | mk tx db₂ =>
      rw [hbegin] at hrun
      cases tx with
      | none => cases old <;> simp [Db.beginTransaction] at hbegin
      | some tx =>
        cases hw : a.write with
        | some e =>
          rw [hw] at hrun
          cases hrun
          exact ⟨fun hno => absurd hno (hcode e), fun hg => absurd (hw.symm.trans hg.2.1) (by simp)⟩
        | none =>
          rw [hw] at hrun
          cases hc : a.commit with
          | some e =>
            rw [hc] at hrun
            cases hrun
            exact ⟨fun hno => absurd hno (hcode e), fun hg => absurd (hc.symm.trans hg.2.2) (by simp)⟩
          | none =>
            rw [hc] at hrun
            obtain ⟨s₂, -, hst⟩ := exists_of_bind_eq_ok hrun
            obtain ⟨rfl, -⟩ := Prod.mk.inj (Except.ok.inj hst)
            exact ⟨fun _ => ⟨hb, hw, hc⟩, fun _ => rfl⟩

/-- A read that finds the key. -/
theorem get_read (h : OpenWith s db) {a : Answers} {k : KindImpl} {key value : Bytes}
    (hget : a.get = none) (hl : (db.data k.handle).lookup key = some value) (status : Option ℤ) :
    s.get_ a status (.impl k) 0 key = .ok (status, value.length, buffer value) := by
  simp only [get_, Kind.toKindImpl, h.deref_eq, ok_bind, hget, Db.get, hl]
  cases value <;> rfl

/-- A read that fails, or does not find the key. -/
theorem get_missed (h : OpenWith s db) {a : Answers} {k : KindImpl} {key : Bytes}
    (hmiss : ¬ (a.get = none ∧ ∃ value, (db.data k.handle).lookup key = some value)) :
    ∃ c, c ≠ Status.ok ∧ s.get_ a (some Status.ok) (.impl k) 0 key = .ok (some c, 0, none) := by
  simp only [get_, Kind.toKindImpl, h.deref_eq, ok_bind]
  cases hget : a.get with
  | some e => exact ⟨e.1.code, (readError_code_ne e).1, rfl⟩
  | none =>
    cases hl : (db.data k.handle).lookup key with
    | some value => exact absurd ⟨hget, value, hl⟩ hmiss
    | none => exact ⟨Status.notFound, by decide, by simp only [Db.get, hl]; rfl⟩

/-- The ends of a conditional operation: nothing was handed out, or the value was handed out with the
write, or without it. -/
theorem conditional_cases (h : OpenWith s db) (a : Answers) (op : Conditional) (status : Option ℤ)
    (kind : Kind) (resultLen : Option ℕ) (key : Option Bytes) :
    ∃ r s' db', op.run a status kind resultLen key s = .ok (r, s') ∧
      ((¬ Torn a db kind resultLen key ∧ Failed status r.status s db s' db' ∧ r.data = none) ∨
        (¬ Torn a db kind resultLen key ∧ r.status = assign Status.ok status ∧
          ∃ k key' value, kind = .impl k ∧ key = some key' ∧
            (db.data k.handle).lookup key' = some value ∧ r.data = buffer value ∧
            Committed a (op.write a key' k.handle) s db s' db') ∨
        (Torn a db kind resultLen key ∧ Failed status r.status s db s' db' ∧ r.data ≠ none)) := by
  have hop : op.run a status kind resultLen key s =
      s.readOp (ifPresent a (fun status kind key s => s.txWrite a (op.write a key) status kind) kind)
        status kind resultLen key := by
    cases op <;> rfl
  rw [hop]
  -- whatever is refused before the read
  rcases key with _ | key
  · refine ⟨_, s, db, rfl,
      .inl ⟨?_, h.failed (c := Status.invalidArgument) (by decide) status, rfl⟩⟩
    rintro ⟨_, _, _, _, _, _, hno, _⟩
    exact absurd hno (by simp)
  rcases resultLen with _ | len
  · refine ⟨_, s, db, rfl,
      .inl ⟨?_, h.failed (c := Status.invalidArgument) (by decide) status, rfl⟩⟩
    rintro ⟨_, _, _, _, _, hno, _⟩
    exact absurd hno (by simp)
  by_cases hv : kind.isValid = true
  swap
  · refine ⟨_, s, db, by simp only [readOp, hv]; rfl,
      .inl ⟨?_, h.failed (c := Status.invalidArgument) (by decide) status, rfl⟩⟩
    rintro ⟨k, _, _, rfl, hk, _⟩
    exact hv hk
  simp only [readOp, hv, if_true, h.validateOpen_eq]
  cases kind with
  | other name valid =>
    have hfailed : Failed status (assign Status.invalidArgument (assign Status.ok status)) s db s db :=
      ⟨Status.invalidArgument, by decide, assign_assign _ _ _, h.untouched⟩
    refine ⟨_, s, db, rfl, .inl ⟨?_, hfailed, rfl⟩⟩
    rintro ⟨_, _, _, hno, _⟩
    exact absurd hno (by simp)
  | impl k =>
    by_cases hread : a.get = none ∧ ∃ value, (db.data k.handle).lookup key = some value
    · obtain ⟨hget, value, hl⟩ := hread
      obtain ⟨st, s', db', hwrite, hres⟩ :=
        txWrite_open h a (op.write a key) (some Status.ok) (.impl k)
      have hok := txWrite_ok_iff h a (op.write a key) k hwrite
      simp only [ifPresent, get_read h hget hl, ok_bind, if_true, hwrite]
      refine ⟨_, s', db', rfl, ?_⟩
      rcases hres with ⟨c, hc, rfl, hu⟩ | ⟨k', hk, rfl, hcom⟩
      · have hno : ¬ Grants a := fun hg => hc (Option.some.inj (hok.mpr hg))
        have hfailed : Failed status (assign c (assign Status.ok status)) s db s' db' :=
          ⟨c, hc, assign_assign _ _ _, hu⟩
        by_cases hnil : value = []
        · subst hnil
          refine .inl ⟨?_, hfailed, rfl⟩
          rintro ⟨k', key', v, hk, -, -, hkey, -, hlookup, hne, -⟩
          cases hk
          cases hkey
          exact hne (Option.some.inj (hlookup.symm.trans hl))
        · refine .inr (.inr ⟨⟨k, key, value, rfl, hv, rfl, rfl, hget, hl, hnil, hno⟩, hfailed, ?_⟩)
          simpa [buffer] using hnil
      · cases hk
        have hg := hok.mp rfl
        refine .inr (.inl ⟨?_, assign_assign _ _ _, k, key, value, rfl, rfl, hl, rfl, hcom⟩)
        rintro ⟨_, _, _, _, _, _, _, _, _, _, hno⟩
        exact hno hg
    · obtain ⟨c, hc, hget⟩ := get_missed h hread
      have hne : (some c : Option ℤ) ≠ some Status.ok := by simpa using hc
      simp only [ifPresent, hget, ok_bind, if_neg hne]
      refine ⟨_, s, db, rfl, .inl ⟨?_, ⟨c, hc, assign_assign _ _ _, h.untouched⟩, rfl⟩⟩
      rintro ⟨k', key', v, hk, -, -, hkey, hget', hlookup, -⟩
      cases hk
      cases hkey
      exact hread ⟨hget', v, hlookup⟩

/-- A call that committed a write did not leave the store untouched. -/
theorem Untouched.not_committed {a : Answers} {w : Write} {s' : StoreImpl} {db' db'' : Db}
    (h : Untouched s db s' db') : ¬ Committed a w s db s' db'' := by
  intro hcom
  obtain rfl : db' = db'' := h.db_eq hcom.txnDb
  have hwal := hcom.wal
  rw [h.content.wal] at hwal
  simpa using congrArg List.length hwal

/-- A status that reports a failure, of a call that left the store untouched and handed out a value, is
neither of the two reports. -/
theorem Failed.not_reports {status status' : Option ℤ} {s' : StoreImpl} {db' : Db}
    {done undone : Prop} (h : Failed status status' s db s' db')
    (hdone : Untouched s db s' db' → ¬ done) (hundone : ¬ undone) :
    ¬ Reports status status' done undone := by
  obtain ⟨c, hc, rfl, hu⟩ := h
  intro hr
  cases status with
  | none => exact hr.2.elim (hdone hu) hundone
  | some c₀ =>
    obtain ⟨c', hc', -, hun⟩ := hr
    obtain rfl := Option.some.inj hc'
    exact hundone (hun hc)

theorem Failed.reports {status status' : Option ℤ} {s' : StoreImpl} {db' : Db}
    {done undone : Prop} (h : Failed status status' s db s' db') (hundone : undone) :
    Reports status status' done undone := by
  obtain ⟨c, hc, rfl, -⟩ := h
  exact .of_undone hc rfl hundone

theorem handsOut_iff (h : OpenWith s db) (a : Answers) (op : Conditional) (status : Option ℤ)
    (kind : Kind) (resultLen : Option ℕ) (key : Option Bytes) :
    HandsOut a s db op status kind resultLen key ↔ ¬ Torn a db kind resultLen key := by
  obtain ⟨r, s', db', hrun, hres⟩ := conditional_cases h a op status kind resultLen key
  rcases hres with ⟨hno, hfailed, hdata⟩ | ⟨hno, hst, hdone⟩ | ⟨htorn, hfailed, hdata⟩
  · refine iff_of_true ⟨r, s', db', hrun, hfailed.reports ⟨hdata, ?_⟩⟩ hno
    obtain ⟨-, -, -, hu⟩ := hfailed
    exact hu
  · exact iff_of_true ⟨r, s', db', hrun, .of_done hst hdone⟩ hno
  · refine iff_of_false ?_ (not_not.mpr htorn)
    rintro ⟨r', s'', db'', hrun', hreports⟩
    obtain ⟨rfl, rfl⟩ := Prod.mk.inj (Except.ok.inj (hrun.symm.trans hrun'))
    refine hfailed.not_reports (fun hu => ?_) (fun hnone => hdata hnone.1) hreports
    rintro ⟨k, key', value, -, -, -, -, hcom⟩
    exact hu.not_committed hcom

end StoreImpl

/-! ## The queue -/

namespace KueueImpl

/-- The overloads of `take`, the second one with its timeout. -/
inductive Taking
  | take
  | timed (timeout : ℤ)

def Taking.run (a : Answers) (status : Option ℤ) (valLen : Option ℕ) (q : KueueImpl) (s : StoreImpl) :
    Taking → Except Halt (Reply × KueueImpl × StoreImpl)
  | .take => q.take a status valLen s
  | .timed timeout => q.takeTimed a status valLen timeout s

/-- The count ends the wait. -/
def Taking.passes (count : Int64) : Taking → Prop
  | .take => count ≠ 0
  | .timed _ => count > 0

/-- Whenever the call returns: Ok says that the message under `minKey` was handed out, its removal
committed and the queue moved past it, any other status that nothing was handed out and neither the
queue nor the store changed. -/
def HandsOut (a : Answers) (q : KueueImpl) (s : StoreImpl) (db : Db) (op : Taking) (status : Option ℤ)
    (valLen : Option ℕ) : Prop :=
  ∀ r q' s', op.run a status valLen q s = .ok (r, q', s') →
    ∃ db', Reports status r.status
      (∃ k value, q.queueKind = some (.impl k) ∧
        (db.data k.handle).lookup (putU64BE q.minKey) = some value ∧
        r.value = StoreImpl.buffer value ∧ q' = q.removed ∧
        StoreImpl.Committed a (.singleDelete k.handle (putU64BE q.minKey) a.undefined) s db s' db')
      (r.value = none ∧ q' = q ∧ StoreImpl.Untouched s db s' db')

/-- The call gets past its wait, and the two steps of its removal are torn apart. -/
def Torn (a : Answers) (q : KueueImpl) (db : Db) (op : Taking) (valLen : Option ℕ) : Prop :=
  q.isValid_ = true ∧ op.passes q.count ∧
    ∃ kind, q.queueKind = some kind ∧ StoreImpl.Torn a db kind valLen (some (putU64BE q.minKey))

variable {q : KueueImpl} {s : StoreImpl} {db : Db}

/-- A `take` that does not get to its removal answers without a value, or does not return. -/
theorem Taking.run_cases (a : Answers) (op : Taking) (status : Option ℤ) (valLen : Option ℕ) :
    (q.isValid_ = true ∧ op.passes q.count ∧
        op.run a status valLen q s = q.takeNow a status valLen s) ∨
      (¬ (q.isValid_ = true ∧ op.passes q.count) ∧
        (op.run a status valLen q s = .error .blocked ∨
          ∃ c, c ≠ Status.ok ∧
            op.run a status valLen q s = .ok ({ status := assign c status, valLen }, q, s))) := by
  cases hv : q.isValid_ with
  | false =>
    refine .inr ⟨fun hno => absurd hno.1 (by simp), .inr ⟨Status.invalid, by decide, ?_⟩⟩
    cases op <;> simp only [run, KueueImpl.take, takeTimed, waitFor, hv] <;> rfl
  | true =>
    cases op with
    | take =>
      by_cases h0 : q.count = 0
      · exact .inr ⟨fun hno => hno.2 h0,
          .inl (by simp only [run, KueueImpl.take, hv, if_true, if_pos h0])⟩
      · exact .inl ⟨rfl, h0, by simp only [run, KueueImpl.take, hv, if_true, if_neg h0]⟩
    | timed timeout =>
      by_cases hpos : q.count > 0
      · exact .inl ⟨rfl, hpos, by simp only [run, takeTimed, waitFor, hv, if_true, if_pos hpos]⟩
      · refine .inr ⟨fun hno => hpos hno.2, ?_⟩
        simp only [run, takeTimed, waitFor, hv, if_true, if_neg hpos]
        by_cases ht : timeout > 0
        · exact .inr ⟨Status.timedOut, by decide, by rw [if_pos ht]; rfl⟩
        · exact .inl (by rw [if_neg ht])

theorem handsOut_iff (h : s.OpenWith db) (a : Answers) (op : Taking) (status : Option ℤ)
    (valLen : Option ℕ) : HandsOut a q s db op status valLen ↔ ¬ Torn a q db op valLen := by
  unfold HandsOut Torn
  rcases op.run_cases (q := q) (s := s) a status valLen with
    ⟨hv, hpass, hrun⟩ | ⟨hno, hrun | ⟨c, hc, hrun⟩⟩
  swap
  · refine iff_of_true (fun r q' s' hr => ?_) fun ht => hno ⟨ht.1, ht.2.1⟩
    rw [hrun] at hr
    cases hr
  swap
  · refine iff_of_true (fun r q' s' hr => ?_) fun ht => hno ⟨ht.1, ht.2.1⟩
    rw [hrun] at hr
    cases hr
    exact ⟨db, .of_undone hc rfl ⟨rfl, rfl, h.untouched⟩⟩
  rw [hrun]
  cases hkind : q.queueKind with
  | none =>
    refine iff_of_true (fun r q' s' hr => ?_) (fun ⟨_, _, _, hno, _⟩ => absurd hno (by simp))
    simp only [takeNow, getKindRef, hkind] at hr
    cases hr
  | some kind =>
    obtain ⟨r, s', db', hcall, hres⟩ := StoreImpl.conditional_cases h a .singleRemoveIfPresent
      (localState status) kind valLen (some (putU64BE q.minKey))
    simp only [StoreImpl.Conditional.run] at hcall
    simp only [takeNow, getKindRef, hkind, ok_bind, hcall]
    rcases hres with ⟨hno, ⟨c, hc, hst, hu⟩, hdata⟩ | ⟨hno, hst, k, key', value, rfl, hkey, hl, hdata, hcom⟩
        | ⟨htorn, ⟨c, hc, hst, hu⟩, hdata⟩
    · have hne : r.status ≠ some Status.ok := by
        rw [hst]
        simpa [localState] using hc
      refine iff_of_true (fun r' q' s'' hr => ?_) fun ⟨_, _, kind', hk, ht⟩ => ?_
      · simp only [if_neg hne] at hr
        cases hr
        exact ⟨db', .of_undone hc (by rw [hst]; rfl) ⟨hdata, rfl, hu⟩⟩
      · cases hk
        exact hno ht
    · refine iff_of_true (fun r' q' s'' hr => ?_) fun ⟨_, _, kind', hk, ht⟩ => ?_
      · simp only [hst, localState, assign_some, if_true] at hr
        cases hr
        cases hkey
        exact ⟨db', .of_done rfl ⟨k, value, rfl, hl, hdata, rfl, hcom⟩⟩
      · cases hk
        exact hno ht
    · have hne : r.status ≠ some Status.ok := by
        rw [hst]
        simpa [localState] using hc
      refine iff_of_false (fun hall => ?_) (not_not.mpr ⟨hv, hpass, kind, rfl, htorn⟩)
      simp only [if_neg hne] at hall
      obtain ⟨db'', hreports⟩ := hall _ _ _ rfl
      have hfailed : StoreImpl.Failed status (assign (r.status.getD Status.ok) status) s db s' db' :=
        ⟨c, hc, by rw [hst]; rfl, hu⟩
      refine hfailed.not_reports (fun hu => ?_) (fun hnone => hdata hnone.1) hreports
      rintro ⟨_, _, _, _, _, _, hcom⟩
      exact hu.not_committed hcom

end KueueImpl

/-- **A value is handed out only with its removal or update**, by each of the five operations, exactly
when no read of a non-empty value is followed by a write that fails. -/
theorem handed_out_iff {s : StoreImpl} {db : Db} (hopen : s.OpenWith db) (a : Answers) :
    (∀ (op : StoreImpl.Conditional) (status : Option ℤ) (kind : Kind) (resultLen : Option ℕ)
      (key : Option Bytes), StoreImpl.HandsOut a s db op status kind resultLen key ↔
        ¬ StoreImpl.Torn a db kind resultLen key) ∧
    ∀ (q : KueueImpl) (op : KueueImpl.Taking) (status : Option ℤ) (valLen : Option ℕ),
      KueueImpl.HandsOut a q s db op status valLen ↔ ¬ KueueImpl.Torn a q db op valLen :=
  ⟨StoreImpl.handsOut_iff hopen a, fun _ op => KueueImpl.handsOut_iff hopen a op⟩

namespace KueueImpl

private def oneTaken : KueueImpl × StoreImpl := (Call.put (some 0) [7]).after (fun _ => {}) created

private theorem oneTaken_open : ∃ db, oneTaken.2.OpenWith db := ⟨_, rfl, rfl⟩

/-- A `take` with nothing failing hands out the message that it removed. -/
theorem handed_out_iff_take : ∃ db, oneTaken.2.OpenWith db ∧
    HandsOut {} oneTaken.1 oneTaken.2 db .take (some 0) (some 0) := by
  obtain ⟨db, hopen⟩ := oneTaken_open
  refine ⟨db, hopen, ((handed_out_iff hopen {}).2 _ _ _ _).mpr ?_⟩
  rintro ⟨-, -, kind, -, -, -, -, -, -, -, -, -, -, -, hno⟩
  exact hno ⟨rfl, rfl, rfl⟩

/-- A commit that reports Busy: `take` returns the message beside that code, and the next `take` returns
the same message again. -/
theorem take_hands_out_twice :
    ∃ db s, oneTaken.2.OpenWith db ∧
      oneTaken.1.take { commit := some .busy } (some 0) (some 0) oneTaken.2
        = .ok ({ status := some 11, valLen := some 1, value := some [7] }, oneTaken.1, s) ∧
      (oneTaken.1.take {} (some 0) (some 0) s).map Prod.fst
        = .ok { status := some Status.ok, valLen := some 1, value := some [7] } ∧
      ¬ HandsOut { commit := some .busy } oneTaken.1 oneTaken.2 db .take (some 0) (some 0) := by
  refine ⟨_, _, ⟨rfl, rfl⟩, rfl, rfl, fun hall => ?_⟩
  obtain ⟨db', c, hc, -, hundone⟩ := hall _ _ _ rfl
  obtain rfl := Option.some.inj hc
  exact absurd (hundone (by decide)).1 (by simp)

end KueueImpl

end Librocks
