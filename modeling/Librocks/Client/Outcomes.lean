import Librocks.Client.Kinds
import Librocks.Store.Blind
import Librocks.Store.Families

/-!
# How a client's calls end

Reference: `src/client/KVStore.cpp`, `src/client/RocksException.cpp`.

`Call.exec` is a method with what it returns or throws. The exception for a status carries the status
and its text (`thrown`). `Call.exec_closed` and `Call.exec_refused` say what calls on a closed store and
calls with bad arguments end with; the other lemmas are about calls that get as far as RocksDB, whose
first answer that is not granted gives the code (`WriteFails`, `ReadFails`, `CompactFails`).
-/

namespace Librocks

open Rocks StoreImpl

/-! ## The store: arguments that are refused -/

namespace StoreImpl

variable {s s' : StoreImpl} {db db' : Db} {a : Answers} {k : KindImpl}

/-- Arguments that are refused: a Kind that is not valid or not the library's own, or no key. -/
def BadArgs (kind : Kind) (key : Option Bytes) : Prop := ¬ Usable kind ∨ key = none

/-- A valid Kind that is refused is not the library's own. -/
theorem toKindImpl_of_not_usable {kind : Kind} (hu : ¬ Usable kind) (hv : kind.isValid = true) :
    kind.toKindImpl = none := by
  cases kind with
  | impl k => exact absurd ⟨k, rfl, hv⟩ hu
  | other name valid => rfl

/-- Bad arguments of a writing method are reported by its frame, or by the body for a Kind that is not the
library's own. -/
theorem voidOp_refused {body : Option ℤ → Bytes → StoreImpl → Except Halt (Option ℤ × StoreImpl)}
    {kind : Kind} {key : Option Bytes} (hw : s.OpenWith db)
    (hbody : kind.toKindImpl = none → ∀ key,
      body (some Status.ok) key s = .ok (some Status.invalidArgument, s))
    (hc : BadArgs kind key) :
    s.voidOp body (some Status.ok) kind key = .ok (some Status.invalidArgument, s) := by
  rcases key with _ | key
  · rfl
  have hu := hc.resolve_right (by simp)
  by_cases hv : kind.isValid = true
  · simp only [voidOp, if_pos hv, hw.validateOpen_eq, assign_some]
    exact hbody (toKindImpl_of_not_usable hu hv) key
  · simp only [voidOp, if_neg hv]
    rfl

/-- So are those of a reading method. -/
theorem readOp_refused {body : Option ℤ → Bytes → StoreImpl →
      Except Halt (Option ℤ × ℕ × Option Bytes × StoreImpl)}
    {kind : Kind} {key : Option Bytes} (hw : s.OpenWith db)
    (hbody : kind.toKindImpl = none → ∀ key,
      body (some Status.ok) key s = .ok (some Status.invalidArgument, 0, none, s))
    (hc : BadArgs kind key) :
    s.readOp body (some Status.ok) kind (some 0) key
      = .ok ({ status := some Status.invalidArgument, resultLen := some 0 }, s) := by
  rcases key with _ | key
  · rfl
  have hu := hc.resolve_right (by simp)
  by_cases hv : kind.isValid = true
  · simp only [readOp, if_pos hv, hw.validateOpen_eq, assign_some,
      hbody (toKindImpl_of_not_usable hu hv) key]
    rfl
  · simp only [readOp, if_neg hv]
    rfl

/-- The write itself looks only at the class of the Kind. -/
theorem txWrite_refused {write : Handle → Write} {kind : Kind} (hk : kind.toKindImpl = none)
    (s : StoreImpl) : s.txWrite a write (some Status.ok) kind = .ok (some Status.invalidArgument, s) := by
  simp only [txWrite, hk]
  rfl

theorem get_refused {kind : Kind} {key : Bytes} (hk : kind.toKindImpl = none) (s : StoreImpl) :
    s.get_ a (some Status.ok) kind 0 key = .ok (some Status.invalidArgument, 0, none) := by
  simp only [get_, hk]
  rfl

theorem ifPresent_refused {kind : Kind} {key : Bytes} (hk : kind.toKindImpl = none) (s : StoreImpl)
    (write : Option ℤ → Kind → Bytes → StoreImpl → Except Halt (Option ℤ × StoreImpl)) :
    ifPresent a write kind (some Status.ok) key s = .ok (some Status.invalidArgument, 0, none, s) := by
  simp only [ifPresent, get_refused hk, ok_bind]
  rfl

/-- `putIfAbsent` refuses what `put` refuses. -/
theorem putIfAbsent_refused {kind : Kind} {key : Option Bytes} (hw : s.OpenWith db) (value : Bytes)
    (hc : BadArgs kind key) :
    s.putIfAbsent a (some Status.ok) kind key value = .ok (some Status.invalidArgument, s) := by
  refine voidOp_refused hw (fun hk key => ?_) hc
  simp only [get_refused hk]
  rfl

/-- `findMinKey` and `findMaxKey` look at the Kind before they look at the store. -/
theorem findKey_refused {extreme : Family → Option Bytes} {kind : Kind} (hu : ¬ Usable kind)
    (s : StoreImpl) : s.findKey a extreme (some Status.ok) kind 0
      = .ok ({ status := some Status.invalidArgument, resultLen := some 0 }, s) := by
  by_cases hv : kind.isValid = true
  · simp only [findKey, if_pos hv, toKindImpl_of_not_usable hu hv]
    rfl
  · simp only [findKey, if_neg hv]
    rfl

theorem compact_refused {kind : Kind} (hu : ¬ Usable kind) (s : StoreImpl) :
    s.compact a (some Status.ok) kind = .ok (some Status.invalidArgument, s) := by
  by_cases hv : kind.isValid = true
  · simp only [compact, if_pos hv, toKindImpl_of_not_usable hu hv]
    rfl
  · simp only [compact, if_neg hv]
    rfl

/-! ## The store: calls when it is closed -/

/-- A closed store that has answered a call is still closed, and has the database that it had, if any. -/
def Shut (s s' : StoreImpl) : Prop := s'.isOpen = false ∧ s'.txnDb = s.txnDb

/-- The code of a call on a closed store: some of the arguments are refused before the flag is looked
at. -/
def ShutCode (bad : Prop) (c : ℤ) : Prop := c = Status.closed ∨ (bad ∧ c = Status.invalidArgument)

/-- The code of a closed store is an error for every method of the client. -/
theorem ShutCode.ne {bad : Prop} {c : ℤ} (h : ShutCode bad c) :
    c ≠ Status.ok ∧ c ≠ Status.notFound ∧ c ≠ Status.alreadyExists := by
  rcases h with rfl | ⟨-, rfl⟩ <;> decide

theorem not_usable_of_invalid {kind : Kind} (hv : kind.isValid ≠ true) : ¬ Usable kind := by
  rintro ⟨k, rfl, hk⟩
  exact hv hk

/-- A writing method on a closed store. -/
theorem voidOp_shut (h : s.isOpen = false)
    (body : Option ℤ → Bytes → StoreImpl → Except Halt (Option ℤ × StoreImpl)) (kind : Kind)
    (key : Option Bytes) : ∃ c s', s.voidOp body (some Status.ok) kind key = .ok (some c, s') ∧
      ShutCode (BadArgs kind key) c ∧ Shut s s' := by
  rcases key with _ | key
  · exact ⟨_, s, rfl, .inr ⟨.inr rfl, rfl⟩, h, rfl⟩
  by_cases hv : kind.isValid = true
  · simp only [voidOp, if_pos hv, validateOpen_closed h]
    exact ⟨_, _, rfl, .inl rfl, h, rfl⟩
  · simp only [voidOp, if_neg hv]
    exact ⟨_, s, rfl, .inr ⟨.inl (not_usable_of_invalid hv), rfl⟩, h, rfl⟩

/-- A reading method on a closed store. -/
theorem readOp_shut (h : s.isOpen = false)
    (body : Option ℤ → Bytes → StoreImpl → Except Halt (Option ℤ × ℕ × Option Bytes × StoreImpl))
    (kind : Kind) (key : Option Bytes) :
    ∃ r c s', s.readOp body (some Status.ok) kind (some 0) key = .ok (r, s') ∧ r.status = some c ∧
      ShutCode (BadArgs kind key) c ∧ Shut s s' := by
  rcases key with _ | key
  · exact ⟨_, _, s, rfl, rfl, .inr ⟨.inr rfl, rfl⟩, h, rfl⟩
  by_cases hv : kind.isValid = true
  · simp only [readOp, if_pos hv, validateOpen_closed h]
    exact ⟨_, _, _, rfl, rfl, .inl rfl, h, rfl⟩
  · simp only [readOp, if_neg hv]
    exact ⟨_, _, s, rfl, rfl, .inr ⟨.inl (not_usable_of_invalid hv), rfl⟩, h, rfl⟩

/-- `findMinKey` and `findMaxKey` on a closed store. -/
theorem findKey_shut (h : s.isOpen = false) (extreme : Family → Option Bytes) (kind : Kind) :
    ∃ r c s', s.findKey a extreme (some Status.ok) kind 0 = .ok (r, s') ∧ r.status = some c ∧
      ShutCode (¬ Usable kind) c ∧ Shut s s' := by
  by_cases hu : Usable kind
  · obtain ⟨k, rfl, hv⟩ := hu
    have hvalid : (Kind.impl k).isValid = true := hv
    simp only [findKey, if_pos hvalid, Kind.toKindImpl, validateOpen_closed h]
    exact ⟨_, _, _, rfl, rfl, .inl rfl, h, rfl⟩
  · exact ⟨_, _, s, findKey_refused hu s, rfl, .inr ⟨hu, rfl⟩, h, rfl⟩

/-- `compact` on a closed store. -/
theorem compact_shut (h : s.isOpen = false) (kind : Kind) :
    ∃ c s', s.compact a (some Status.ok) kind = .ok (some c, s') ∧
      ShutCode (¬ Usable kind) c ∧ Shut s s' := by
  by_cases hu : Usable kind
  · obtain ⟨k, rfl, hv⟩ := hu
    have hvalid : (Kind.impl k).isValid = true := hv
    simp only [compact, if_pos hvalid, Kind.toKindImpl, validateOpen_closed h]
    exact ⟨_, _, rfl, .inl rfl, h, rfl⟩
  · exact ⟨_, s, compact_refused hu s, .inr ⟨hu, rfl⟩, h, rfl⟩

/-! ## The store: writes that reach RocksDB -/

/-- The code of a write that fails: that of its first step which RocksDB does not grant. -/
inductive WriteFails (a : Answers) : ℤ → Prop
  | begins (hb : a.begins = false) : WriteFails a Status.noTransaction
  | write {e : Error} (hb : a.begins = true) (he : a.write = some e) : WriteFails a e.code
  | commit {e : Error} (hb : a.begins = true) (hw : a.write = none) (he : a.commit = some e) :
      WriteFails a e.code

/-- The code of a read that fails. -/
def ReadFails (a : Answers) (c : ℤ) : Prop := ∃ e : ReadError, a.get = some e ∧ c = e.1.code

/-- The code of the compaction of `n` Kinds that fails: that of the first Kind which is not granted. -/
def CompactFails (a : Answers) (n : ℕ) (c : ℤ) : Prop :=
  ∃ i < n, ∃ e, a.compact i = some e ∧ (∀ j < i, a.compact j = none) ∧ c = e.code

/-- `NotFound` comes from RocksDB only. -/
theorem WriteFails.ne_notFound {c : ℤ} (h : WriteFails a c) (hwrite : a.write ≠ some .notFound)
    (hcommit : a.commit ≠ some .notFound) : c ≠ Status.notFound := by
  cases h with
  | begins => decide
  | @write e hb he =>
    intro hno
    obtain rfl := e.code_eq_one_iff.mp hno
    exact hwrite he
  | @commit e hb hw he =>
    intro hno
    obtain rfl := e.code_eq_one_iff.mp hno
    exact hcommit he

theorem WriteFails.ne_alreadyExists {c : ℤ} (h : WriteFails a c) : c ≠ Status.alreadyExists := by
  cases h with
  | begins => decide
  | @write e | @commit e =>
    have hpos := e.code_pos
    simp only [Status.alreadyExists]
    omega

theorem ReadFails.ne {c : ℤ} (h : ReadFails a c) :
    c ≠ Status.ok ∧ c ≠ Status.notFound ∧ c ≠ Status.alreadyExists := by
  obtain ⟨e, -, rfl⟩ := h
  refine ⟨(readError_code_ne e).1, (readError_code_ne e).2, ?_⟩
  have hpos := e.1.code_pos
  simp only [Status.alreadyExists]
  omega

theorem CompactFails.ne_ok {n : ℕ} {c : ℤ} (h : CompactFails a n c) : c ≠ Status.ok := by
  obtain ⟨i, -, e, -, -, rfl⟩ := h
  exact e.code_pos.ne'

theorem beginTransaction_granted {old : Option TxnId} {tx : TxnId} {db₂ : Db} {b : Bool}
    (hb : db.beginTransaction b old = (some tx, db₂)) : b = true := by
  cases b with
  | true => rfl
  | false => cases hb

theorem beginTransaction_denied {old : Option TxnId} {db₂ : Db} {b : Bool}
    (hb : db.beginTransaction b old = (none, db₂)) : b = false := by
  cases b with
  | false => rfl
  | true => cases old <;> cases hb

/-- A write that did not report Ok reports the first of its steps that RocksDB did not grant. -/
theorem txWrite_code (hw : s.OpenWith db) {write : Handle → Write} {c : ℤ}
    (hrun : s.txWrite a write (some Status.ok) (.impl k) = .ok (some c, s')) (hc : c ≠ Status.ok) :
    WriteFails a c := by
  obtain ⟨old, s₁, db₁, hreuse, h₁⟩ := reusableTx_open hw a
  simp only [txWrite, Kind.toKindImpl, hreuse, ok_bind, h₁.toOpenWith.deref_eq] at hrun
  cases hb : db₁.beginTransaction a.begins old with
  | mk tx db₂ =>
    simp only [hb] at hrun
    cases tx with
    | none =>
      cases hrun
      exact .begins (beginTransaction_denied hb)
    | some tx =>
      have hbegins := beginTransaction_granted hb
      cases hwrite : a.write with
      | some e =>
        rw [hwrite] at hrun
        cases hrun
        exact .write hbegins hwrite
      | none =>
        rw [hwrite] at hrun
        cases hcommit : a.commit with
        | some e =>
          rw [hcommit] at hrun
          cases hrun
          exact .commit hbegins hwrite hcommit
        | none =>
          rw [hcommit] at hrun
          obtain ⟨s₂, -, hst⟩ := exists_of_bind_eq_ok hrun
          cases hst
          exact absurd rfl hc

/-- How a write ends, with the code `c`. -/
def WriteEnds (a : Answers) (k : KindImpl) (w : Write) (c : ℤ) (s : StoreImpl) (db : Db) (s' : StoreImpl)
    (db' : Db) : Prop :=
  (c = Status.ok ∧ Confined k.handle s db s' db' ∧ db'.data = (db.apply w).data) ∨
    (c ≠ Status.ok ∧ WriteFails a c ∧ Untouched s db s' db')

/-- **A write through a Kind** is committed and confined to it, or it fails and changes nothing. -/
theorem txWrite_impl (hw : s.OpenWith db) (hal : Aligned s db) (a : Answers) (write : Handle → Write)
    (hfam : (write k.handle).handle = k.handle) :
    ∃ c s' db', s.txWrite a write (some Status.ok) (.impl k) = .ok (some c, s') ∧
      WriteEnds a k (write k.handle) c s db s' db' := by
  obtain ⟨st, s', db', hrun, hres⟩ := txWrite_open hw a write (some Status.ok) (.impl k)
  rcases hres with ⟨c, hc, rfl, hu⟩ | ⟨k', hk, rfl, hcom⟩
  · exact ⟨c, s', db', hrun, .inr ⟨hc, txWrite_code hw hrun hc, hu⟩⟩
  · cases hk
    have hroster := txWrite_holds (W := fun _ => True) (Roster.stable _ _) (Aligned.roster hw)
      (fun _ => trivial) hrun
    have hconfined := hcom.confined hal hroster
    rw [hfam] at hconfined
    exact ⟨Status.ok, s', db', hrun, .inl ⟨rfl, hconfined, hcom.data⟩⟩

/-- A read through a Kind finds the value, or that there is none, or it fails. -/
theorem get_impl (hw : s.OpenWith db) (a : Answers) (k : KindImpl) (key : Bytes) :
    (∃ value, a.get = none ∧ (db.data k.handle).lookup key = some value ∧
        s.get_ a (some Status.ok) (.impl k) 0 key = .ok (some Status.ok, value.length, buffer value)) ∨
      (a.get = none ∧ (db.data k.handle).lookup key = none ∧
        s.get_ a (some Status.ok) (.impl k) 0 key = .ok (some Status.notFound, 0, none)) ∨
      ∃ c, ReadFails a c ∧
        s.get_ a (some Status.ok) (.impl k) 0 key = .ok (some c, 0, none) := by
  cases hget : a.get with
  | some e =>
    refine .inr (.inr ⟨e.1.code, ⟨e, hget, rfl⟩, ?_⟩)
    simp only [get_, Kind.toKindImpl, hw.deref_eq, ok_bind, hget, Db.get]
    rfl
  | none =>
    cases hl : (db.data k.handle).lookup key with
    | some value => exact .inl ⟨value, rfl, rfl, get_read hw hget hl (some Status.ok)⟩
    | none =>
      refine .inr (.inl ⟨rfl, rfl, ?_⟩)
      simp only [get_, Kind.toKindImpl, hw.deref_eq, ok_bind, hget, Db.get, hl]
      rfl

/-- `put`, `remove` and `singleRemove` with a Kind of the library and a key. -/
theorem voidWrite_impl (hw : s.OpenWith db) (hal : Aligned s db) (hv : k.isValid = true) (a : Answers)
    {write : Bytes → Handle → Write} (hfam : ∀ key fam, (write key fam).handle = fam) (key : Bytes) :
    ∃ c s' db', s.voidOp (fun status key s => s.txWrite a (write key) status (.impl k)) (some Status.ok)
        (.impl k) (some key) = .ok (some c, s') ∧ WriteEnds a k (write key k.handle) c s db s' db' := by
  have hvalid : (Kind.impl k).isValid = true := hv
  simp only [voidOp, hvalid, if_true, hw.validateOpen_eq, assign_some]
  exact txWrite_impl hw hal a (write key) (hfam key _)

/-- The code of a conditional operation that fails: that of its read, or that of its write if the write
is made at all. -/
def CondFails (a : Answers) (made : Prop) (c : ℤ) : Prop :=
  ReadFails a c ∨ (a.get = none ∧ made ∧ WriteFails a c)

theorem CondFails.ne_alreadyExists {made : Prop} {c : ℤ} (h : CondFails a made c) :
    c ≠ Status.alreadyExists :=
  h.elim (fun hr => hr.ne.2.2) fun hw => hw.2.2.ne_alreadyExists

theorem CondFails.ne_notFound {made : Prop} {c : ℤ} (h : CondFails a made c)
    (hwrite : a.write ≠ some .notFound) (hcommit : a.commit ≠ some .notFound) : c ≠ Status.notFound :=
  h.elim (fun hr => hr.ne.2.1) fun hw => hw.2.2.ne_notFound hwrite hcommit

/-- The conditional operations: the value and the write, or neither. -/
theorem ifPresent_impl (hw : s.OpenWith db) (hal : Aligned s db) (hv : k.isValid = true) (a : Answers)
    {write : Bytes → Handle → Write} (hfam : ∀ key fam, (write key fam).handle = fam) (key : Bytes) :
    ∃ r c s' db', s.readOp (ifPresent a (fun status kind key s => s.txWrite a (write key) status kind)
        (.impl k)) (some Status.ok) (.impl k) (some 0) (some key) = .ok (r, s') ∧ r.status = some c ∧
      ((∃ value, (db.data k.handle).lookup key = some value ∧ r.data = buffer value ∧
          r.resultLen = some value.length ∧ c = Status.ok ∧ Confined k.handle s db s' db' ∧
          db'.data = (db.apply (write key k.handle)).data) ∨
        ((db.data k.handle).lookup key = none ∧ c = Status.notFound ∧ r.data = none ∧
          r.resultLen = some 0 ∧ s' = s) ∨
        (c ≠ Status.ok ∧ CondFails a (key ∈ db.data k.handle) c ∧ Untouched s db s' db')) := by
  have hvalid : (Kind.impl k).isValid = true := hv
  simp only [readOp, hvalid, if_true, hw.validateOpen_eq, assign_some]
  rcases get_impl hw a k key with ⟨value, hok, hl, hget⟩ | ⟨hok, hl, hget⟩ | ⟨c, hc, hget⟩
  · obtain ⟨c, s', db', hrun, hends⟩ := txWrite_impl hw hal a (write key) (hfam key k.handle)
    refine ⟨⟨some c, some value.length, buffer value, []⟩, c, s', db', ?_, rfl, ?_⟩
    · simp only [ifPresent, hget, ok_bind, if_true, hrun, assign_some, Option.getD_some]
      rfl
    · rcases hends with ⟨rfl, hconfined, hdata⟩ | ⟨hne, hfails, hu⟩
      · exact .inl ⟨value, hl, rfl, rfl, rfl, hconfined, hdata⟩
      · exact .inr (.inr ⟨hne, .inr ⟨hok, Finmap.mem_of_lookup_eq_some hl, hfails⟩, hu⟩)
  · refine ⟨⟨some Status.notFound, some 0, none, []⟩, Status.notFound, s, db, ?_, rfl,
      .inr (.inl ⟨hl, rfl, rfl, rfl, rfl⟩)⟩
    simp only [ifPresent, hget]
    rfl
  · have hne : (some c : Option ℤ) ≠ some Status.ok := by simpa using hc.ne.1
    refine ⟨⟨some c, some 0, none, []⟩, c, s, db, ?_, rfl,
      .inr (.inr ⟨hc.ne.1, .inl hc, hw.untouched⟩)⟩
    simp only [ifPresent, hget, ok_bind, if_neg hne]
    rfl

/-- `putIfAbsent` with a Kind of the library and a key: it was there, it is written, or RocksDB denied
something. -/
theorem putIfAbsent_impl (hw : s.OpenWith db) (hal : Aligned s db) (hv : k.isValid = true) (a : Answers)
    (key value : Bytes) :
    ∃ c s' db', s.putIfAbsent a (some Status.ok) (.impl k) (some key) value = .ok (some c, s') ∧
      ((key ∈ db.data k.handle ∧ c = Status.alreadyExists ∧ s' = s) ∨
        (key ∉ db.data k.handle ∧ c = Status.ok ∧ Confined k.handle s db s' db' ∧
          db'.data = (db.apply (.put k.handle key value)).data) ∨
        (c ≠ Status.ok ∧ CondFails a (key ∉ db.data k.handle) c ∧ Untouched s db s' db')) := by
  have hvalid : (Kind.impl k).isValid = true := hv
  simp only [putIfAbsent, voidOp, hvalid, if_true, hw.validateOpen_eq, assign_some]
  rcases get_impl hw a k key with ⟨old, hok, hl, hget⟩ | ⟨hok, hl, hget⟩ | ⟨c, hc, hget⟩
  · refine ⟨Status.alreadyExists, s, db, ?_, .inl ⟨Finmap.mem_of_lookup_eq_some hl, rfl, rfl⟩⟩
    simp only [hget]
    rfl
  · have hnot : key ∉ db.data k.handle := Finmap.lookup_eq_none.mp hl
    obtain ⟨c, s', db', hrun, hends⟩ :=
      txWrite_impl (k := k) hw hal a (fun fam => .put fam key value) rfl
    refine ⟨c, s', db', ?_, ?_⟩
    · simp only [hget, ok_bind, if_true, put_, hrun, Option.getD_some]
      rfl
    · rcases hends with ⟨rfl, hconfined, hdata⟩ | ⟨hne, hfails, hu⟩
      · exact .inr (.inl ⟨hnot, rfl, hconfined, hdata⟩)
      · exact .inr (.inr ⟨hne, .inr ⟨hok, hnot, hfails⟩, hu⟩)
  · obtain ⟨hne, hnot, -⟩ := hc.ne
    refine ⟨c, s, db, ?_, .inr (.inr ⟨hne, .inl hc, hw.untouched⟩)⟩
    have hne' : (some c : Option ℤ) ≠ some Status.ok := by simpa using hne
    have hnot' : (some c : Option ℤ) ≠ some Status.notFound := by simpa using hnot
    simp only [hget, ok_bind, if_neg hnot', if_neg hne']
    rfl

/-- The loop of `compactAll` from the `i`-th Kind on. -/
theorem compactLoop_code (hw : s.OpenWith db) (a : Answers) (i : ℕ) (kinds : List (Bytes × KindImpl))
    (hbefore : ∀ j < i, a.compact j = none) :
    ∃ c, s.compactLoop a i kinds (some Status.ok) = .ok (some c) ∧
      (c = Status.ok ∨ CompactFails a (i + kinds.length) c) := by
  induction kinds generalizing i with
  | nil => exact ⟨Status.ok, rfl, .inl rfl⟩
  | cons k rest ih =>
    simp only [compactLoop, compactKind, hw.deref_eq, ok_bind]
    cases hi : a.compact i with
    | none =>
      have hnext : ∀ j < i + 1, a.compact j = none := by
        intro j hj
        rcases Nat.lt_succ_iff_lt_or_eq.mp hj with hlt | rfl
        · exact hbefore j hlt
        · exact hi
      have hlen : i + 1 + rest.length = i + (k :: rest).length := by
        rw [List.length_cons]
        omega
      rw [← hlen]
      exact ih (i + 1) hnext
    | some e =>
      have hlt : i < i + (k :: rest).length := by
        rw [List.length_cons]
        omega
      exact ⟨e.code, rfl, .inr ⟨i, hlt, e, hi, hbefore, rfl⟩⟩

/-- `compact` with a Kind of the library. -/
theorem compact_impl (hw : s.OpenWith db) (hv : k.isValid = true) (a : Answers) :
    ∃ c, s.compact a (some Status.ok) (.impl k) = .ok (some c, s) ∧
      (c = Status.ok ∨ CompactFails a 1 c) := by
  have hvalid : (Kind.impl k).isValid = true := hv
  simp only [compact, hvalid, if_true, Kind.toKindImpl, hw.validateOpen_eq, compactKind, hw.deref_eq,
    ok_bind, assign_some]
  cases hi : a.compact 0 with
  | none => exact ⟨Status.ok, rfl, .inl rfl⟩
  | some e => exact ⟨e.code, rfl, .inr ⟨0, Nat.one_pos, e, hi, by simp, rfl⟩⟩

/-- `compactAll` on an open store. -/
theorem compactAll_impl (hw : s.OpenWith db) (a : Answers) :
    ∃ c, s.compactAll a (some Status.ok) = .ok (some c, s) ∧
      (c = Status.ok ∨ CompactFails a s.kinds.length c) := by
  obtain ⟨c, hloop, hc⟩ := compactLoop_code hw a 0 s.kinds (by simp)
  rw [Nat.zero_add] at hc
  refine ⟨c, ?_, hc⟩
  simp only [compactAll, hw.validateOpen_eq, assign_some, hloop]
  rfl

/-- `getOrCreateKind` fails only on a name that no Kind has, when the family cannot be created. -/
theorem getOrCreateKind_code (hw : s.OpenWith db) (hal : Aligned s db) {name : Bytes} {c : ℤ}
    {kind : KindImpl} (hrun : s.getOrCreateKind a (some Status.ok) name = .ok (some c, kind, s'))
    (hc : c ≠ Status.ok) :
    cStr name ∉ db.families.map Prod.fst ∧ ∃ e, a.create = some e ∧ c = e.code := by
  simp only [getOrCreateKind, hw.validateOpen_eq, assign_some] at hrun
  cases hl : s.kinds.lookup (cStr name) with
  | some k' =>
    rw [hl] at hrun
    cases hrun
    exact absurd rfl hc
  | none =>
    have hfresh := hal.lookup_none_iff.mp hl
    rw [hl] at hrun
    simp only [createKind, hw.deref_eq, ok_bind, Db.createColumnFamily, if_neg hfresh] at hrun
    cases hcreate : a.create with
    | none =>
      rw [hcreate] at hrun
      cases hrun
      exact absurd rfl hc
    | some e =>
      rw [hcreate] at hrun
      cases hrun
      exact ⟨hfresh, e, rfl, rfl⟩

end StoreImpl

/-! ## The methods with what they return -/

namespace KVStore

/-- What a method returns. -/
inductive Result
  | void
  | bytes (b : BytesObj Bytes)
  | bool (b : Bool)
  | kind (k : KindImpl)
  | kinds (ks : List KindImpl)

/-- The Kinds that a result hands to the client. -/
def Result.given : Result → List KindImpl
  | .kind k => [k]
  | .kinds ks => ks
  | _ => []

/-- A method that ended, with its result among those of all methods. -/
def Ended.as {α : Type} (f : α → Result) (x : Ended α) : Ended Result := (x.1.map f, x.2)

/-- A call with its result or exception, and the state after it. -/
def Call.exec (a : Answers) (kv : KVStore) : Call → Except Halt (Ended Result)
  | .put kind key value => (kv.put a kind key value).map (.as fun _ => .void)
  | .remove kind key => (kv.remove a kind key).map (.as fun _ => .void)
  | .get kind key => (kv.get a kind key).map (.as .bytes)
  | .updateIfPresent kind key value => (kv.updateIfPresent a kind key value).map (.as .bytes)
  | .singleRemove kind key => (kv.singleRemove a kind key).map (.as fun _ => .void)
  | .singleRemoveIfPresent kind key => (kv.singleRemoveIfPresent a kind key).map (.as .bytes)
  | .removeIfPresent kind key => (kv.removeIfPresent a kind key).map (.as .bytes)
  | .putIfAbsent kind key value => (kv.putIfAbsent a kind key value).map (.as .bool)
  | .findMinKey kind => (kv.findMinKey a kind).map (.as .bytes)
  | .findMaxKey kind => (kv.findMaxKey a kind).map (.as .bytes)
  | .compact kind => (kv.compact a kind).map (.as fun _ => .void)
  | .compactAll => (kv.compactAll a).map (.as fun _ => .void)
  | .close => (kv.close a).map (.as fun _ => .void)
  | .isOpen => kv.isOpen.map fun b => (.ok (.bool b), kv)
  | .getDefaultKind => kv.getDefaultKind.map (.as .kind)
  | .getOrCreateKind kindName => (kv.getOrCreateKind a kindName).map (.as .kind)
  | .getKinds => kv.getKinds.map (.as .kinds)

/-- The runs of `Client.KVStore` are those of the calls with their results. -/
theorem Call.run_eq_exec (a : Answers) (kv : KVStore) (c : Call) :
    c.run a kv = (c.exec a kv).map Prod.snd := by
  have hmap : ∀ {α β : Type} (f : α → β) (x : Except Halt (Ended α)) (g : Ended α → Ended β),
      (∀ e, (g e).2 = e.2) → x.map Prod.snd = (x.map g).map Prod.snd := by
    intro α β f x g hg
    cases x with
    | error e => rfl
    | ok e => exact congrArg Except.ok (hg e).symm
  cases c with
  | isOpen =>
    simp only [run, exec]
    cases kv.isOpen <;> rfl
  | _ => exact hmap (fun _ => Result.void) _ _ fun _ => rfl

/-- The Kind that a call is given. -/
def Call.kind : Call → Option Kind
  | .put kind _ _ | .remove kind _ | .get kind _ | .updateIfPresent kind _ _ | .singleRemove kind _
  | .singleRemoveIfPresent kind _ | .removeIfPresent kind _ | .putIfAbsent kind _ _ | .findMinKey kind
  | .findMaxKey kind | .compact kind => some kind
  | _ => none

/-- The key view that a call is given. -/
def Call.key : Call → Option (Option Bytes)
  | .put _ key _ | .remove _ key | .get _ key | .updateIfPresent _ key _ | .singleRemove _ key
  | .singleRemoveIfPresent _ key | .removeIfPresent _ key | .putIfAbsent _ key _ => some key
  | _ => none

/-- The key that a call single-deletes, with its Kind. -/
def Call.singleDeletes : Call → Option (KindImpl × Bytes)
  | .singleRemove (.impl k) (some key) | .singleRemoveIfPresent (.impl k) (some key) => some (k, key)
  | _ => none

/-- The methods that write only if the key is present. -/
def Call.ifPresent : Call → Bool
  | .updateIfPresent _ _ _ | .singleRemoveIfPresent _ _ | .removeIfPresent _ _ => true
  | _ => false

/-- The arguments are refused: a Kind that is not valid or not the library's own, or a key view without a
buffer. -/
def Call.Refused (c : Call) : Prop := (∃ kind, c.kind = some kind ∧ ¬ Usable kind) ∨ c.key = some none

/-- The arguments of a call that has both a Kind and a key. -/
theorem Call.refused_iff {c : Call} {kind : Kind} {key : Option Bytes} (hkind : c.kind = some kind)
    (hkey : c.key = some key) : c.Refused ↔ BadArgs kind key := by
  simp only [Refused, BadArgs, hkind, hkey, Option.some.injEq, exists_eq_left']

theorem Call.refused_of_kind {c : Call} {kind : Kind} (hkind : c.kind = some kind) (hu : ¬ Usable kind) :
    c.Refused :=
  .inl ⟨kind, hkind, hu⟩

theorem Call.not_usable_of_refused {c : Call} (hc : c.Refused) {kind : Kind} (hkind : c.kind = some kind)
    (hkey : c.key = none) : ¬ Usable kind := by
  simpa only [Refused, hkind, hkey, Option.some.injEq, exists_eq_left', reduceCtorEq, or_false] using hc

theorem Call.exists_impl {c : Call} (hc : ¬ c.Refused) {kind : Kind} (hkind : c.kind = some kind) :
    ∃ k, kind = .impl k := by
  obtain ⟨k, rfl, -⟩ : Usable kind := by_contra fun hno => hc (.inl ⟨kind, hkind, hno⟩)
  exact ⟨k, rfl⟩

theorem Call.exists_key {c : Call} (hc : ¬ c.Refused) {key : Option Bytes} (hkey : c.key = some key) :
    ∃ key', key = some key' := by
  cases key with
  | some key => exact ⟨key, rfl⟩
  | none => exact absurd (.inr hkey) hc

/-! ## Exceptions -/

/-- The text for a status. -/
def text (status : ℤ) : String := (codes.lookup status).getD "Unknown"

/-- The exception for a status. -/
def thrown (status : ℤ) : RocksException := .new status (text status)

theorem throwForStatus_eq {c : ℤ} (hc : c ≠ Status.ok) : throwForStatus c = .error (thrown c) := by
  simp only [throwForStatus, if_pos hc, thrown, text]
  cases codes.lookup c <;> rfl

theorem orThrow_accepted {α : Type} {accepted : ℤ → Bool} {c : ℤ} (hacc : accepted c = true) (x : α) :
    orThrow accepted (some c) x = .ok x := by
  simp only [orThrow, statusOf, Option.getD_some, hacc]
  rfl

/-- A code that is not accepted is thrown. -/
theorem orThrow_thrown {α : Type} {accepted : ℤ → Bool} {c : ℤ} (hacc : accepted c = false)
    (hc : c ≠ Status.ok) (x : α) : orThrow accepted (some c) x = .error (thrown c) := by
  simp only [orThrow, statusOf, Option.getD_some, hacc, throwForStatus_eq hc]
  rfl

theorem isOk_eq_false {c : ℤ} (hc : c ≠ Status.ok) : isOk c = false := by
  simpa [isOk] using hc

theorem isOkOrNotFound_eq_false {c : ℤ} (hc : c ≠ Status.ok) (hnot : c ≠ Status.notFound) :
    isOkOrNotFound c = false := by
  simp [isOkOrNotFound, hc, hnot]

/-! ## Construction -/

/-- **A constructor that ends** has opened the store, or it throws what listing the families gave. -/
theorem new_cases {o : OpenAnswers} {b : Answers} {r : Except RocksException KVStore}
    (h : KVStore.new o b = .ok r) :
    (o.listed = true ∧ o.opened.isOk = true ∧ ∃ s, StoreImpl.new o = .ok s ∧ r = .ok ⟨some s⟩) ∨
      (o.listed = false ∧ r = .error (thrown o.list.code)) := by
  simp only [KVStore.new, openStore] at h
  cases hl : o.listed with
  | true =>
    cases ho : o.opened.isOk with
    | true =>
      obtain ⟨s, db, hnew, hw, -⟩ := new_opened hl ho
      simp only [hnew, ok_bind, hw.isOpen, if_true] at h
      cases h
      exact .inl ⟨rfl, rfl, s, hnew, orThrow_accepted rfl _⟩
    | false =>
      rw [new_openFails (by simp [OpenAnswers.openFails, hl, ho])] at h
      cases h
  | false =>
    obtain ⟨s, hnew, hclosed, -, hcode⟩ := new_listFails hl
    simp only [hnew, ok_bind, hclosed, close_closed hclosed, destroy_eq_close, hcode, assign_some] at h
    cases h
    have hlist : o.list.isOk = false := by
      simp only [OpenAnswers.listed, Bool.or_eq_false_iff] at hl
      exact hl.1
    have hne := RStatus_code_of_not_ok hlist
    exact .inr ⟨rfl, orThrow_thrown (isOk_eq_false hne) hne _⟩

section

variable {kv : KVStore} {s : StoreImpl} {db : Db} {a : Answers}

/-- A method that returns nothing throws what the store reported, unless that is Ok. -/
theorem callVoid_eq {call : StoreImpl → Except Halt (Option ℤ × StoreImpl)} {st : Option ℤ}
    {s' : StoreImpl} (hs : kv.store = some s) (hcall : call s = .ok (st, s')) :
    kv.callVoid call = .ok (orThrow isOk st (), ⟨some s'⟩) := by
  simp only [callVoid, deref_eq hs, ok_bind, hcall]
  rfl

/-- A method that returns bytes throws what the store reported, unless it accepts it. -/
theorem callBytes_eq {accepted : ℤ → Bool} {call : StoreImpl → Except Halt (Reply × StoreImpl)}
    {r : Reply} {s' : StoreImpl} (hs : kv.store = some s) (hcall : call s = .ok (r, s')) :
    kv.callBytes accepted call
      = .ok (orThrow accepted r.status (.new r.data (r.resultLen.getD 0)), ⟨some s'⟩) := by
  simp only [callBytes, deref_eq hs, ok_bind, hcall]
  rfl

/-- `putIfAbsent` tells Ok and AlreadyExists apart, and throws everything else. -/
theorem putIfAbsent_eq {kind : Kind} {key : Option Bytes} {value : Bytes} {c : ℤ} {s' : StoreImpl}
    (hs : kv.store = some s)
    (hcall : s.putIfAbsent a (some Status.ok) kind key value = .ok (some c, s')) :
    kv.putIfAbsent a kind key value
      = .ok (if c = Status.ok then .ok true else if c = Status.alreadyExists then .ok false
          else .error (thrown c), ⟨some s'⟩) := by
  simp only [putIfAbsent, deref_eq hs, ok_bind, hcall]
  show Except.ok (if c = Status.ok then Except.ok true else if c = Status.alreadyExists then .ok false
    else throwForStatus c, _) = _
  by_cases hok : c = Status.ok
  · rw [if_pos hok, if_pos hok]
  · rw [throwForStatus_eq hok]

/-- A call on the store that reports a code which its method throws. -/
theorem callVoid_thrown {call : StoreImpl → Except Halt (Option ℤ × StoreImpl)} {c : ℤ}
    {s' : StoreImpl} (hs : kv.store = some s) (hcall : call s = .ok (some c, s')) (hc : c ≠ Status.ok) :
    kv.callVoid call = .ok (.error (thrown c), ⟨some s'⟩) := by
  rw [callVoid_eq hs hcall, orThrow_thrown (isOk_eq_false hc) hc]

@[inherit_doc callVoid_thrown] theorem callBytes_thrown {accepted : ℤ → Bool}
    {call : StoreImpl → Except Halt (Reply × StoreImpl)} {r : Reply} {c : ℤ} {s' : StoreImpl}
    (hs : kv.store = some s) (hcall : call s = .ok (r, s')) (hst : r.status = some c)
    (hacc : accepted c = false) (hc : c ≠ Status.ok) :
    kv.callBytes accepted call = .ok (.error (thrown c), ⟨some s'⟩) := by
  rw [callBytes_eq hs hcall, hst, orThrow_thrown hacc hc]

/-- The manager of an open store is the store. -/
theorem getKindManager_eq {α : Type}
    {call : StoreImpl → Except Halt (Except RocksException α × StoreImpl)}
    {r : Except RocksException α} {s' : StoreImpl} (hs : kv.store = some s) (hw : s.OpenWith db)
    (hcall : call s = .ok (r, s')) : kv.getKindManager call = .ok (r, ⟨some s'⟩) := by
  simp only [getKindManager, deref_eq hs, ok_bind, StoreImpl.getKindManager, hw.validateOpen_eq,
    assign_some, orThrow_accepted (show isOk Status.ok = true from rfl), hcall]
  rfl

/-! ## Calls that return -/

/-- A method cannot be called on an object that is not there. -/
theorem Call.exec_null (hs : kv.store = none) {c : Call} (hc : c ≠ .close) :
    c.exec a kv = .error .nullDeref := by
  have hderef : kv.deref = .error .nullDeref := by simp only [deref, hs]
  have hvoid : ∀ call, kv.callVoid call = .error .nullDeref := by
    intro call
    simp only [callVoid, hderef]
    rfl
  have hbytes : ∀ accepted call, kv.callBytes accepted call = .error .nullDeref := by
    intro accepted call
    simp only [callBytes, hderef]
    rfl
  cases c with
  | put kind key value | remove kind key | singleRemove kind key | compact kind | compactAll =>
    exact congrArg (Except.map _) (hvoid _)
  | get kind key | updateIfPresent kind key value | singleRemoveIfPresent kind key
  | removeIfPresent kind key | findMinKey kind | findMaxKey kind =>
    exact congrArg (Except.map _) (hbytes _ _)
  | putIfAbsent kind key value =>
    simp only [exec, KVStore.putIfAbsent, hderef]
    rfl
  | close => exact absurd rfl hc
  | isOpen =>
    simp only [exec, KVStore.isOpen, hderef]
    rfl
  | getDefaultKind =>
    simp only [exec, KVStore.getDefaultKind, getKindManager, hderef]
    rfl
  | getOrCreateKind name =>
    simp only [exec, KVStore.getOrCreateKind, getKindManager, hderef]
    rfl
  | getKinds =>
    simp only [exec, KVStore.getKinds, getKindManager, hderef]
    rfl

/-- **Every call on a sound store returns or throws.** -/
theorem Call.exec_sound (hs : kv.store = some s) (h : s.Sound) (a : Answers) (c : Call) :
    ∃ x, c.exec a kv = .ok x := by
  have hvoid : ∀ (call : StoreImpl → Except Halt (Option ℤ × StoreImpl)) (c : StoreImpl.Call),
      c.run a s = (call s).map StoreImpl.voidReply → ∃ x, kv.callVoid call = .ok x := by
    intro call c hcall
    obtain ⟨r, s', hrun, -⟩ := StoreImpl.run_sound h a c
    obtain ⟨x, hx, -⟩ := exists_of_map_eq_ok (hcall.symm.trans hrun)
    exact ⟨_, callVoid_eq hs hx⟩
  have hbytes : ∀ accepted (call : StoreImpl → Except Halt (Reply × StoreImpl)) (c : StoreImpl.Call),
      c.run a s = call s → ∃ x, kv.callBytes accepted call = .ok x := by
    intro accepted call c hcall
    obtain ⟨r, s', hrun, -⟩ := StoreImpl.run_sound h a c
    exact ⟨_, callBytes_eq hs (hcall.symm.trans hrun)⟩
  have hmap : ∀ {α β : Type} {x : Except Halt α} {f : α → β}, (∃ y, x = .ok y) → ∃ z, x.map f = .ok z := by
    rintro α β x f ⟨y, rfl⟩
    exact ⟨f y, rfl⟩
  have hmanager : (s.getKindManager (some Status.ok)).2.Sound := by
    obtain ⟨r, s', hrun, hsound⟩ := StoreImpl.run_sound h a (.getKindManager (some Status.ok))
    cases hrun
    exact hsound
  -- the manager is the store after `getKindManager`
  have hkind : ∀ {α : Type} (call : StoreImpl → Except Halt (Except RocksException α × StoreImpl)),
      (∃ x, call (s.getKindManager (some Status.ok)).2 = .ok x) → ∃ x, kv.getKindManager call = .ok x := by
    rintro α call ⟨x, hx⟩
    simp only [getKindManager, deref_eq hs, ok_bind]
    cases orThrow isOk (s.getKindManager (some Status.ok)).1 () with
    | error e => exact ⟨_, rfl⟩
    | ok u => exact ⟨_, by rw [hx]; rfl⟩
  cases c with
  | put kind key value => exact hmap (hvoid _ (.put (some Status.ok) kind key value) rfl)
  | remove kind key => exact hmap (hvoid _ (.remove (some Status.ok) kind key) rfl)
  | singleRemove kind key => exact hmap (hvoid _ (.singleRemove (some Status.ok) kind key) rfl)
  | compact kind => exact hmap (hvoid _ (.compact (some Status.ok) kind) rfl)
  | compactAll => exact hmap (hvoid _ (.compactAll (some Status.ok)) rfl)
  | get kind key => exact hmap (hbytes _ _ (.get (some Status.ok) kind (some 0) key) rfl)
  | updateIfPresent kind key value =>
    exact hmap (hbytes _ _ (.updateIfPresent (some Status.ok) kind (some 0) key value) rfl)
  | singleRemoveIfPresent kind key =>
    exact hmap (hbytes _ _ (.singleRemoveIfPresent (some Status.ok) kind (some 0) key) rfl)
  | removeIfPresent kind key =>
    exact hmap (hbytes _ _ (.removeIfPresent (some Status.ok) kind (some 0) key) rfl)
  | findMinKey kind => exact hmap (hbytes _ _ (.findMinKey (some Status.ok) kind 0) rfl)
  | findMaxKey kind => exact hmap (hbytes _ _ (.findMaxKey (some Status.ok) kind 0) rfl)
  | putIfAbsent kind key value =>
    obtain ⟨r, s', hrun, -⟩ := StoreImpl.run_sound h a (.putIfAbsent (some Status.ok) kind key value)
    obtain ⟨x, hx, -⟩ := exists_of_map_eq_ok hrun
    simp only [exec, KVStore.putIfAbsent, deref_eq hs, ok_bind, hx]
    exact hmap ⟨_, rfl⟩
  | close =>
    obtain ⟨r, s', hrun, -⟩ := StoreImpl.run_sound h a .close
    obtain ⟨x, hx, -⟩ := exists_of_map_eq_ok hrun
    simp only [exec, KVStore.close, hs]
    exact hmap (hmap ⟨x, hx⟩)
  | isOpen =>
    simp only [exec, KVStore.isOpen, deref_eq hs]
    exact ⟨_, rfl⟩
  | getDefaultKind => exact hmap (hkind _ ⟨_, rfl⟩)
  | getOrCreateKind name =>
    obtain ⟨r, s', hrun, -⟩ := StoreImpl.run_sound hmanager a (.getOrCreateKind (some Status.ok) name)
    obtain ⟨⟨st, k, s''⟩, hx, -⟩ := exists_of_bind_eq_ok hrun
    refine hmap (hkind _ ⟨(orThrow isOk st k, s''), ?_⟩)
    rw [hx]
    rfl
  | getKinds => exact hmap (hkind _ ⟨_, rfl⟩)

/-! ## Calls that are refused -/

/-- **A call on a closed store** ends with the exception for it, or with that for its arguments. -/
theorem Call.exec_closed (hs : kv.store = some s) (h : s.isOpen = false) (a : Answers) {c : Call}
    (hclose : c ≠ .close) (hopen : c ≠ .isOpen) :
    ∃ code s', c.exec a kv = .ok (.error (thrown code), ⟨some s'⟩) ∧ ShutCode c.Refused code ∧
      Shut s s' := by
  -- `getKindManager` throws before its manager is used
  have hmanager : ∀ {α : Type} (f : α → Result)
      (call : StoreImpl → Except Halt (Except RocksException α × StoreImpl)),
      (kv.getKindManager call).map (Ended.as f)
        = .ok (.error (thrown Status.closed), ⟨some { s with code := Status.closed }⟩) := by
    intro α f call
    simp only [getKindManager, deref_eq hs, ok_bind, StoreImpl.getKindManager, validateOpen_closed h,
      assign_some]
    rfl
  have hcode : Shut s { s with code := Status.closed } := ⟨h, rfl⟩
  cases c with
  | put kind key value | remove kind key | singleRemove kind key =>
    obtain ⟨code, s', hrun, hcode, hshut⟩ := voidOp_shut h _ kind key
    exact ⟨code, s', congrArg (Except.map _) (callVoid_thrown hs hrun hcode.ne.1),
      hcode.imp_right (And.imp_left (Call.refused_iff rfl rfl).mpr), hshut⟩
  | get kind key | updateIfPresent kind key value | singleRemoveIfPresent kind key
  | removeIfPresent kind key =>
    obtain ⟨r, code, s', hrun, hst, hcode, hshut⟩ := readOp_shut h _ kind key
    obtain ⟨hok, hnot, -⟩ := hcode.ne
    exact ⟨code, s', congrArg (Except.map _) (callBytes_thrown hs hrun hst
      (isOkOrNotFound_eq_false hok hnot) hok), hcode.imp_right (And.imp_left (Call.refused_iff rfl rfl).mpr),
      hshut⟩
  | putIfAbsent kind key value =>
    obtain ⟨code, s', hrun, hcode, hshut⟩ := voidOp_shut h _ kind key
    obtain ⟨hok, -, hexists⟩ := hcode.ne
    refine ⟨code, s', ?_, hcode.imp_right (And.imp_left (Call.refused_iff rfl rfl).mpr), hshut⟩
    refine (congrArg (Except.map _) (putIfAbsent_eq hs hrun)).trans ?_
    rw [if_neg hok, if_neg hexists]
    rfl
  | findMinKey kind | findMaxKey kind =>
    obtain ⟨r, code, s', hrun, hst, hcode, hshut⟩ := findKey_shut h _ kind
    exact ⟨code, s', congrArg (Except.map _) (callBytes_thrown hs hrun hst
      (isOk_eq_false hcode.ne.1) hcode.ne.1),
      hcode.imp_right (And.imp_left (Call.refused_of_kind rfl)), hshut⟩
  | compact kind =>
    obtain ⟨code, s', hrun, hcode, hshut⟩ := compact_shut h kind
    exact ⟨code, s', congrArg (Except.map _) (callVoid_thrown hs hrun hcode.ne.1),
      hcode.imp_right (And.imp_left (Call.refused_of_kind rfl)), hshut⟩
  | compactAll =>
    have hrun : s.compactAll a (some Status.ok)
        = .ok (some Status.closed, { s with code := Status.closed }) := by
      simp only [StoreImpl.compactAll, validateOpen_closed h]
      rfl
    exact ⟨_, _, congrArg (Except.map _) (callVoid_thrown hs hrun (by decide)), .inl rfl, hcode⟩
  | getDefaultKind | getOrCreateKind name | getKinds => exact ⟨_, _, hmanager _ _, .inl rfl, hcode⟩
  | close => exact absurd rfl hclose
  | isOpen => exact absurd rfl hopen

/-- **Arguments that are refused** end a call on an open store with an exception, and with nothing else. -/
theorem Call.exec_refused {c : Call} (hs : kv.store = some s) (hw : s.OpenWith db) (hc : c.Refused) :
    c.exec a kv = .ok (.error (thrown Status.invalidArgument), kv) := by
  obtain rfl : kv = ⟨some s⟩ := by
    cases kv
    exact congrArg KVStore.mk hs
  have hne : Status.invalidArgument ≠ Status.ok := by decide
  cases c with
  | put kind key value | remove kind key | singleRemove kind key =>
    exact congrArg (Except.map _) (callVoid_thrown rfl
      (voidOp_refused hw (fun hk _ => txWrite_refused hk s) ((Call.refused_iff rfl rfl).mp hc)) hne)
  | get kind key =>
    refine congrArg (Except.map _) (callBytes_thrown rfl (readOp_refused hw (fun hk key => ?_)
      ((Call.refused_iff rfl rfl).mp hc)) rfl (isOkOrNotFound_eq_false hne (by decide)) hne)
    simp only [get_refused hk, ok_bind]
    rfl
  | updateIfPresent kind key value | singleRemoveIfPresent kind key | removeIfPresent kind key =>
    exact congrArg (Except.map _) (callBytes_thrown rfl
      (readOp_refused hw (fun hk key => ifPresent_refused hk s _) ((Call.refused_iff rfl rfl).mp hc)) rfl
      (isOkOrNotFound_eq_false hne (by decide)) hne)
  | putIfAbsent kind key value =>
    exact congrArg (Except.map _) (putIfAbsent_eq rfl
      (putIfAbsent_refused hw value ((Call.refused_iff rfl rfl).mp hc)))
  | findMinKey kind | findMaxKey kind =>
    exact congrArg (Except.map _) (callBytes_thrown rfl
      (findKey_refused (Call.not_usable_of_refused hc rfl rfl) s) rfl (isOk_eq_false hne) hne)
  | compact kind =>
    exact congrArg (Except.map _) (callVoid_thrown rfl
      (compact_refused (Call.not_usable_of_refused hc rfl rfl) s) hne)
  | _ => exact absurd hc (by simp [Refused, Call.kind, Call.key])

end

end KVStore

end Librocks
