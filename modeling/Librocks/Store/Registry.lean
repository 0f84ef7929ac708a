import Librocks.Store.Lifecycle
import Mathlib.Data.List.TakeWhile

/-!
# The registry of Kinds

`kinds` is filled from two parallel vectors when the database is opened, grows with every Kind that is
created, is emptied by `close` and filled again from what the database lists. `Aligned` says that at
every point of an open store it is the list of the existing column families with their handles, entry
by entry; what the three methods answer follows from that.

The behaviour of RocksDB on which this rests is in `Honest` and in `Db.createColumnFamily`.
-/

namespace Librocks

open Rocks

namespace StoreImpl

/-! ## Entries -/

/-- The registry entry of a column family. -/
def entry (e : Bytes × Handle) : Bytes × KindImpl := (e.1, .new e.1 e.2)

theorem lookup_map_entry (families : List (Bytes × Handle)) (name : Bytes) :
    (families.map entry).lookup name = (families.lookup name).map (KindImpl.new name) := by
  induction families with
  | nil => rfl
  | cons e rest ih =>
    obtain ⟨n, h⟩ := e
    simp only [List.map_cons, entry, List.lookup_cons]
    by_cases hn : name = n
    · subst hn
      simp
    · simp only [beq_eq_false_iff_ne.mpr hn]
      exact ih

theorem lookup_eq_none_iff_notMem {β : Type} (l : List (Bytes × β)) (name : Bytes) :
    l.lookup name = none ↔ name ∉ l.map Prod.fst := by
  simp only [List.lookup_eq_none_iff, List.mem_map, not_exists, not_and, bne_iff_ne]
  exact ⟨fun h e he hn => h e he hn.symm, fun h e he hn => h e he hn.symm⟩

theorem mem_of_lookup {β : Type} {l : List (Bytes × β)} {name : Bytes} {b : β}
    (h : l.lookup name = some b) : (name, b) ∈ l := by
  obtain ⟨before, after, rfl, -⟩ := List.lookup_eq_some_iff.mp h
  simp

/-- In a map every pair is found under its name. -/
theorem lookup_of_mem {β : Type} {l : List (Bytes × β)} (hl : (l.map Prod.fst).Nodup) {name : Bytes}
    {b : β} (h : (name, b) ∈ l) : l.lookup name = some b := by
  induction l with
  | nil => cases h
  | cons e rest ih =>
    obtain ⟨n, b'⟩ := e
    obtain ⟨hn, hrest⟩ := List.nodup_cons.mp hl
    rcases List.mem_cons.mp h with heq | hmem
    · cases heq
      simp
    · have hne : name ≠ n := by
        rintro rfl
        exact hn (List.mem_map.mpr ⟨(name, b), hmem, rfl⟩)
      simp only [List.lookup_cons, beq_eq_false_iff_ne.mpr hne]
      exact ih hrest hmem

theorem insertKind_of_lookup_none {kinds : List (Bytes × KindImpl)} {name : Bytes}
    (h : kinds.lookup name = none) (kind : KindImpl) :
    insertKind kinds name kind = kinds ++ [(name, kind)] := by
  simp [insertKind, h]

/-- Registering families with distinct names that are not there yet. -/
theorem foldl_insertKind (families : List (Bytes × Handle)) (kinds : List (Bytes × KindImpl))
    (hnew : ∀ e ∈ families, e.1 ∉ kinds.map Prod.fst) (hd : (families.map Prod.fst).Nodup) :
    families.foldl (fun kinds e => insertKind kinds e.1 (KindImpl.new e.1 e.2)) kinds
      = kinds ++ families.map entry := by
  induction families generalizing kinds with
  | nil => simp
  | cons e rest ih =>
    obtain ⟨hn, hrest⟩ := List.nodup_cons.mp hd
    have hlookup := (lookup_eq_none_iff_notMem kinds e.1).mpr (hnew e (by simp))
    rw [List.foldl_cons, insertKind_of_lookup_none hlookup, ih _ ?_ hrest]
    · simp [entry]
    · intro e' he' hmem
      rw [List.map_append, List.mem_append] at hmem
      rcases hmem with hmem | hmem
      · exact hnew e' (List.mem_cons_of_mem e he') hmem
      · rw [List.map_singleton, List.mem_singleton] at hmem
        exact hn (List.mem_map.mpr ⟨e', he', hmem⟩)

/-! ## The invariant -/

/-- The registry lists the existing column families, one entry each. -/
structure Aligned (s : StoreImpl) (db : Db) : Prop where
  kinds : s.kinds = db.families.map entry
  names : (db.families.map Prod.fst).Nodup
  handles : (db.families.map Prod.snd).Nodup
  /-- No handle will be given out twice. -/
  fresh : ∀ e ∈ db.families, e.2 < db.nextHandle
  nulFree : ∀ e ∈ db.families, cStr e.1 = e.1
  default : DefaultCF ∈ db.families.map Prod.fst

namespace Aligned

variable {s : StoreImpl} {db : Db}

theorem lookup_eq (h : Aligned s db) (name : Bytes) :
    s.kinds.lookup name = (db.families.lookup name).map (KindImpl.new name) := by
  rw [h.kinds, lookup_map_entry]

/-- What the registry holds under a name. -/
theorem lookup_iff (h : Aligned s db) {name : Bytes} {k : KindImpl} :
    s.kinds.lookup name = some k ↔ ∃ hd, (name, hd) ∈ db.families ∧ k = ⟨name, some hd⟩ := by
  rw [h.lookup_eq, Option.map_eq_some_iff]
  constructor
  · rintro ⟨hd, hl, rfl⟩
    have hmem := mem_of_lookup hl
    have hnul : cStr name = name := h.nulFree _ hmem
    exact ⟨hd, hmem, by rw [KindImpl.new, hnul]⟩
  · rintro ⟨hd, hmem, rfl⟩
    have hnul : cStr name = name := h.nulFree _ hmem
    exact ⟨hd, lookup_of_mem h.names hmem, by rw [KindImpl.new, hnul]⟩

theorem lookup_none_iff (h : Aligned s db) {name : Bytes} :
    s.kinds.lookup name = none ↔ name ∉ db.families.map Prod.fst := by
  rw [h.lookup_eq, Option.map_eq_none_iff, lookup_eq_none_iff_notMem]

/-- A created family is one more entry. -/
theorem create (h : Aligned s db) {name : Bytes} (hnew : name ∉ db.families.map Prod.fst)
    (hnul : cStr name = name) {s' : StoreImpl} {db' : Db}
    (hk : s'.kinds = s.kinds ++ [entry (name, db.nextHandle)])
    (hf : db'.families = db.families ++ [(name, db.nextHandle)])
    (hn : db'.nextHandle = db.nextHandle + 1) : Aligned s' db' where
  kinds := by rw [hk, hf, h.kinds, List.map_append, List.map_singleton]
  names := by
    rw [hf, List.map_append, List.map_singleton, ← List.concat_eq_append, List.nodup_concat]
    exact ⟨hnew, h.names⟩
  handles := by
    rw [hf, List.map_append, List.map_singleton, ← List.concat_eq_append, List.nodup_concat]
    refine ⟨fun hmem => ?_, h.handles⟩
    obtain ⟨e, he, heq⟩ := List.mem_map.mp hmem
    exact absurd heq (h.fresh e he).ne
  fresh := by
    intro e he
    rw [hf, List.mem_append, List.mem_singleton] at he
    rw [hn]
    rcases he with he | rfl
    · exact (h.fresh e he).trans (Nat.lt_succ_self _)
    · exact Nat.lt_succ_self _
  nulFree := by
    intro e he
    rw [hf, List.mem_append, List.mem_singleton] at he
    rcases he with he | rfl
    · exact h.nulFree e he
    · exact hnul
  default := by
    rw [hf, List.map_append]
    exact List.mem_append_left _ h.default

end Aligned

theorem cStr_cStr (name : Bytes) : cStr (cStr name) = cStr name := List.takeWhile_idem

/-! ## The methods -/

/-- The answer of `getOrCreateKind`: the entry under the name, or a Kind without a handle, a code other
than Ok and nothing changed. -/
inductive KindAnswer (s : StoreImpl) (status : Option ℤ) (name : Bytes) (st : Option ℤ)
    (kind : KindImpl) (s' : StoreImpl) : Prop
  | granted (hst : st = assign Status.ok status) (hv : kind.isValid = true)
      (hname : kind.name_ = cStr name) (hl : s'.kinds.lookup (cStr name) = some kind)
  | refused (c : ℤ) (hc : c ≠ Status.ok) (hst : st = assign c status) (hv : kind.isValid = false)
      (hs : s' = s)

/-- The entries of one registry are still there in the other. -/
def Keeps (s s' : StoreImpl) : Prop :=
  ∀ name k, s.kinds.lookup name = some k → s'.kinds.lookup name = some k

theorem getOrCreateKind_aligned {s : StoreImpl} {db : Db} (h : OpenWith s db) (hal : Aligned s db)
    (a : Answers) (status : Option ℤ) (name : Bytes) :
    ∃ st kind s' db', s.getOrCreateKind a status name = .ok (st, kind, s') ∧ OpenWith s' db' ∧
      Aligned s' db' ∧ KindAnswer s status name st kind s' ∧ Keeps s s' := by
  simp only [getOrCreateKind, h.validateOpen_eq]
  cases hl : s.kinds.lookup (cStr name) with
  | some k =>
    obtain ⟨hd, -, rfl⟩ := hal.lookup_iff.mp hl
    exact ⟨_, _, s, db, rfl, h, hal, .granted rfl rfl rfl hl, fun _ _ hk => hk⟩
  | none =>
    have hnew := hal.lookup_none_iff.mp hl
    simp only [createKind, h.deref_eq, ok_bind, Db.createColumnFamily, if_neg hnew]
    cases a.create with
    | some e =>
      refine ⟨_, _, s, db, rfl, h, hal, .refused e.code e.code_pos.ne' ?_ rfl rfl, fun _ _ hk => hk⟩
      rw [assign_assign]
    | none =>
      have hinsert := insertKind_of_lookup_none hl (.new (cStr name) db.nextHandle)
      refine ⟨_, _, _, _, rfl, ⟨h.isOpen, rfl⟩, ?_, .granted rfl rfl (cStr_cStr name) ?_, ?_⟩
      · exact hal.create hnew (cStr_cStr name) hinsert rfl rfl
      · simp only [hinsert, List.lookup_append, hl, Option.none_or, List.lookup_cons_self]
      · intro n k hk
        simp only [hinsert, List.lookup_append, hk, Option.some_or]

/-- `getDefaultKind` answers the entry of `"default"`. -/
theorem getDefaultKind_aligned {s : StoreImpl} {db : Db} (h : OpenWith s db) (hal : Aligned s db)
    (status : Option ℤ) : ∃ kind, s.getDefaultKind status = (assign Status.ok status, kind, s) ∧
      kind.isValid = true ∧ kind.name_ = DefaultCF ∧ s.kinds.lookup DefaultCF = some kind := by
  have hsome : s.kinds.lookup DefaultCF ≠ none := fun hno => hal.lookup_none_iff.mp hno hal.default
  obtain ⟨kind, hk⟩ := Option.ne_none_iff_exists'.mp hsome
  obtain ⟨hd, -, rfl⟩ := hal.lookup_iff.mp hk
  refine ⟨_, ?_, rfl, rfl, hk⟩
  simp only [getDefaultKind, h.validateOpen_eq, hk]

/-! ## The life of a database -/

/-- The names handed to `TransactionDB::Open`. -/
def OpenAnswers.descriptors (a : OpenAnswers) : List Bytes :=
  if a.families.isEmpty then [DefaultCF] else a.families

/-- What RocksDB promises for opening a database with these column families (none before the database
was created): `ListColumnFamilies` returns their distinct names, or that there is no database, and
`Open` returns one new handle for each descriptor, in order. -/
structure Honest (names : List Bytes) (a : OpenAnswers) : Prop where
  listed : a.list.isOk = true → names ≠ [] ∧ a.families.Nodup ∧ ∀ n, n ∈ a.families ↔ n ∈ names
  missing : a.list.isPathNotFound = true → names = [] ∧ a.families = []
  opened : a.opened.isOk = true → a.handles.length = a.descriptors.length ∧ a.handles.Nodup ∧
    a.db.families = a.descriptors.zip a.handles ∧ ∀ h ∈ a.handles, h < a.db.nextHandle

/-- A database on disk and the store object that was last built on it. -/
structure Site where
  store : StoreImpl
  /-- The names of the column families that exist; none before the database was created. -/
  names : List Bytes

/-- The methods that read or extend the registry. -/
def Call.onRegistry : Call → Bool
  | .getOrCreateKind _ _ | .getDefaultKind _ | .getKinds _ => true
  | _ => false

/-- What happens to a database. -/
inductive Event
  | call (l : Label)
  | close (a : Answers)
  | reopen (a : OpenAnswers)

/-- The families that exist while `s` is the store: those of its database. -/
def existing (names : List Bytes) (s : StoreImpl) : List Bytes :=
  match s.txnDb with
  | some db => db.families.map Prod.fst
  | none => names

namespace Site

/-- A call on the registry, `close`, or a new store object on the database after that. -/
inductive Step : Site → Event → Site → Prop
  | call {s s' : StoreImpl} {names : List Bytes} {l : Label} (hc : l.call.onRegistry = true)
      (hrun : StoreImpl.Step s l s') : Step ⟨s, names⟩ (.call l) ⟨s', existing names s'⟩
  | close {s s' : StoreImpl} {names : List Bytes} {a : Answers} {d : Option Db}
      (hrun : s.close a = .ok (d, s')) : Step ⟨s, names⟩ (.close a) ⟨s', existing names s'⟩
  | reopen {s s' : StoreImpl} {names : List Bytes} {a : OpenAnswers} (hclosed : s.isOpen = false)
      (ha : Honest names a) (hrun : StoreImpl.new a = .ok s') :
      Step ⟨s, names⟩ (.reopen a) ⟨s', existing names s'⟩

/-- Names that a database can have: distinct C strings with `"default"` among them, or none yet. -/
def WellNamed (names : List Bytes) : Prop :=
  names = [] ∨ (names.Nodup ∧ DefaultCF ∈ names ∧ ∀ n ∈ names, cStr n = n)

/-- Between two incarnations of the store. -/
structure Closed (x : Site) : Prop where
  isOpen : x.store.isOpen = false
  txnDb : x.store.txnDb = none
  names : WellNamed x.names

/-- The invariant: the store is closed, or open with its registry aligned. -/
def Inv (x : Site) : Prop :=
  x.Closed ∨ ∃ db, x.store.OpenWith db ∧ Aligned x.store db ∧ x.names = db.families.map Prod.fst

variable {x y : Site} {e : Event}

theorem wellNamed_of_aligned {s : StoreImpl} {db : Db} (hal : Aligned s db) :
    WellNamed (db.families.map Prod.fst) := by
  refine .inr ⟨hal.names, hal.default, fun n hn => ?_⟩
  obtain ⟨e, he, rfl⟩ := List.mem_map.mp hn
  exact hal.nulFree e he

theorem existing_open {names : List Bytes} {s : StoreImpl} {db : Db} (h : s.OpenWith db) :
    existing names s = db.families.map Prod.fst := by
  simp only [existing, h.txnDb]

theorem existing_closed {names : List Bytes} {s : StoreImpl} (h : s.txnDb = none) :
    existing names s = names := by
  simp only [existing, h]

/-- A registry call on a closed store changes nothing but its code. -/
theorem call_closed {s s' : StoreImpl} {l : Label} (hc : l.call.onRegistry = true)
    (hclosed : s.isOpen = false) (hrun : StoreImpl.Step s l s') :
    s'.isOpen = false ∧ s'.txnDb = s.txnDb := by
  obtain ⟨call, a, r⟩ := l
  cases call with
  | getOrCreateKind status name | getDefaultKind status | getKinds status =>
    simp only [StoreImpl.Step, Call.run, getOrCreateKind, getDefaultKind, getKinds,
      validateOpen_closed hclosed] at hrun
    cases hrun
    exact ⟨hclosed, rfl⟩
  | _ => exact absurd hc (by simp [Call.onRegistry])

/-- A registry call on an open store keeps the registry aligned and every entry of it. -/
theorem call_open {s s' : StoreImpl} {db : Db} {l : Label} (hc : l.call.onRegistry = true)
    (h : s.OpenWith db) (hal : Aligned s db) (hrun : StoreImpl.Step s l s') :
    ∃ db', s'.OpenWith db' ∧ Aligned s' db' ∧ Keeps s s' := by
  obtain ⟨call, a, r⟩ := l
  cases call with
  | getOrCreateKind status name =>
    obtain ⟨st, kind, t, db', hgot, hw, hal', -, hkeeps⟩ := getOrCreateKind_aligned h hal a status name
    simp only [StoreImpl.Step, Call.run, hgot] at hrun
    cases hrun
    exact ⟨db', hw, hal', hkeeps⟩
  | getDefaultKind status =>
    have hsame := getDefaultKind_open h status
    simp only [StoreImpl.Step, Call.run, kindReply, hsame] at hrun
    cases hrun
    exact ⟨db, h, hal, fun _ _ hk => hk⟩
  | getKinds status =>
    have hpair : s.getKinds status = (r, s') := Except.ok.inj hrun
    obtain rfl : s' = s := by rw [← getKinds_open h status, hpair]
    exact ⟨db, h, hal, fun _ _ hk => hk⟩
  | _ => exact absurd hc (by simp [Call.onRegistry])

end Site

/-! ## The other calls -/

/-- The column families of a database and the next handle. -/
def Roster (families : List (Bytes × Handle)) (next : Handle) (db : Db) : Prop :=
  db.families = families ∧ db.nextHandle = next

/-- Only `CreateColumnFamily` changes them. -/
theorem Roster.stable (families : List (Bytes × Handle)) (next : Handle) :
    Stable (fun _ => True) (Roster families next) where
  beginTransaction succeeds old h :=
    ⟨(beginTransaction_sameContent _ succeeds old).families.trans h.1,
      (beginTransaction_sameContent _ succeeds old).nextHandle.trans h.2⟩
  txnWrite error tx _ h :=
    ⟨(txnWrite_sameContent _ error tx _).families.trans h.1,
      (txnWrite_sameContent _ error tx _).nextHandle.trans h.2⟩
  txnCommit {db} error tx h := by
    cases error with
    | some e => exact h
    | none =>
      obtain ⟨hfam, hnext⟩ := db.commitWrites_families (db.txns tx)
      exact ⟨hfam.trans h.1, hnext.trans h.2⟩
  writeRange {db} error fam b e h := by
    unfold Db.writeRange
    split_ifs
    · exact h
    · cases error with
      | some err => exact h
      | none =>
        obtain ⟨hfam, hnext⟩ := db.commitWrites_families [.deleteRange fam b e]
        exact ⟨hfam.trans h.1, hnext.trans h.2⟩
  flushWAL error h := by cases error <;> exact h

/-- A call that changes neither the registry nor the families keeps them aligned. -/
theorem Aligned.frame {s s' : StoreImpl} {db db' : Db} (h : Aligned s db) (hw : OpenWith s' db')
    (hkinds : s'.kinds = s.kinds) (hroster : Holds (Roster db.families db.nextHandle) s') :
    Aligned s' db' ∧ Keeps s s' := by
  obtain ⟨hfam, hnext⟩ := hroster db' hw.txnDb
  refine ⟨⟨?_, ?_, ?_, ?_, ?_, ?_⟩, fun name k hk => by rw [hkinds]; exact hk⟩
  · rw [hkinds, hfam, h.kinds]
  · rw [hfam]
    exact h.names
  · rw [hfam]
    exact h.handles
  · rw [hfam, hnext]
    exact h.fresh
  · rw [hfam]
    exact h.nulFree
  · rw [hfam]
    exact h.default

/-- The registry and the store stay as the calls need them. -/
def StaysAligned (s s' : StoreImpl) : Prop := ∃ db, OpenWith s' db ∧ Aligned s' db ∧ Keeps s s'

section

variable {s s' : StoreImpl} {db : Db} {a : Answers}

theorem Aligned.stays (h : Aligned s db) (hw : OpenWith s db) : StaysAligned s s :=
  ⟨db, hw, h, fun _ _ hk => hk⟩

theorem Aligned.roster (hw : OpenWith s db) : Holds (Roster db.families db.nextHandle) s :=
  .of_some hw.txnDb ⟨rfl, rfl⟩

theorem Failed.stays {status status' : Option ℤ} {db' : Db} (hf : Failed status status' s db s' db')
    (h : Aligned s db) (hroster : Holds (Roster db.families db.nextHandle) s') : StaysAligned s s' := by
  obtain ⟨_, _, _, hu⟩ := hf
  exact ⟨db', hu.toOpenWith, h.frame hu.toOpenWith hu.kinds hroster⟩

theorem Committed.stays {w : Write} {db' : Db} (hc : Committed a w s db s' db') (h : Aligned s db)
    (hroster : Holds (Roster db.families db.nextHandle) s') : StaysAligned s s' :=
  ⟨db', hc.toOpenWith, h.frame hc.toOpenWith hc.kinds hroster⟩

/-- `put`, `remove` and `singleRemove`. -/
theorem voidWrite_stays (write : Bytes → Handle → Write) (hw : OpenWith s db) (hal : Aligned s db)
    {status : Option ℤ} {kind : Kind} {key : Option Bytes} {x : Option ℤ × StoreImpl}
    (hrun : s.voidOp (fun status key s => s.txWrite a (write key) status kind) status kind key
      = .ok x) : StaysAligned s x.2 := by
  obtain ⟨st, t, db', hrun', hres⟩ := voidWrite_open hw a write status kind key
  obtain rfl := Except.ok.inj (hrun'.symm.trans hrun)
  have hroster := voidWrite_holds write (Roster.stable _ _) (Aligned.roster hw) (fun _ _ => trivial) hrun
  rcases hres with hf | ⟨_, _, _, _, _, hcom⟩
  · exact hf.stays hal hroster
  · exact hcom.stays hal hroster

/-- `updateIfPresent`, `singleRemoveIfPresent` and `removeIfPresent`. -/
theorem ifPresent_stays (write : Bytes → Handle → Write) (hw : OpenWith s db) (hal : Aligned s db)
    {status : Option ℤ} {kind : Kind} {len : Option ℕ} {key : Option Bytes} {r : Reply}
    (hrun : s.readOp (ifPresent a (fun status kind key s => s.txWrite a (write key) status kind) kind)
      status kind len key = .ok (r, s')) : StaysAligned s s' := by
  obtain ⟨r', t, db', hrun', hres⟩ := ifPresent_open hw a write status kind len key
  obtain ⟨rfl, rfl⟩ := Prod.mk.inj (Except.ok.inj (hrun'.symm.trans hrun))
  have hroster := ifPresent_holds write (Roster.stable _ _) (Aligned.roster hw) (fun _ _ => trivial) hrun
  rcases hres with hf | ⟨_, _, _, _, _, _, _, _, _, hcom⟩
  · exact hf.stays hal hroster
  · exact hcom.stays hal hroster

theorem putIfAbsent_stays (hw : OpenWith s db) (hal : Aligned s db) {status : Option ℤ} {kind : Kind}
    {key : Option Bytes} {value : Bytes} {x : Option ℤ × StoreImpl}
    (hrun : s.putIfAbsent a status kind key value = .ok x) : StaysAligned s x.2 := by
  obtain ⟨st, t, db', hrun', hres⟩ := putIfAbsent_open hw a status kind key value
  obtain rfl := Except.ok.inj (hrun'.symm.trans hrun)
  have hroster :=
    putIfAbsent_holds (Roster.stable _ _) (Aligned.roster hw) (fun _ _ _ => trivial) hrun
  rcases hres with hf | ⟨_, _, _, _, _, _, hcom⟩
  · exact hf.stays hal hroster
  · exact hcom.stays hal hroster

theorem removeRange_stays (hw : OpenWith s db) (hal : Aligned s db) {status : Option ℤ} {kind : Kind}
    {b e : Option Bytes} {x : Option ℤ × StoreImpl}
    (hrun : s.removeRange a status kind b e = .ok x) : StaysAligned s x.2 := by
  obtain ⟨st, t, db', hrun', hres⟩ := removeRange_open hw a status kind b e
  obtain rfl := Except.ok.inj (hrun'.symm.trans hrun)
  have hroster := removeRange_holds (Roster.stable _ _) (Aligned.roster hw) hrun
  rcases hres with hf | ⟨_, _, _, _, _, _, _, _, hun⟩
  · exact hf.stays hal hroster
  · exact ⟨db', hun.toOpenWith, hal.frame hun.toOpenWith hun.kinds hroster⟩

/-- **Every call but `close` keeps an open store open and its registry aligned**, with every entry. -/
theorem run_aligned {c : Call} {r : Reply} (hw : OpenWith s db) (hal : Aligned s db)
    (hclose : c ≠ .close) (hrun : c.run a s = .ok (r, s')) : StaysAligned s s' := by
  cases c with
  | put status kind key value =>
    obtain ⟨x, hx, heq⟩ := exists_of_map_eq_ok hrun
    cases heq
    exact voidWrite_stays (fun key fam => .put fam key value) hw hal hx
  | remove status kind key =>
    obtain ⟨x, hx, heq⟩ := exists_of_map_eq_ok hrun
    cases heq
    exact voidWrite_stays (fun key fam => .delete fam key) hw hal hx
  | singleRemove status kind key =>
    obtain ⟨x, hx, heq⟩ := exists_of_map_eq_ok hrun
    cases heq
    exact voidWrite_stays (fun key fam => .singleDelete fam key a.undefined) hw hal hx
  | removeRange status kind b e =>
    obtain ⟨x, hx, heq⟩ := exists_of_map_eq_ok hrun
    cases heq
    exact removeRange_stays hw hal hx
  | get status kind len key =>
    obtain ⟨r', hrun', -⟩ := get_open hw a status kind len key
    obtain ⟨rfl, rfl⟩ := Prod.mk.inj (Except.ok.inj (hrun'.symm.trans hrun))
    exact hal.stays hw
  | updateIfPresent status kind len key value =>
    exact ifPresent_stays (fun key fam => .put fam key value) hw hal hrun
  | singleRemoveIfPresent status kind len key =>
    exact ifPresent_stays (fun key fam => .singleDelete fam key a.undefined) hw hal hrun
  | removeIfPresent status kind len key =>
    exact ifPresent_stays (fun key fam => .delete fam key) hw hal hrun
  | putIfAbsent status kind key value =>
    obtain ⟨x, hx, heq⟩ := exists_of_map_eq_ok hrun
    cases heq
    exact putIfAbsent_stays hw hal hx
  | findMinKey status kind len =>
    obtain ⟨r', hrun'⟩ := findKey_open hw a FMap.firstKey status kind len
    obtain ⟨rfl, rfl⟩ := Prod.mk.inj (Except.ok.inj (hrun'.symm.trans hrun))
    exact hal.stays hw
  | findMaxKey status kind len =>
    obtain ⟨r', hrun'⟩ := findKey_open hw a FMap.lastKey status kind len
    obtain ⟨rfl, rfl⟩ := Prod.mk.inj (Except.ok.inj (hrun'.symm.trans hrun))
    exact hal.stays hw
  | syncWAL =>
    obtain ⟨t, ht, heq⟩ := exists_of_map_eq_ok hrun
    cases heq
    obtain ⟨t', db', hrun', hf⟩ := syncWAL_open hw a
    obtain rfl := Except.ok.inj (hrun'.symm.trans ht)
    have hroster := syncWALNoLock_holds (Roster.stable _ _) (Aligned.roster hw) ht
    exact ⟨db', hf.toOpenWith, hal.frame hf.toOpenWith hf.kinds hroster⟩
  | flush | flushNoWait =>
    obtain ⟨t, ht, heq⟩ := exists_of_map_eq_ok hrun
    cases heq
    obtain rfl := Except.ok.inj ((flushNoLock_open hw).symm.trans ht)
    exact hal.stays hw
  | compact status kind =>
    obtain ⟨st, hrun'⟩ := compact_open hw a status kind
    simp only [Call.run, hrun'] at hrun
    cases hrun
    exact hal.stays hw
  | compactAll status =>
    obtain ⟨st, hrun'⟩ := compactAll_open hw a status
    simp only [Call.run, hrun'] at hrun
    cases hrun
    exact hal.stays hw
  | getKindManager status =>
    cases hrun
    have hsame := getKindManager_open hw status
    simp only [hsame]
    exact hal.stays hw
  | getKinds _ | getDefaultKind _ | getOrCreateKind _ _ =>
    exact Site.call_open (l := ⟨_, a, r⟩) rfl hw hal hrun
  | close => exact absurd rfl hclose

end

namespace Site

variable {x y : Site} {e : Event}

/-- The registry that the constructor fills. -/
theorem new_kinds {a : OpenAnswers} {s : StoreImpl} (hl : a.listed = true) (ho : a.opened.isOk = true)
    (hnew : StoreImpl.new a = .ok s) :
    s.kinds = (a.descriptors.zip a.handles).foldl
      (fun kinds e => insertKind kinds e.1 (KindImpl.new e.1 e.2)) [] := by
  have hlist : a.list.isOk = true ∨ a.list.isPathNotFound = true := by
    simpa [OpenAnswers.listed] using hl
  simp only [StoreImpl.new, open_, openDatabase, if_pos hlist, ho, if_true, deref, pure, Except.pure,
    ok_bind, reusableTx] at hnew
  cases hnew
  rfl

/-- The descriptors are the existing families, or the default one if there is no database. -/
theorem descriptors_spec {names : List Bytes} {a : OpenAnswers} (hnames : WellNamed names)
    (ha : Honest names a) (hl : a.listed = true) :
    a.descriptors.Nodup ∧ DefaultCF ∈ a.descriptors ∧ ∀ n ∈ a.descriptors, cStr n = n := by
  have hdefault : ([DefaultCF] : List Bytes).Nodup ∧ DefaultCF ∈ [DefaultCF] ∧
      ∀ n ∈ [DefaultCF], cStr n = n := by
    refine ⟨List.nodup_singleton _, List.mem_singleton_self _, fun n hn => ?_⟩
    rw [List.mem_singleton.mp hn]
    decide
  unfold OpenAnswers.descriptors
  split_ifs with hempty
  · exact hdefault
  · rw [OpenAnswers.listed, Bool.or_eq_true] at hl
    rcases hl with hok | hmissing
    · obtain ⟨hne, hd, hmem⟩ := ha.listed hok
      obtain ⟨-, hdef, hnul⟩ := hnames.resolve_left hne
      exact ⟨hd, (hmem _).mpr hdef, fun n hn => hnul n ((hmem n).mp hn)⟩
    · rw [(ha.missing hmissing).2] at hempty
      exact absurd rfl hempty

/-- **A store that opens has its registry aligned.** -/
theorem new_aligned {names : List Bytes} {a : OpenAnswers} {s : StoreImpl} (hnames : WellNamed names)
    (ha : Honest names a) (hl : a.listed = true) (ho : a.opened.isOk = true)
    (hnew : StoreImpl.new a = .ok s) : ∃ db, s.OpenWith db ∧ Aligned s db := by
  obtain ⟨s', db, hnew', hw, hsame, -⟩ := new_opened hl ho
  obtain rfl := Except.ok.inj (hnew.symm.trans hnew')
  obtain ⟨hlen, hdistinct, hfam, hfresh⟩ := ha.opened ho
  obtain ⟨hd, hdef, hnul⟩ := descriptors_spec hnames ha hl
  have hfst : db.families.map Prod.fst = a.descriptors := by
    rw [hsame.families, hfam, List.map_fst_zip hlen.ge]
  have hsnd : db.families.map Prod.snd = a.handles := by
    rw [hsame.families, hfam, List.map_snd_zip hlen.le]
  refine ⟨db, hw, ?_, ?_, ?_, fun e he => ?_, fun e he => ?_, ?_⟩
  · rw [new_kinds hl ho hnew, hsame.families, hfam]
    refine (foldl_insertKind _ [] (fun _ _ => by simp) ?_).trans (List.nil_append _)
    rw [← hfam, ← hsame.families, hfst]
    exact hd
  · rw [hfst]
    exact hd
  · rw [hsnd]
    exact hdistinct
  · rw [hsame.nextHandle]
    refine hfresh e.2 ?_
    rw [← hsnd]
    exact List.mem_map_of_mem he
  · refine hnul e.1 ?_
    rw [← hfst]
    exact List.mem_map_of_mem he
  · rw [hfst]
    exact hdef

/-- A constructor that returns has opened the database, or it has none. -/
theorem new_cases {names : List Bytes} {a : OpenAnswers} {s : StoreImpl} (hnames : WellNamed names)
    (ha : Honest names a) (hnew : StoreImpl.new a = .ok s) :
    (s.isOpen = false ∧ s.txnDb = none) ∨ ∃ db, s.OpenWith db ∧ Aligned s db := by
  cases hl : a.listed with
  | false =>
    obtain ⟨t, hnew', hopen, hdb, -⟩ := new_listFails hl
    obtain rfl := Except.ok.inj (hnew'.symm.trans hnew)
    exact .inl ⟨hopen, hdb⟩
  | true =>
    cases ho : a.opened.isOk with
    | false =>
      have hfails : a.openFails = true := by simp [OpenAnswers.openFails, hl, ho]
      rw [new_openFails hfails] at hnew
      cases hnew
    | true => exact .inr (new_aligned hnames ha hl ho hnew)

/-- **What one step preserves.** -/
theorem Inv.step (hx : x.Inv) (hstep : Step x e y) : y.Inv := by
  cases hstep with
  | @call s s' names l hc hrun =>
    rcases hx with hclosed | ⟨db, hw, hal, -⟩
    · obtain ⟨hopen, hdb⟩ := call_closed hc hclosed.isOpen hrun
      have hnone : s'.txnDb = none := hdb.trans hclosed.txnDb
      refine .inl ⟨hopen, hnone, ?_⟩
      rw [existing_closed hnone]
      exact hclosed.names
    · obtain ⟨db', hw', hal', -⟩ := call_open hc hw hal hrun
      exact .inr ⟨db', hw', hal', existing_open hw'⟩
  | @close s s' names a d hrun =>
    rcases hx with hclosed | ⟨db, hw, hal, hnames⟩
    · rw [close_closed hclosed.isOpen] at hrun
      cases hrun
      refine .inl ⟨hclosed.isOpen, hclosed.txnDb, ?_⟩
      rw [existing_closed hclosed.txnDb]
      exact hclosed.names
    · rw [close_open hw] at hrun
      cases hrun
      have hnames : names = _ := hnames
      refine .inl ⟨rfl, rfl, ?_⟩
      rw [existing_closed rfl, hnames]
      exact wellNamed_of_aligned hal
  | @reopen s s' names a hclosed ha hrun =>
    have hnames : WellNamed names := by
      rcases hx with hc | ⟨db, hw, -⟩
      · exact hc.names
      · exact absurd (hclosed.symm.trans hw.isOpen) (by decide)
    obtain ⟨hopen, hdb⟩ | ⟨db, hw, hal⟩ := new_cases hnames ha hrun
    · refine .inl ⟨hopen, hdb, ?_⟩
      rw [existing_closed hdb]
      exact hnames
    · exact .inr ⟨db, hw, hal, existing_open hw⟩

theorem Inv.run {es : List Event} (hx : x.Inv) (hrun : Run Step x es y) : y.Inv :=
  hrun.invariant (P := Inv) (fun _ _ _ h hstep => h.step hstep) hx

end Site

/-! ## What the registry is for -/

/-- The registry is a bijection between the names of the existing column families and their handles,
and each entry carries its own name and handle. -/
structure Bijective (s : StoreImpl) (db : Db) : Prop where
  single : (s.kinds.map Prod.fst).Nodup
  names : ∀ name, (∃ k, s.kinds.lookup name = some k) ↔ name ∈ db.families.map Prod.fst
  own : ∀ name k, s.kinds.lookup name = some k →
    k.name_ = name ∧ ∃ h, k.handle_ = some h ∧ (name, h) ∈ db.families
  injective : ∀ name name' k k', s.kinds.lookup name = some k → s.kinds.lookup name' = some k' →
    k.handle_ = k'.handle_ → name = name'
  surjective : ∀ e ∈ db.families, ∃ k, s.kinds.lookup e.1 = some k ∧ k.handle_ = some e.2

/-- Every existing column family is in the list exactly once, as a valid Kind of its own name and
handle. -/
structure Lists (db : Db) (kinds : List Kind) : Prop where
  nodup : kinds.Nodup
  mem : ∀ k, k ∈ kinds ↔ ∃ e ∈ db.families, k = .impl ⟨e.1, some e.2⟩

/-- A call of `getOrCreateKind` that returned the valid Kind `k`. -/
def Label.Gets (l : Label) (name : Bytes) (k : KindImpl) : Prop :=
  (∃ status, l.call = .getOrCreateKind status name) ∧ l.reply.kinds = [.impl k] ∧ k.isValid = true

/-- What a client may expect of the registry of a store that is open on `db`: the bijection, the answers
of the three methods, and that along any further calls on it a name stands for one Kind and two names
for two handles. -/
structure Serves (s : StoreImpl) (db : Db) : Prop extends Bijective s db where
  getOrCreateKind : ∀ (a : Answers) status name, ∃ st kind s',
    s.getOrCreateKind a status name = .ok (st, kind, s') ∧ KindAnswer s status name st kind s'
  getDefaultKind : ∀ status, ∃ kind, s.getDefaultKind status = (assign Status.ok status, kind, s) ∧
    kind.isValid = true ∧ kind.name_ = DefaultCF ∧ s.kinds.lookup DefaultCF = some kind
  getKinds : ∀ status, ∃ kinds, s.getKinds status
    = ({ status := assign Status.ok status, resultLen := some kinds.length, kinds }, s) ∧
      Lists db kinds
  repeated : ∀ ls s', Run (guarded (fun _ l => l.call.onRegistry = true) Step) s ls s' →
    ∀ l ∈ ls, ∀ l' ∈ ls, ∀ name name' k k', l.Gets name k → l'.Gets name' k' →
      (cStr name = cStr name' → k = k') ∧ (cStr name ≠ cStr name' → k.handle_ ≠ k'.handle_)

namespace Aligned

variable {s : StoreImpl} {db : Db}

theorem bijective (h : Aligned s db) : Bijective s db where
  single := by
    rw [h.kinds, List.map_map]
    exact h.names
  names name := by
    rw [← not_iff_not, ← h.lookup_none_iff, Option.eq_none_iff_forall_ne_some, not_exists]
  own name k hl := by
    obtain ⟨hd, hmem, rfl⟩ := h.lookup_iff.mp hl
    exact ⟨rfl, hd, rfl, hmem⟩
  injective name name' k k' hl hl' heq := by
    obtain ⟨hd, hmem, rfl⟩ := h.lookup_iff.mp hl
    obtain ⟨hd', hmem', rfl⟩ := h.lookup_iff.mp hl'
    obtain rfl := Option.some.inj heq
    have hpair := List.inj_on_of_nodup_map h.handles hmem hmem' rfl
    exact congrArg Prod.fst hpair
  surjective e he := ⟨_, h.lookup_iff.mpr ⟨e.2, he, rfl⟩, rfl⟩

/-- The Kinds that `getKinds` lists. -/
theorem map_kinds (h : Aligned s db) :
    (s.kinds.map fun e => Kind.impl e.2) = db.families.map fun e => .impl ⟨e.1, some e.2⟩ := by
  rw [h.kinds, List.map_map]
  refine List.map_congr_left fun e he => ?_
  have hnul := h.nulFree e he
  simp only [Function.comp_apply, entry, KindImpl.new, hnul]

theorem lists (h : Aligned s db) : Lists db (s.kinds.map fun e => .impl e.2) := by
  rw [h.map_kinds]
  constructor
  · refine List.Nodup.map_on ?_ (List.Nodup.of_map _ h.names)
    intro e he e' he' heq
    obtain ⟨hname, hhandle⟩ := KindImpl.mk.inj (Kind.impl.inj heq)
    exact Prod.ext hname (Option.some.inj hhandle)
  · intro k
    rw [List.mem_map]
    constructor
    · rintro ⟨e, he, rfl⟩
      exact ⟨e, he, rfl⟩
    · rintro ⟨e, he, rfl⟩
      exact ⟨e, he, rfl⟩

/-- Along registry calls, every Kind that was handed out is the entry under its name at the end. -/
theorem gets_registered {s' : StoreImpl} {ls : List Label} (h : Aligned s db) (hw : s.OpenWith db)
    (hrun : Run (guarded (fun _ l => l.call.onRegistry = true) Step) s ls s') :
    ∃ db', s'.OpenWith db' ∧ Aligned s' db' ∧ Keeps s s' ∧
      ∀ l ∈ ls, ∀ name k, l.Gets name k → s'.kinds.lookup (cStr name) = some k := by
  induction hrun generalizing db with
  | nil s => exact ⟨db, hw, h, fun _ _ hk => hk, fun l hl => absurd hl (by simp)⟩
  | @cons s t u l ls hstep hrest ih =>
    obtain ⟨db₁, hw₁, h₁, hkeeps₁⟩ := Site.call_open hstep.1 hw h hstep.2
    obtain ⟨db', hw', h', hkeeps, hgets⟩ := ih h₁ hw₁
    refine ⟨db', hw', h', fun n k hk => hkeeps n k (hkeeps₁ n k hk), fun l' hl' name k hgot => ?_⟩
    rcases List.mem_cons.mp hl' with rfl | hl'
    swap
    · exact hgets l' hl' name k hgot
    -- the Kind was entered by this call, and later calls keep it
    obtain ⟨⟨status, hcall⟩, hreply, hv⟩ := hgot
    obtain ⟨st, kind, t', -, hcreate, -, -, hanswer, -⟩ :=
      getOrCreateKind_aligned hw h l'.answers status name
    have hstep' := hstep.2
    simp only [Step, hcall, Call.run, hcreate] at hstep'
    obtain ⟨hr, rfl⟩ := Prod.mk.inj (Except.ok.inj hstep')
    rw [← hr] at hreply
    cases hreply
    cases hanswer with
    | granted _ _ _ hl => exact hkeeps _ _ hl
    | refused _ _ _ hno => exact absurd hv (by simp [hno])

/-- **The registry serves its clients.** -/
theorem serves (h : Aligned s db) (hw : s.OpenWith db) : Serves s db where
  toBijective := h.bijective
  getOrCreateKind a status name := by
    obtain ⟨st, kind, s', -, hrun, -, -, hanswer, -⟩ := getOrCreateKind_aligned hw h a status name
    exact ⟨st, kind, s', hrun, hanswer⟩
  getDefaultKind status := getDefaultKind_aligned hw h status
  getKinds status := by
    refine ⟨s.kinds.map fun e => .impl e.2, ?_, h.lists⟩
    simp only [StoreImpl.getKinds, hw.validateOpen_eq, List.length_map]
  repeated ls s' hrun l hl l' hl' name name' k k' hgot hgot' := by
    obtain ⟨db', -, h', -, hgets⟩ := h.gets_registered hw hrun
    have hk := hgets l hl name k hgot
    have hk' := hgets l' hl' name' k' hgot'
    constructor
    · intro hsame
      rw [hsame] at hk
      exact Option.some.inj (hk.symm.trans hk')
    · intro hne heq
      exact hne (h'.bijective.injective _ _ _ _ hk hk' heq)

end Aligned

/-- **The registry of Kinds over the life of a database.** From any well named database, or none, and
through every run of registry calls, closings and reopenings, with any failures: whenever the store is
open its registry serves its clients, and the names that exist are those of the open database. -/
theorem kinds_registered {x y : Site} {es : List Event} (hx : x.Closed)
    (hrun : Run Site.Step x es y) (hopen : y.store.isOpen = true) :
    ∃ db, y.store.OpenWith db ∧ y.names = db.families.map Prod.fst ∧ Serves y.store db := by
  rcases Site.Inv.run (.inl hx) hrun with hclosed | ⟨db, hw, hal, hnames⟩
  · exact absurd (hclosed.isOpen.symm.trans hopen) (by decide)
  · exact ⟨db, hw, hnames, hal.serves hw⟩

/-- No database yet, and no store object. -/
private def unborn : Site where
  store := { isOpen := false, code := Status.ok, txnDb := none, reusableTx_ := none, kinds := [],
             totalSinceLastSync := 0, lastSync := 0 }
  names := []

private def createA : Label :=
  ⟨.getOrCreateKind (some 5) [65], {}, { status := some 0, kinds := [.impl ⟨[65], some 1⟩] }⟩

/-- The database lists its two families in another order than they were created. -/
private def relisted : OpenAnswers where
  list := { error := none, pathNotFound := false }
  families := [[65], DefaultCF]
  opened := { error := none, pathNotFound := false }
  db := { Db.created with families := [([65], 1), (DefaultCF, 0)], nextHandle := 2 }
  handles := [1, 0]

private def reborn : StoreImpl where
  isOpen := true
  code := Status.ok
  txnDb := some (relisted.db.beginTransaction true none).2
  reusableTx_ := some 0
  kinds := [([65], ⟨[65], some 1⟩), (DefaultCF, DefaultKind)]
  totalSinceLastSync := 0
  lastSync := 0

/-- RocksDB creates the database. -/
theorem honest_created : Honest [] .created where
  listed h := absurd h (by decide)
  missing _ := ⟨rfl, rfl⟩
  opened _ := ⟨rfl, by decide, rfl, by decide⟩

private theorem honest_relisted : Honest [DefaultCF, [65]] relisted where
  listed _ := by
    refine ⟨by decide, by decide, fun n => ?_⟩
    simp only [relisted, List.mem_cons, List.not_mem_nil, or_false]
    exact or_comm
  missing h := absurd h (by decide)
  opened _ := ⟨rfl, by decide, rfl, by decide⟩

/-- A database is created, gets a Kind, is closed and opened again: the registry serves it. -/
theorem kinds_registered_reborn :
    unborn.Closed ∧
      Run Site.Step unborn [.reopen .created, .call createA, .close {}, .reopen relisted]
        ⟨reborn, [[65], DefaultCF]⟩ ∧
      ∃ db, reborn.OpenWith db ∧ [[65], DefaultCF] = db.families.map Prod.fst ∧ Serves reborn db := by
  have hx : unborn.Closed := ⟨rfl, rfl, .inl rfl⟩
  have hcall : StoreImpl.Step .created createA (createA.call.after {} .created) := Call.step_after rfl
  have hclose : (createA.call.after {} .created).close {}
      = .ok ((createA.call.after {} .created).txnDb,
          { createA.call.after {} .created with isOpen := false, kinds := [], txnDb := none }) := rfl
  have hnew : StoreImpl.new relisted = .ok reborn := rfl
  have hrun : Run Site.Step unborn [.reopen .created, .call createA, .close {}, .reopen relisted]
      ⟨reborn, [[65], DefaultCF]⟩ := by
    refine .cons (.reopen rfl honest_created new_created) (.cons (.call rfl hcall) (.cons (.close hclose) ?_))
    exact .single (.reopen rfl honest_relisted hnew)
  exact ⟨hx, hrun, kinds_registered hx hrun rfl⟩

end StoreImpl

end Librocks
