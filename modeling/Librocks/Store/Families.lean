import Librocks.Store.Registry

/-!
# The content of the families, by name

Reference: `src/impl/StoreImpl.cpp`.

Handles differ from one opening of a database to the next; names do not. `Db.view` reads a database by
the names of its families. A call through a Kind changes what is under one name (`Confined.view`), and
creating a family changes nothing, for it is empty (`getOrCreateKind_view`). If RocksDB finds again what
was stored when the database was closed, then neither does opening it again (`Restores.view`).
-/

namespace Librocks

open Rocks

/-- The content under each name, with the keys that are overwritten; there is none without a family. -/
def Rocks.Db.view (db : Db) (name : Bytes) : Family × (Bytes → Bool) :=
  match db.families.lookup name with
  | some h => (db.data h, db.overwritten h)
  | none => (∅, fun _ => false)

namespace StoreImpl

theorem view_of_mem {db : Db} (hnames : (db.families.map Prod.fst).Nodup) {e : Bytes × Handle}
    (he : e ∈ db.families) : db.view e.1 = (db.data e.2, db.overwritten e.2) := by
  have hl : db.families.lookup e.1 = some e.2 := lookup_of_mem hnames he
  simp only [Db.view, hl]

theorem view_of_notMem {db : Db} {name : Bytes} (hname : name ∉ db.families.map Prod.fst) :
    db.view name = (∅, fun _ => false) := by
  have hl := (lookup_eq_none_iff_notMem db.families name).mpr hname
  simp only [Db.view, hl]

theorem SameContent.view {db db' : Db} (h : SameContent db db') : db'.view = db.view := by
  funext name
  simp only [Db.view, h.families, h.data, h.overwritten]

/-! ## Calls through a Kind -/

/-- `s'` and its database differ from `s` and its own only in the family `h`, and in what is not content.
-/
structure Confined (h : Handle) (s : StoreImpl) (db : Db) (s' : StoreImpl) (db' : Db) : Prop
    extends OpenWith s' db', Aligned s' db' where
  registry : s'.kinds = s.kinds
  families : db'.families = db.families
  data : ∀ h', h' ≠ h → db'.data h' = db.data h'
  overwritten : ∀ h', h' ≠ h → db'.overwritten h' = db.overwritten h'

section

variable {s s' : StoreImpl} {db db' : Db} {h : Handle} {a : Answers}

theorem Confined.refl (hw : OpenWith s db) (hal : Aligned s db) : Confined h s db s db :=
  { hw, hal with registry := rfl, families := rfl, data := fun _ _ => rfl, overwritten := fun _ _ => rfl }

theorem Confined.trans {s'' : StoreImpl} {db'' : Db} (h₁ : Confined h s db s' db')
    (h₂ : Confined h s' db' s'' db'') : Confined h s db s'' db'' :=
  { h₂ with
    registry := h₂.registry.trans h₁.registry
    families := h₂.families.trans h₁.families
    data := fun h' hne => (h₂.data h' hne).trans (h₁.data h' hne)
    overwritten := fun h' hne => (h₂.overwritten h' hne).trans (h₁.overwritten h' hne) }

theorem Untouched.confined (hu : Untouched s db s' db') (hal : Aligned s db) : Confined h s db s' db' := by
  have hroster : Holds (Roster db.families db.nextHandle) s' :=
    .of_some hu.txnDb ⟨hu.content.families, hu.content.nextHandle⟩
  exact { hu.toOpenWith, (hal.frame hu.toOpenWith hu.kinds hroster).1 with
          registry := hu.kinds
          families := hu.content.families
          data := fun h' _ => congrFun hu.content.data h'
          overwritten := fun h' _ => congrFun hu.content.overwritten h' }

theorem Committed.confined {w : Write} (hc : Committed a w s db s' db') (hal : Aligned s db)
    (hroster : Holds (Roster db.families db.nextHandle) s') : Confined w.handle s db s' db' :=
  { hc.toOpenWith, (hal.frame hc.toOpenWith hc.kinds hroster).1 with
    registry := hc.kinds
    families := (hroster db' hc.txnDb).1
    data := fun h' hne => by rw [hc.data]; exact db.apply_data_of_ne hne
    overwritten := fun h' hne => by rw [hc.overwritten]; exact db.apply_overwritten_of_ne hne }

/-- What is under the other names is as it was. -/
theorem Confined.view (hc : Confined h s db s' db') (hal : Aligned s db) {name : Bytes}
    (hmem : (name, h) ∈ db.families) :
    db'.view = Function.update db.view name (db'.data h, db'.overwritten h) := by
  funext n
  by_cases hn : n = name
  · subst hn
    rw [Function.update_self]
    exact view_of_mem hc.toAligned.names (e := (n, h)) (by rwa [hc.families])
  · rw [Function.update_of_ne hn]
    simp only [Db.view, hc.families]
    cases hl : db.families.lookup n with
    | none => rfl
    | some h' =>
      have hne : h' ≠ h := by
        rintro rfl
        exact hn (congrArg Prod.fst (List.inj_on_of_nodup_map hal.handles (mem_of_lookup hl) hmem rfl))
      simp only [hc.data h' hne, hc.overwritten h' hne]

/-! ## Creating a family -/

/-- A family whose entry is kept is still there. -/
theorem Keeps.mem_families (hkeeps : Keeps s s') (hal : Aligned s db) (hal' : Aligned s' db') {name : Bytes}
    (hname : name ∈ db.families.map Prod.fst) : name ∈ db'.families.map Prod.fst := by
  by_contra hgone
  have hl : s.kinds.lookup name ≠ none := fun hno => hal.lookup_none_iff.mp hno hname
  obtain ⟨k, hk⟩ := Option.ne_none_iff_exists'.mp hl
  exact absurd ((hkeeps name k hk).symm.trans (hal'.lookup_none_iff.mpr hgone)) (by simp)

/-- `getOrCreateKind` creates an empty family, or none. -/
theorem getOrCreateKind_view (hw : OpenWith s db) (hal : Aligned s db) {status st : Option ℤ}
    {name : Bytes} {kind : KindImpl} (hrun : s.getOrCreateKind a status name = .ok (st, kind, s')) :
    ∃ db', OpenWith s' db' ∧ db'.view = db.view ∧
      ∀ n, n ∈ db'.families.map Prod.fst →
        n ∈ db.families.map Prod.fst ∨ n = cStr name := by
  simp only [getOrCreateKind, hw.validateOpen_eq] at hrun
  cases hl : s.kinds.lookup (cStr name) with
  | some k =>
    simp only [hl] at hrun
    cases hrun
    exact ⟨db, hw, rfl, fun n hn => .inl hn⟩
  | none =>
    have hnew := hal.lookup_none_iff.mp hl
    simp only [hl, createKind, hw.deref_eq, ok_bind, Db.createColumnFamily, if_neg hnew] at hrun
    cases ha : a.create with
    | some e =>
      simp only [ha] at hrun
      cases hrun
      exact ⟨db, hw, rfl, fun n hn => .inl hn⟩
    | none =>
      simp only [ha] at hrun
      cases hrun
      refine ⟨_, ⟨hw.isOpen, rfl⟩, ?_, fun n hn => ?_⟩
      · funext n
        simp only [Db.view, List.lookup_append]
        cases hn : db.families.lookup n with
        | some h' =>
          have hne : h' ≠ db.nextHandle := (hal.fresh _ (mem_of_lookup hn)).ne
          simp only [Option.some_or, Function.update_of_ne hne]
        | none =>
          by_cases heq : n = cStr name
          · subst heq
            simp only [Option.none_or, List.lookup_cons_self, Function.update_self]
          · simp only [Option.none_or, List.lookup_cons, beq_eq_false_iff_ne.mpr heq, List.lookup_nil]
      · simpa using hn

end

/-! ## Opening a database again -/

theorem Site.WellNamed.nodup {names : List Bytes} (h : Site.WellNamed names) : names.Nodup := by
  rcases h with rfl | ⟨hnodup, -, -⟩
  · exact List.nodup_nil
  · exact hnodup

/-- What RocksDB promises for opening a database again: a family has the content that it had when the
database was closed, and a new one has none. -/
def Restores (disk : Db) (a : OpenAnswers) : Prop :=
  a.opened.isOk = true → ∀ e ∈ a.db.families, (a.db.data e.2, a.db.overwritten e.2) = disk.view e.1

/-- Every family that exists is opened. -/
theorem Honest.mem_descriptors {names : List Bytes} {a : OpenAnswers} (ha : Honest names a)
    (hl : a.listed = true) {name : Bytes} (hname : name ∈ names) : name ∈ a.descriptors := by
  rw [OpenAnswers.listed, Bool.or_eq_true] at hl
  rcases hl with hok | hmissing
  · have hmem := ((ha.listed hok).2.2 name).mpr hname
    rw [OpenAnswers.descriptors, if_neg]
    · exact hmem
    · rw [List.isEmpty_iff]
      exact List.ne_nil_of_mem hmem
  · rw [(ha.missing hmissing).1] at hname
    cases hname

/-- The families of an opened database are those that exist, and the default one. -/
theorem Honest.mem_families {names : List Bytes} {a : OpenAnswers} {db : Db} (ha : Honest names a)
    (hnames : Site.WellNamed names) (hl : a.listed = true) (ho : a.opened.isOk = true)
    (hsame : SameContent a.db db) {name : Bytes} :
    name ∈ db.families.map Prod.fst ↔ name = DefaultCF ∨ name ∈ names := by
  obtain ⟨hlen, -, hfam, -⟩ := ha.opened ho
  rw [hsame.families, hfam, List.map_fst_zip hlen.ge]
  obtain ⟨-, hdefault, -⟩ := Site.descriptors_spec hnames ha hl
  constructor
  · intro hmem
    unfold OpenAnswers.descriptors at hmem
    split_ifs at hmem
    · exact .inl (List.mem_singleton.mp hmem)
    · rw [OpenAnswers.listed, Bool.or_eq_true] at hl
      rcases hl with hok | hmissing
      · exact .inr (((ha.listed hok).2.2 name).mp hmem)
      · rw [(ha.missing hmissing).2] at hmem
        cases hmem
  · rintro (rfl | hold)
    · exact hdefault
    · exact ha.mem_descriptors hl hold

/-- **Opening a database** finds what it was closed with. -/
theorem Restores.view {disk db : Db} {a : OpenAnswers} (hr : Restores disk a)
    (ha : Honest (disk.families.map Prod.fst) a) (hnames : Site.WellNamed (disk.families.map Prod.fst))
    (hl : a.listed = true) (ho : a.opened.isOk = true) (hsame : SameContent a.db db) :
    db.view = disk.view := by
  rw [hsame.view]
  funext name
  cases hn : a.db.families.lookup name with
  | some h =>
    simp only [Db.view, hn]
    exact hr ho (name, h) (mem_of_lookup hn)
  | none =>
    have hnot := (lookup_eq_none_iff_notMem _ _).mp hn
    rw [view_of_notMem hnot, view_of_notMem]
    intro hold
    rw [← hsame.families] at hnot
    exact hnot ((ha.mem_families hnames hl ho hsame).mpr (.inr hold))

end StoreImpl

end Librocks
