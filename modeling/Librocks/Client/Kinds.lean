import Librocks.Client.Presence
import Librocks.Store.Registry

/-!
# Kinds by name

Reference: `src/client/KVStore.cpp` (`getOrCreateKind`), `src/impl/StoreImpl.cpp`,
`src/impl/KindImpl.cpp`.

A name reaches the store as a C string. Two names of a client are two Kinds, each with a column
family of its own, if no byte of them is NUL; otherwise the name is cut off at its first NUL, and
names that differ only after it are one Kind (`kinds_isolated_iff`).

The registry of the store is aligned with the column families along every run of a client (`Knows`),
so that two entries with different names have different handles. A write goes to the family of its
Kind and a read looks into that of its own. `getKinds` returns all of them in the order of their
names (`getKinds_ordered`).
-/

namespace Librocks

open Rocks

theorem cStr_eq_self_iff {name : Bytes} : cStr name = name ↔ 0 ∉ name := by
  unfold cStr
  rw [List.takeWhile_eq_self_iff]
  constructor
  · intro h hmem
    exact absurd (h 0 hmem) (by decide)
  · intro h b hb
    have hne : b ≠ 0 := by
      rintro rfl
      exact h hb
    simpa using hne

/-! ## Frames -/

namespace StoreImpl

variable {s s' : StoreImpl} {db db' : Db} {a : Answers}

/-- The other families are as they were. -/
def SameElsewhere (h : Handle) (db db' : Db) : Prop := ∀ h', h' ≠ h → db'.data h' = db.data h'

theorem Committed.sameElsewhere {w : Write} (hc : Committed a w s db s' db') :
    SameElsewhere w.handle db db' := by
  intro h' hne
  rw [hc.data]
  exact db.apply_data_of_ne hne

theorem Untouched.sameElsewhere (hu : Untouched s db s' db') (h : Handle) : SameElsewhere h db db' :=
  fun h' _ => congrFun hu.content.data h'

/-- `put` and `remove` through a Kind. -/
theorem voidWrite_elsewhere (write : Bytes → Handle → Write)
    (hwrite : ∀ key fam, (write key fam).handle = fam) (hw : OpenWith s db) {status : Option ℤ}
    {k : KindImpl} {key : Option Bytes} {x : Option ℤ × StoreImpl}
    (hrun : s.voidOp (fun status key s => s.txWrite a (write key) status (.impl k)) status (.impl k) key
      = .ok x) : ∃ db', OpenWith x.2 db' ∧ SameElsewhere k.handle db db' := by
  obtain ⟨st, t, db', hrun', hres⟩ := voidWrite_open hw a write status (.impl k) key
  obtain rfl := Except.ok.inj (hrun'.symm.trans hrun)
  rcases hres with ⟨_, _, _, hu⟩ | ⟨k', key', hk, -, -, hcom⟩
  · exact ⟨db', hu.toOpenWith, hu.sameElsewhere _⟩
  · cases hk
    have helse := hcom.sameElsewhere
    rw [hwrite] at helse
    exact ⟨db', hcom.toOpenWith, helse⟩

/-- `updateIfPresent` through a Kind. -/
theorem ifPresent_elsewhere (write : Bytes → Handle → Write)
    (hwrite : ∀ key fam, (write key fam).handle = fam) (hw : OpenWith s db) {status : Option ℤ}
    {k : KindImpl} {len : Option ℕ} {key : Option Bytes} {x : Reply × StoreImpl}
    (hrun : s.readOp (ifPresent a (fun status kind key s => s.txWrite a (write key) status kind)
      (.impl k)) status (.impl k) len key = .ok x) :
    ∃ db', OpenWith x.2 db' ∧ SameElsewhere k.handle db db' := by
  obtain ⟨r, t, db', hrun', hres⟩ := ifPresent_open hw a write status (.impl k) len key
  obtain rfl := Except.ok.inj (hrun'.symm.trans hrun)
  rcases hres with ⟨_, _, _, hu⟩ | ⟨k', key', _, hk, -, -, -, -, -, hcom⟩
  · exact ⟨db', hu.toOpenWith, hu.sameElsewhere _⟩
  · cases hk
    have helse := hcom.sameElsewhere
    rw [hwrite] at helse
    exact ⟨db', hcom.toOpenWith, helse⟩

theorem putIfAbsent_elsewhere (hw : OpenWith s db) {status : Option ℤ} {k : KindImpl}
    {key : Option Bytes} {value : Bytes} {x : Option ℤ × StoreImpl}
    (hrun : s.putIfAbsent a status (.impl k) key value = .ok x) :
    ∃ db', OpenWith x.2 db' ∧ SameElsewhere k.handle db db' := by
  obtain ⟨st, t, db', hrun', hres⟩ := putIfAbsent_open hw a status (.impl k) key value
  obtain rfl := Except.ok.inj (hrun'.symm.trans hrun)
  rcases hres with ⟨_, _, _, hu⟩ | ⟨k', key', hk, -, -, -, hcom⟩
  · exact ⟨db', hu.toOpenWith, hu.sameElsewhere _⟩
  · cases hk
    exact ⟨db', hcom.toOpenWith, hcom.sameElsewhere⟩

/-- What `get` replies depends on the family of its Kind only. -/
theorem get_congr (hw : OpenWith s db) (hw' : OpenWith s' db') {k : KindImpl}
    (hdata : db'.data k.handle = db.data k.handle) (status : Option ℤ) (len : Option ℕ)
    (key : Option Bytes) :
    (s'.get a status (.impl k) len key).map Prod.fst
      = (s.get a status (.impl k) len key).map Prod.fst := by
  have hget : ∀ st n bs, s'.get_ a st (.impl k) n bs = s.get_ a st (.impl k) n bs := by
    intro st n bs
    simp only [get_, Kind.toKindImpl, hw.deref_eq, hw'.deref_eq, ok_bind, Db.get, hdata]
  rcases key with _ | key
  · rfl
  rcases len with _ | n
  · rfl
  simp only [get, readOp, hw.validateOpen_eq, hw'.validateOpen_eq, hget]
  split_ifs
  · cases s.get_ a (assign Status.ok status) (.impl k) 0 key <;> rfl
  · rfl

/-! ## The registry along a run -/

/-- While the store is open, its registry is aligned and has these entries. -/
def Knows (entries : List (Bytes × KindImpl)) (s : StoreImpl) : Prop :=
  s.isOpen = true → ∃ db, OpenWith s db ∧ Aligned s db ∧
    ∀ e ∈ entries, s.kinds.lookup e.1 = some e.2

theorem Knows.of_closed {entries : List (Bytes × KindImpl)} (h : s.isOpen = false) : Knows entries s :=
  fun hopen => absurd (h.symm.trans hopen) (by decide)

theorem Knows.step {entries : List (Bytes × KindImpl)} {l : Label} (h : Knows entries s)
    (hstep : Step s l s') : Knows entries s' := by
  cases hopen : s.isOpen with
  | false =>
    -- no call opens a store again
    obtain ⟨r, t, hrun, hclosed⟩ := run_closed hopen l.answers l.call
    obtain ⟨-, rfl⟩ := Prod.mk.inj (Except.ok.inj (hrun.symm.trans hstep))
    exact .of_closed hclosed
  | true =>
    obtain ⟨db, hw, hal, hentries⟩ := h hopen
    by_cases hclose : l.call = .close
    · unfold Step at hstep
      rw [hclose, Call.run, close_open hw] at hstep
      obtain ⟨-, rfl⟩ := Prod.mk.inj (Except.ok.inj hstep)
      exact .of_closed rfl
    · obtain ⟨db', hw', hal', hkeeps⟩ := run_aligned hw hal hclose hstep
      exact fun _ => ⟨db', hw', hal', fun e he => hkeeps _ _ (hentries e he)⟩

end StoreImpl

namespace KVStore

variable {kv kv' : KVStore} {a : Answers} {entries : List (Bytes × KindImpl)}

/-- The client has a store that knows the entries, or none. -/
def Knows (entries : List (Bytes × KindImpl)) (kv : KVStore) : Prop :=
  ∀ s, kv.store = some s → s.Knows entries

/-- A client without a store has none after any call that returns. -/
theorem Step.null {l : Call × Answers} (hs : kv.store = none) (hstep : Step kv l kv') : kv' = kv := by
  obtain ⟨c, a⟩ := l
  have hderef : kv.deref = .error .nullDeref := by simp only [deref, hs]
  cases c with
  | close =>
    simp only [Step, Call.run, close, hs] at hstep
    cases hstep
    rfl
  | _ =>
    simp only [Step, Call.run, put, remove, get, updateIfPresent, singleRemove, singleRemoveIfPresent,
      removeIfPresent, putIfAbsent, findMinKey, findMaxKey, compact, compactAll, isOpen, getDefaultKind,
      getOrCreateKind, getKinds, callVoid, callBytes, getKindManager, hderef] at hstep
    cases hstep

theorem Knows.step {l : Call × Answers} (h : Knows entries kv) (hstep : Step kv l kv') :
    Knows entries kv' := by
  cases hs : kv.store with
  | none =>
    rw [hstep.null hs]
    exact h
  | some s =>
    obtain ⟨ls, s', hs', hrun⟩ := hstep.reaches hs
    intro t ht
    obtain rfl := Option.some.inj (hs'.symm.trans ht)
    exact hrun.invariant (fun _ _ _ hk hst => StoreImpl.Knows.step hk hst) (h s hs)

theorem Knows.run {ls : List (Call × Answers)} (h : Knows entries kv) (hrun : Run Step kv ls kv') :
    Knows entries kv' :=
  hrun.invariant (P := Knows entries) (fun _ _ _ hk hstep => hk.step hstep) h

/-- A name that is granted is an entry of an open store from then on. -/
theorem getOrCreateKind_granted {name : Bytes} {k : KindImpl} (h : Knows entries kv)
    (hget : kv.getOrCreateKind a name = .ok (.ok k, kv')) :
    Knows ((cStr name, k) :: entries) kv' ∧ k.name_ = cStr name ∧
      ∃ s, kv'.store = some s ∧ s.isOpen = true := by
  cases hs : kv.store with
  | none =>
    simp only [getOrCreateKind, getKindManager, deref, hs] at hget
    cases hget
  | some s =>
    cases hopen : s.isOpen with
    | false =>
      -- the manager of a closed store is refused
      have hmanager : s.getKindManager (some Status.ok)
          = (some Status.closed, { s with code := Status.closed }) := by
        simp only [StoreImpl.getKindManager, StoreImpl.validateOpen_closed hopen, assign_some]
      have hthrow : orThrow isOk (some Status.closed) () = .error (.new Status.closed "Closed") := rfl
      simp only [getOrCreateKind, getKindManager, deref_eq hs, ok_bind, hmanager, hthrow] at hget
      cases hget
    | true =>
      obtain ⟨db, hw, hal, hentries⟩ := h s hs hopen
      obtain ⟨st, kind, t, db', hgot, hw', hal', hanswer, hkeeps⟩ :=
        StoreImpl.getOrCreateKind_aligned hw hal a (some Status.ok) name
      have hmanager : s.getKindManager (some Status.ok) = (some Status.ok, s) := by
        simp only [StoreImpl.getKindManager, hw.validateOpen_eq, assign_some]
      have hpass : orThrow isOk (some Status.ok) () = .ok () := rfl
      simp only [getOrCreateKind, getKindManager, deref_eq hs, ok_bind, hmanager, hpass, hgot] at hget
      obtain ⟨hret, rfl⟩ := Prod.mk.inj (Except.ok.inj hget)
      obtain ⟨hacc, rfl⟩ := orThrow_eq_ok rfl hret
      cases hanswer with
      | granted _ _ hname hl =>
        refine ⟨fun t' ht' _ => ?_, hname, t, rfl, hw'.isOpen⟩
        obtain rfl := Option.some.inj ht'
        refine ⟨db', hw', hal', fun e he => ?_⟩
        rcases List.mem_cons.mp he with rfl | he
        · exact hl
        · exact hkeeps _ _ (hentries e he)
      | refused c hc hst _ _ =>
        -- the status is thrown
        rw [hst] at hacc
        simp [isOk, statusOf, hc] at hacc

/-! ## Isolation -/

/-- The calls that write through a Kind. -/
def Call.WritesThrough (k : KindImpl) : Call → Prop
  | .put kind _ _ | .remove kind _ | .updateIfPresent kind _ _ | .putIfAbsent kind _ _ => kind = .impl k
  | _ => False

/-- No sequence of writes through the one Kind changes what is read through the other. -/
def Isolated (kv : KVStore) (k k' : KindImpl) : Prop :=
  ∀ ls kv', Run (guarded (fun _ l => l.1.WritesThrough k) Step) kv ls kv' → ∀ (b : Answers) key,
    (kv'.get b (.impl k') key).map Prod.fst = (kv.get b (.impl k') key).map Prod.fst

/-- A write through a Kind leaves every other family as it was. -/
theorem Step.elsewhere {l : Call × Answers} {db : Db} {k : KindImpl} (h : kv.OpenWith db)
    (hthrough : l.1.WritesThrough k) (hstep : Step kv l kv') :
    ∃ db', kv'.OpenWith db' ∧ StoreImpl.SameElsewhere k.handle db db' := by
  obtain ⟨s, hs, hw⟩ := h
  obtain ⟨c, a⟩ := l
  -- what the call of the store has left is what the client has
  have hclient : ∀ {t : StoreImpl}, (∃ db', t.OpenWith db' ∧ StoreImpl.SameElsewhere k.handle db db') →
      ∃ db', OpenWith ⟨some t⟩ db' ∧ StoreImpl.SameElsewhere k.handle db db' := by
    rintro t ⟨db', hw', helse⟩
    exact ⟨db', ⟨t, rfl, hw'⟩, helse⟩
  cases c with
  | put kind key value =>
    obtain rfl : kind = .impl k := hthrough
    obtain ⟨x, hx, rfl⟩ := callVoid_ended hs hstep
    exact hclient
      (StoreImpl.voidWrite_elsewhere (fun key fam => .put fam key value) (fun _ _ => rfl) hw hx)
  | remove kind key =>
    obtain rfl : kind = .impl k := hthrough
    obtain ⟨x, hx, rfl⟩ := callVoid_ended hs hstep
    exact hclient
      (StoreImpl.voidWrite_elsewhere (fun key fam => .delete fam key) (fun _ _ => rfl) hw hx)
  | updateIfPresent kind key value =>
    obtain rfl : kind = .impl k := hthrough
    obtain ⟨x, hx, rfl⟩ := callBytes_ended hs hstep
    exact hclient
      (StoreImpl.ifPresent_elsewhere (fun key fam => .put fam key value) (fun _ _ => rfl) hw hx)
  | putIfAbsent kind key value =>
    obtain rfl : kind = .impl k := hthrough
    obtain ⟨x, hx, rfl⟩ := putIfAbsent_ended hs hstep
    exact hclient (StoreImpl.putIfAbsent_elsewhere hw hx)
  | _ => exact absurd hthrough (by simp [Call.WritesThrough])

theorem run_elsewhere {ls : List (Call × Answers)} {db : Db} {k : KindImpl} (h : kv.OpenWith db)
    (hrun : Run (guarded (fun _ l => l.1.WritesThrough k) Step) kv ls kv') :
    ∃ db', kv'.OpenWith db' ∧ StoreImpl.SameElsewhere k.handle db db' := by
  refine hrun.invariant
    (P := fun kv => ∃ db', OpenWith kv db' ∧ StoreImpl.SameElsewhere k.handle db db')
    ?_ ⟨db, h, fun _ _ => rfl⟩
  rintro kv₁ l kv₂ ⟨db₁, hw₁, helse₁⟩ ⟨hthrough, hstep⟩
  obtain ⟨db₂, hw₂, helse₂⟩ := hstep.elsewhere hw₁ hthrough
  exact ⟨db₂, hw₂, fun h' hne => (helse₂ h' hne).trans (helse₁ h' hne)⟩

theorem get_congr {db db' : Db} {k : KindImpl} (h : kv.OpenWith db) (h' : kv'.OpenWith db')
    (hdata : db'.data k.handle = db.data k.handle) (b : Answers) (key : Option Bytes) :
    (kv'.get b (.impl k) key).map Prod.fst = (kv.get b (.impl k) key).map Prod.fst := by
  obtain ⟨s, hs, hw⟩ := h
  obtain ⟨s', hs', hw'⟩ := h'
  have hget := StoreImpl.get_congr (a := b) hw hw' hdata (some Status.ok) (some 0) key
  simp only [get, callBytes, deref_eq hs, deref_eq hs', ok_bind]
  obtain ⟨r, hr, -⟩ := StoreImpl.get_open hw b (some Status.ok) (.impl k) (some 0) key
  obtain ⟨r', hr', -⟩ := StoreImpl.get_open hw' b (some Status.ok) (.impl k) (some 0) key
  rw [hr, hr'] at hget
  obtain rfl : r' = r := Except.ok.inj hget
  rw [hr, hr']
  rfl

/-- Kinds with different handles are isolated from each other. -/
theorem isolated_of_handle_ne {db : Db} {k k' : KindImpl} (h : kv.OpenWith db)
    (hne : k'.handle ≠ k.handle) : Isolated kv k k' := by
  intro ls kv' hrun b key
  obtain ⟨db', hw', helse⟩ := run_elsewhere h hrun
  exact get_congr h hw' (helse k'.handle hne) b key

/-! ## Names -/

/-- A client's store: opened by the constructor, or by `openStore` and handed to it. -/
inductive Constructed (o : StoreImpl.OpenAnswers) (b : Answers) : KVStore → Prop
  | path {kv : KVStore} (h : KVStore.new o b = .ok (.ok kv)) : Constructed o b kv
  | store {status : Option ℤ} {opened : Opened StoreImpl} (h : openStore o b status = .ok opened) :
      Constructed o b (.ofStore opened.object)

theorem openStore_object {o : StoreImpl.OpenAnswers} {b : Answers} {status : Option ℤ}
    {opened : Opened StoreImpl} (h : openStore o b status = .ok opened) {s : StoreImpl}
    (hs : opened.object = some s) : StoreImpl.new o = .ok s := by
  simp only [openStore] at h
  obtain ⟨impl, hnew, h⟩ := exists_of_bind_eq_ok h
  split_ifs at h
  · cases h
    obtain rfl := Option.some.inj hs
    exact hnew
  · obtain ⟨x, -, h⟩ := exists_of_bind_eq_ok h
    obtain ⟨y, -, h⟩ := exists_of_bind_eq_ok h
    cases h
    cases hs

theorem Constructed.knows {o : StoreImpl.OpenAnswers} {b : Answers} {names : List Bytes}
    (hnames : StoreImpl.Site.WellNamed names) (ho : StoreImpl.Honest names o)
    (h : Constructed o b kv) : Knows [] kv := by
  have hstore : ∀ s, kv.store = some s → StoreImpl.new o = .ok s := by
    intro s hs
    cases h with
    | path h =>
      simp only [KVStore.new] at h
      obtain ⟨opened, hopened, h⟩ := exists_of_bind_eq_ok h
      obtain ⟨-, rfl⟩ := orThrow_eq_ok rfl (Except.ok.inj h)
      exact openStore_object hopened hs
    | store h => exact openStore_object h hs
  intro s hs hopen
  obtain ⟨hclosed, -⟩ | ⟨db, hw, hal⟩ := StoreImpl.Site.new_cases hnames ho (hstore s hs)
  · exact absurd (hclosed.symm.trans hopen) (by decide)
  · exact ⟨db, hw, hal, fun e he => absurd he (by simp)⟩

/-- What a client may expect of the Kinds of two names. -/
structure Separate (kv : KVStore) (n₁ n₂ : Bytes) (k₁ k₂ : KindImpl) : Prop where
  distinct : k₁ ≠ k₂
  name₁ : k₁.name = n₁
  name₂ : k₂.name = n₂
  isolated₁ : Isolated kv k₁ k₂
  isolated₂ : Isolated kv k₂ k₁

/-- Entries with different names have different handles. -/
theorem handle_ne {db : Db} {s : StoreImpl} {n₁ n₂ : Bytes} {k₁ k₂ : KindImpl}
    (hal : StoreImpl.Aligned s db) (h₁ : s.kinds.lookup n₁ = some k₁) (h₂ : s.kinds.lookup n₂ = some k₂)
    (hne : n₁ ≠ n₂) : k₁.handle ≠ k₂.handle := by
  intro heq
  obtain ⟨hd₁, -, rfl⟩ := hal.lookup_iff.mp h₁
  obtain ⟨hd₂, -, rfl⟩ := hal.lookup_iff.mp h₂
  exact hne (hal.bijective.injective _ _ _ _ h₁ h₂ (congrArg some heq))

/-- **Kinds by name.** In every run of a client on a store that was opened, and whatever fails in
it: two different names for which `getOrCreateKind` succeeds have distinct Kinds with these names,
and no sequence of writes through the one changes a read through the other, if and only if neither
name contains a NUL. -/
theorem kinds_isolated_iff {names : List Bytes} {o : StoreImpl.OpenAnswers} {b a₁ a₂ : Answers}
    {kv₀ kv₁ kv₂ kv₃ kv₄ : KVStore} {ls ms : List (Call × Answers)} {n₁ n₂ : Bytes} {k₁ k₂ : KindImpl}
    (hnames : StoreImpl.Site.WellNamed names) (ho : StoreImpl.Honest names o)
    (hnew : Constructed o b kv₀) (hrun₁ : Run Step kv₀ ls kv₁)
    (hget₁ : kv₁.getOrCreateKind a₁ n₁ = .ok (.ok k₁, kv₂)) (hrun₂ : Run Step kv₂ ms kv₃)
    (hget₂ : kv₃.getOrCreateKind a₂ n₂ = .ok (.ok k₂, kv₄)) (hne : n₁ ≠ n₂) :
    Separate kv₄ n₁ n₂ k₁ k₂ ↔ 0 ∉ n₁ ∧ 0 ∉ n₂ := by
  -- both Kinds are entries of the registry at the end, under the names that the store has read
  obtain ⟨hknows₂, hname₁, -⟩ := getOrCreateKind_granted ((hnew.knows hnames ho).run hrun₁) hget₁
  obtain ⟨hknows, hname₂, s, hs, hopen⟩ := getOrCreateKind_granted (hknows₂.run hrun₂) hget₂
  obtain ⟨db, hw, hal, hentries⟩ := hknows s hs hopen
  have hl₂ : s.kinds.lookup (cStr n₂) = some k₂ := hentries (cStr n₂, k₂) (by simp)
  have hl₁ : s.kinds.lookup (cStr n₁) = some k₁ := hentries (cStr n₁, k₁) (by simp)
  have hread₁ : k₁.name = cStr n₁ := by rw [KindImpl.name, hname₁, StoreImpl.cStr_cStr]
  have hread₂ : k₂.name = cStr n₂ := by rw [KindImpl.name, hname₂, StoreImpl.cStr_cStr]
  constructor
  · intro h
    exact ⟨cStr_eq_self_iff.mp (hread₁.symm.trans h.name₁),
      cStr_eq_self_iff.mp (hread₂.symm.trans h.name₂)⟩
  · rintro ⟨hfree₁, hfree₂⟩
    rw [cStr_eq_self_iff.mpr hfree₁] at hl₁ hread₁
    rw [cStr_eq_self_iff.mpr hfree₂] at hl₂ hread₂
    have hhandle : k₁.handle ≠ k₂.handle := handle_ne hal hl₁ hl₂ hne
    refine ⟨fun heq => hhandle (congrArg KindImpl.handle heq), hread₁, hread₂, ?_, ?_⟩
    · exact isolated_of_handle_ne ⟨s, hs, hw⟩ hhandle.symm
    · exact isolated_of_handle_ne ⟨s, hs, hw⟩ hhandle

/-- A client that has just created its database. -/
private def justCreated : KVStore := ⟨some .created⟩

/-- The names A and B, with a write through the first Kind before the second one is created. -/
theorem kinds_isolated_letters :
    ∃ kv₁ kv₂ kv₃ k₁ k₂, justCreated.getOrCreateKind {} [65] = .ok (.ok k₁, kv₁) ∧
      Run Step kv₁ [(.put (.impl k₁) (some [1]) [7], {}), (.getKinds, {})] kv₂ ∧
      kv₂.getOrCreateKind {} [66] = .ok (.ok k₂, kv₃) ∧ Separate kv₃ [65] [66] k₁ k₂ := by
  obtain ⟨kv₁, kv₂, kv₃, k₁, k₂, hget₁, hrun, hget₂⟩ : ∃ kv₁ kv₂ kv₃ k₁ k₂,
      justCreated.getOrCreateKind {} [65] = .ok (.ok k₁, kv₁) ∧
      Run Step kv₁ [(.put (.impl k₁) (some [1]) [7], {}), (.getKinds, {})] kv₂ ∧
      kv₂.getOrCreateKind {} [66] = .ok (.ok k₂, kv₃) :=
    ⟨_, _, _, _, _, rfl, .cons rfl (.single rfl), rfl⟩
  refine ⟨kv₁, kv₂, kv₃, k₁, k₂, hget₁, hrun, hget₂, ?_⟩
  exact (kinds_isolated_iff (.inl rfl) StoreImpl.honest_created (b := {}) (.path rfl) (.nil _) hget₁ hrun
    hget₂ (by decide)).mpr (by decide)

/-- Two names that differ after a NUL: one Kind, called by what comes before it, and what is put
through the first name is read through the second. -/
theorem names_cut_at_nul :
    ∃ kv₁ kv₂ kv₃ k r r', justCreated.getOrCreateKind {} [65, 0, 66] = .ok (.ok k, kv₁) ∧
      kv₁.getOrCreateKind {} [65, 0, 67] = .ok (.ok k, kv₂) ∧ k.name = [65] ∧
      kv₂.get {} (.impl k) (some [1]) = .ok (.ok r, kv₂) ∧
      kv₂.put {} (.impl k) (some [1]) [7] = .ok (.ok (), kv₃) ∧
      kv₃.get {} (.impl k) (some [1]) = .ok (.ok r', kv₃) ∧ r.observe ≠ r'.observe :=
  ⟨_, _, _, _, _, _, rfl, rfl, rfl, rfl, rfl, rfl, by decide⟩

/-! ## The set of all Kinds -/

/-- The Kinds of a set are in the order of their names, and these are C strings. -/
structure Ordered (ks : List KindImpl) : Prop where
  sorted : ks.Pairwise fun k k' => k.name_ < k'.name_
  nulFree : ∀ k ∈ ks, cStr k.name_ = k.name_

theorem lt_iff {k k' : KindImpl} (h : cStr k'.name_ = k'.name_) :
    k.lt k' = true ↔ k.name_ < k'.name_ := by
  rw [KindImpl.lt, KindImpl.name, h, decide_eq_true_iff]

/-- A Kind with a new name goes between those with a smaller and those with a greater one. -/
theorem Ordered.insert {k : KindImpl} {ks : List KindImpl} (h : Ordered ks)
    (hk : cStr k.name_ = k.name_) (hnew : ∀ k' ∈ ks, k'.name_ ≠ k.name_) :
    Ordered (insertSorted k ks) ∧ ∀ x, x ∈ insertSorted k ks ↔ x = k ∨ x ∈ ks := by
  induction ks with
  | nil =>
    refine ⟨⟨List.pairwise_singleton _ _, fun x hx => ?_⟩, fun x => by simp [insertSorted]⟩
    rw [List.mem_singleton.mp hx]
    exact hk
  | cons k' rest ih =>
    obtain ⟨hbelow, hsorted⟩ := List.pairwise_cons.mp h.sorted
    have hk' := h.nulFree k' List.mem_cons_self
    have hrest : Ordered rest := ⟨hsorted, fun x hx => h.nulFree x (List.mem_cons_of_mem k' hx)⟩
    obtain ⟨hord, hmem⟩ := ih hrest fun x hx => hnew x (List.mem_cons_of_mem k' hx)
    unfold insertSorted
    rcases lt_trichotomy k.name_ k'.name_ with hlt | heq | hgt
    · rw [if_pos ((lt_iff hk').mpr hlt)]
      refine ⟨⟨List.pairwise_cons.mpr ⟨fun x hx => ?_, h.sorted⟩, fun x hx => ?_⟩,
        fun x => List.mem_cons⟩
      · rcases List.mem_cons.mp hx with rfl | hx
        · exact hlt
        · exact hlt.trans (hbelow x hx)
      · rcases List.mem_cons.mp hx with rfl | hx
        · exact hk
        · exact h.nulFree x hx
    · exact absurd heq.symm (hnew k' List.mem_cons_self)
    · rw [if_neg fun hlt => lt_asymm hgt ((lt_iff hk').mp hlt), if_pos ((lt_iff hk).mpr hgt)]
      refine ⟨⟨List.pairwise_cons.mpr ⟨fun x hx => ?_, hord.sorted⟩, fun x hx => ?_⟩, fun x => ?_⟩
      · rcases (hmem x).mp hx with rfl | hx
        · exact hgt
        · exact hbelow x hx
      · rcases List.mem_cons.mp hx with rfl | hx
        · exact hk'
        · exact hord.nulFree x hx
      · rw [List.mem_cons, hmem, List.mem_cons]
        exact or_left_comm

/-- The loop of `getKinds`, over Kinds with different names. -/
theorem Ordered.insertAll {set : List KindImpl} (h : Ordered set) (ks : List KindImpl)
    (hks : ∀ k ∈ ks, cStr k.name_ = k.name_) (hnames : (ks.map KindImpl.name_).Nodup)
    (hnew : ∀ k ∈ ks, ∀ k' ∈ set, k'.name_ ≠ k.name_) :
    Ordered (ks.foldl (fun set k => insertSorted k set) set) ∧
      ∀ x, x ∈ ks.foldl (fun set k => insertSorted k set) set ↔ x ∈ set ∨ x ∈ ks := by
  induction ks generalizing set with
  | nil => exact ⟨h, fun x => by simp⟩
  | cons k rest ih =>
    obtain ⟨hnot, hdistinct⟩ := List.nodup_cons.mp hnames
    obtain ⟨hord, hmem⟩ := h.insert (hks k List.mem_cons_self) (hnew k List.mem_cons_self)
    obtain ⟨hall, hmemAll⟩ := ih hord (fun x hx => hks x (List.mem_cons_of_mem k hx)) hdistinct (by
      intro x hx k' hk'
      rcases (hmem k').mp hk' with rfl | hk'
      · intro heq
        exact hnot (heq ▸ List.mem_map_of_mem hx)
      · exact hnew x (List.mem_cons_of_mem k hx) k' hk')
    refine ⟨hall, fun x => ?_⟩
    rw [List.foldl_cons, hmemAll, hmem, List.mem_cons, or_assoc, or_left_comm]

/-- **All Kinds.** On an open store `getKinds` returns the Kinds of the existing column families, each
once and in the order of their names. -/
theorem getKinds_ordered {s : StoreImpl} {db : Db} (hs : kv.store = some s) (hw : s.OpenWith db)
    (hal : StoreImpl.Aligned s db) : ∃ ks, kv.getKinds = .ok (.ok ks, kv) ∧ Ordered ks ∧
      ∀ k, k ∈ ks ↔ ∃ e ∈ db.families, k = ⟨e.1, some e.2⟩ := by
  obtain rfl : kv = ⟨some s⟩ := by
    cases kv
    exact congrArg KVStore.mk hs
  have hlisted : (s.kinds.map fun e => Kind.impl e.2).filterMap Kind.toKindImpl
      = db.families.map fun e => ⟨e.1, some e.2⟩ := by
    rw [hal.map_kinds, List.filterMap_map]
    exact congrFun List.filterMap_eq_map db.families
  have hmanager : s.getKindManager (some Status.ok) = (some Status.ok, s) := by
    simp only [StoreImpl.getKindManager, hw.validateOpen_eq, assign_some]
  have hpass : orThrow isOk (some Status.ok) () = .ok () := rfl
  have hempty : Ordered [] := ⟨List.Pairwise.nil, fun k hk => absurd hk (by simp)⟩
  have hnul : ∀ k ∈ db.families.map fun e => (⟨e.1, some e.2⟩ : KindImpl), cStr k.name_ = k.name_ := by
    intro k hk
    obtain ⟨e, he, rfl⟩ := List.mem_map.mp hk
    exact hal.nulFree e he
  obtain ⟨hord, hmem⟩ := hempty.insertAll (db.families.map fun e => ⟨e.1, some e.2⟩) hnul
    (by rw [List.map_map]; exact hal.names) (fun _ _ k' hk' => absurd hk' (by simp))
  refine ⟨_, ?_, hord, fun k => ?_⟩
  · simp only [getKinds, getKindManager, deref, ok_bind, hmanager, hpass, StoreImpl.getKinds,
      hw.validateOpen_eq, hlisted]
    rfl
  · rw [hmem, List.mem_map]
    simp only [List.not_mem_nil, false_or, eq_comm]

end KVStore

end Librocks
