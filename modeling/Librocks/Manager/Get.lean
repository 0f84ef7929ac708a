import Librocks.Manager.Blind
import Librocks.Store.Registry

/-!
# The queues that a manager hands out

`get` looks an identifier up and builds a queue when there is none. It remembers what it built without
asking whether that is a valid queue, and reports Ok. `gets_usable_iff` says of any sequence of calls,
with any failures of RocksDB, that it hands out usable queues only, one object for an identifier and one
Kind for an object, exactly when every queue that had to be built could be built.
-/

namespace Librocks

open Rocks StoreImpl

namespace KueueManagerImpl

/-- The queue object under an identifier. Objects are numbered in the order in which they were built;
none is deleted before `close`. -/
def object (m : KueueManagerImpl) (id : Bytes) : Option ℕ :=
  m.queues.findIdx? fun e => e.1 == cStr id

/-- A call of `get` with what it answered. -/
structure Got where
  id : Bytes
  status : Option ℤ
  answers : ℕ → Answers
  /-- The status afterwards. -/
  st : Option ℤ
  /-- The members of the returned queue, and which object it is. -/
  queue : Option KueueImpl
  object : Option ℕ

/-- One call of `get`. -/
def GetStep (m : KueueManagerImpl) (l : Got) (m' : KueueManagerImpl) : Prop :=
  m.get l.answers l.status l.id = .ok (l.st, l.queue, m') ∧ l.object = m'.object l.id

/-- If this call has to build a queue, then it can. -/
def CanBuild (m : KueueManagerImpl) (l : Got) : Prop :=
  m.isOpen = true → m.queues.lookup (cStr l.id) = none → ∀ s, m.store = some s →
    KueueImpl.Buildable (l.answers 0) (l.answers 1) (l.answers 2) (cStr l.id) s

/-- What a client may expect of a sequence of calls. A queue that is handed out is valid and comes with
Ok; without one there is another code. The same identifier gives the same object, and different ones
give different objects on Kinds with different handles. -/
structure Usable (ls : List Got) : Prop where
  valid : ∀ l ∈ ls, ∀ q, l.queue = some q → q.isValid_ = true ∧ l.st = assign Status.ok l.status
  null : ∀ l ∈ ls, l.queue = none → ∃ c, c ≠ Status.ok ∧ l.st = assign c l.status
  same : ∀ l ∈ ls, ∀ l' ∈ ls, l.queue ≠ none → l'.queue ≠ none → cStr l.id = cStr l'.id →
    l.object = l'.object ∧ l.queue = l'.queue
  different : ∀ l ∈ ls, ∀ l' ∈ ls, ∀ q q', l.queue = some q → l'.queue = some q' →
    cStr l.id ≠ cStr l'.id → l.object ≠ l'.object ∧
      ∃ k k' : KindImpl, q.queueKind = some (.impl k) ∧ q'.queueKind = some (.impl k') ∧
        k.isValid = true ∧ k'.isValid = true ∧ k.handle_ ≠ k'.handle_

/-- An open manager on a store with an aligned registry, whose queues are valid and sit on the Kinds of
their names. -/
structure Stocked (m : KueueManagerImpl) (s : StoreImpl) (db : Db) : Prop where
  store : m.store = some s
  openWith : s.OpenWith db
  aligned : Aligned s db
  queues : ∀ id q, m.queues.lookup id = some q → q.isValid_ = true ∧
    ∃ k, q.queueKind = some (.impl k) ∧ s.kinds.lookup id = some k

/-- The manager is closed, or stocked. -/
def Inv (m : KueueManagerImpl) : Prop := m.isOpen = false ∨ ∃ s db, Stocked m s db

/-- Entries stay where they are. -/
def Retains (m m' : KueueManagerImpl) : Prop :=
  ∀ id q, m.queues.lookup (cStr id) = some q →
    m'.queues.lookup (cStr id) = some q ∧ m'.object id = m.object id

variable {m m' : KueueManagerImpl} {l : Got}

theorem Stocked.isOpen {s : StoreImpl} {db : Db} (h : Stocked m s db) : m.isOpen = true := by
  simp only [KueueManagerImpl.isOpen, h.store, h.openWith.isOpen]

theorem object_append (m : KueueManagerImpl) (s : Option StoreImpl) (e : Bytes × KueueImpl) {id : Bytes}
    {q : KueueImpl} (hl : m.queues.lookup (cStr id) = some q) :
    object { store := s, queues := m.queues ++ [e] } id = m.object id := by
  have hmem := StoreImpl.mem_of_lookup hl
  have hsome : (m.queues.findIdx? fun e => e.1 == cStr id).isSome = true := by
    rw [List.findIdx?_isSome, List.any_eq_true]
    exact ⟨_, hmem, by simp⟩
  obtain ⟨i, hi⟩ := Option.isSome_iff_exists.mp hsome
  simp only [object, List.findIdx?_append, hi, Option.some_or]

/-- What `get` does to an open manager: it finds the queue, or it builds one. -/
theorem GetStep.cases {s : StoreImpl} {db : Db} (hstore : m.store = some s) (hw : s.OpenWith db)
    (hstep : GetStep m l m') :
    l.st = assign Status.ok l.status ∧ ∃ q, l.queue = some q ∧
      ((m.queues.lookup (cStr l.id) = some q ∧ m' = m) ∨
        (m.queues.lookup (cStr l.id) = none ∧ ∃ s',
          KueueImpl.new (l.answers 0) (l.answers 1) (l.answers 2) (cStr l.id) s = .ok (q, s') ∧
          m' = { store := some s', queues := m.queues ++ [(cStr l.id, q)] })) := by
  obtain ⟨hget, -⟩ := hstep
  have hopen : m.isOpen = true := by simp only [KueueManagerImpl.isOpen, hstore, hw.isOpen]
  cases hl : m.queues.lookup (cStr l.id) with
  | some q =>
    simp only [get, validateOpen, hopen, if_true, hl] at hget
    obtain ⟨hst, hq, rfl⟩ : assign Status.ok l.status = l.st ∧ some q = l.queue ∧ m = m' := by
      simpa using Except.ok.inj hget
    exact ⟨hst.symm, q, hq.symm, .inl ⟨rfl, rfl⟩⟩
  | none =>
    obtain ⟨q, s', hnew, -⟩ := KueueImpl.new_sound hw.sound (l.answers 0) (l.answers 1) (l.answers 2)
      (cStr l.id)
    simp only [get, validateOpen, hopen, if_true, hl, deref, hstore, ok_bind, hnew] at hget
    obtain ⟨hst, hq, rfl⟩ : assign Status.ok l.status = l.st ∧ some q = l.queue ∧ _ = m' := by
      simpa using Except.ok.inj hget
    exact ⟨hst.symm, q, hq.symm, .inr ⟨rfl, s', hnew, rfl⟩⟩

/-- A queue that was built valid sits on the Kind of its name. -/
theorem built_on_kind {s s' : StoreImpl} {db : Db} (h : s.OpenWith db) (hal : Aligned s db)
    {aKind aMin aMax : Answers} {id : Bytes} {q : KueueImpl}
    (hb : KueueImpl.Buildable aKind aMin aMax id s)
    (hnew : KueueImpl.new aKind aMin aMax id s = .ok (q, s')) :
    ∃ db' k, s'.OpenWith db' ∧ Aligned s' db' ∧ StoreImpl.Keeps s s' ∧
      q.queueKind = some (.impl k) ∧ s'.kinds.lookup (cStr id) = some k := by
  obtain ⟨kd, s₁, db₁, hgot, hopen, hmin, hmax, -⟩ := hb
  have hread := KueueImpl.new_read h.sound hgot hopen hmin hmax
  rw [hnew] at hread
  obtain ⟨rfl, rfl⟩ := Prod.mk.inj (Except.ok.inj hread)
  obtain ⟨st, kind, t, db', hcall, hw, hal', hanswer, hkeeps⟩ :=
    getOrCreateKind_aligned h hal aKind (some Status.ok) id
  rw [hgot.call] at hcall
  cases hcall
  refine ⟨db', kd, hw, hal', hkeeps, KueueImpl.init_queueKind _ _ _, ?_⟩
  cases hanswer with
  | granted _ _ _ hl => exact hl
  | refused c hc hst => exact absurd (Option.some.inj hst).symm hc

/-- **What one call does to a stocked manager, if it can build what it has to.** -/
theorem Stocked.step {s : StoreImpl} {db : Db} (h : Stocked m s db) (hcan : CanBuild m l)
    (hstep : GetStep m l m') :
    (∃ s' db', Stocked m' s' db') ∧ Retains m m' ∧ l.st = assign Status.ok l.status ∧
      ∃ q, l.queue = some q ∧ m'.queues.lookup (cStr l.id) = some q := by
  obtain ⟨hst, q, hq, ⟨hl, rfl⟩ | ⟨hl, s', hnew, rfl⟩⟩ := hstep.cases h.store h.openWith
  · exact ⟨⟨s, db, h⟩, fun _ _ hk => ⟨hk, rfl⟩, hst, q, hq, hl⟩
  · have hb := hcan h.isOpen hl s h.store
    obtain ⟨q', s'', hnew', hvalid⟩ := KueueImpl.new_isValid_iff h.openWith.sound (l.answers 0)
      (l.answers 1) (l.answers 2) (cStr l.id)
    obtain ⟨rfl, rfl⟩ := Prod.mk.inj (Except.ok.inj (hnew.symm.trans hnew'))
    obtain ⟨db', k, hw', hal', hkeeps, hkind, hlk⟩ := built_on_kind h.openWith h.aligned hb hnew
    rw [cStr_cStr] at hlk
    have hlast : (m.queues ++ [(cStr l.id, q)]).lookup (cStr l.id) = some q := by
      simp only [List.lookup_append, hl, Option.none_or, List.lookup_cons_self]
    refine ⟨⟨s', db', rfl, hw', hal', fun id q' hid => ?_⟩, fun id q' hid => ⟨?_, ?_⟩, hst, q, hq, hlast⟩
    · -- an old entry, or the one that was appended
      by_cases hsame : id = cStr l.id
      · subst hsame
        obtain rfl := Option.some.inj (hlast.symm.trans hid)
        exact ⟨hvalid.mpr hb, k, hkind, hlk⟩
      · have hold : m.queues.lookup id = some q' := by
          simpa [List.lookup_append, List.lookup_cons, beq_eq_false_iff_ne.mpr hsame] using hid
        obtain ⟨hv, k', hk', hlk'⟩ := h.queues id q' hold
        exact ⟨hv, k', hk', hkeeps id k' hlk'⟩
    · simp only [List.lookup_append, hid, Option.some_or]
    · exact object_append m (some s') _ hid

/-- Conversely, a call that hands out a valid queue could build it. -/
theorem Stocked.canBuild {s : StoreImpl} {db : Db} (h : Stocked m s db) (hstep : GetStep m l m')
    (hv : ∀ q, l.queue = some q → q.isValid_ = true) : CanBuild m l := by
  intro _ hnone t ht
  obtain rfl := Option.some.inj (h.store.symm.trans ht)
  obtain ⟨-, q, hq, ⟨hl, -⟩ | ⟨-, s', hnew, -⟩⟩ := hstep.cases h.store h.openWith
  · rw [hnone] at hl
    cases hl
  · obtain ⟨q', s'', hnew', hvalid⟩ := KueueImpl.new_isValid_iff h.openWith.sound (l.answers 0)
      (l.answers 1) (l.answers 2) (cStr l.id)
    obtain ⟨rfl, rfl⟩ := Prod.mk.inj (Except.ok.inj (hnew.symm.trans hnew'))
    exact hvalid.mp (hv q hq)

/-- A closed manager hands out nothing. -/
theorem get_closed (hclosed : m.isOpen = false) (hstep : GetStep m l m') :
    m' = m ∧ l.queue = none ∧ l.st = assign Status.closed l.status := by
  have hget := hstep.1
  simp only [get, validateOpen, hclosed] at hget
  obtain ⟨hst, hq, rfl⟩ : assign Status.closed l.status = l.st ∧ none = l.queue ∧ m = m' := by
    simpa using Except.ok.inj hget
  exact ⟨rfl, hq.symm, hst.symm⟩

/-! ## Sequences of calls -/

theorem Retains.trans {m₁ m₂ m₃ : KueueManagerImpl} (h₁ : Retains m₁ m₂) (h₂ : Retains m₂ m₃) :
    Retains m₁ m₃ := by
  intro id q hid
  obtain ⟨hid₂, hobj₂⟩ := h₁ id q hid
  obtain ⟨hid₃, hobj₃⟩ := h₂ id q hid₂
  exact ⟨hid₃, hobj₃.trans hobj₂⟩

/-- What a sequence of calls on a stocked manager leaves behind: every queue that was handed out is the
entry under its identifier. -/
theorem Stocked.run {s : StoreImpl} {db : Db} {ls : List Got} (h : Stocked m s db)
    (hrun : Run (guarded CanBuild GetStep) m ls m') :
    (∃ s' db', Stocked m' s' db') ∧ Retains m m' ∧ ∀ l ∈ ls, l.st = assign Status.ok l.status ∧
      ∃ q, l.queue = some q ∧ m'.queues.lookup (cStr l.id) = some q ∧ l.object = m'.object l.id := by
  induction hrun generalizing s db with
  | nil m => exact ⟨⟨s, db, h⟩, fun _ _ hk => ⟨hk, rfl⟩, fun l hl => absurd hl (by simp)⟩
  | @cons m m₁ m₂ l ls hstep _ ih =>
    obtain ⟨⟨s₁, db₁, h₁⟩, hret, hst, q, hq, hl⟩ := h.step hstep.1 hstep.2
    obtain ⟨hend, hret', hall⟩ := ih h₁
    refine ⟨hend, hret.trans hret', fun l' hl' => ?_⟩
    rcases List.mem_cons.mp hl' with rfl | hl'
    · obtain ⟨hl₂, hobj⟩ := hret' _ _ hl
      exact ⟨hst, q, hq, hl₂, hstep.2.2.trans hobj.symm⟩
    · exact hall l' hl'

/-- Two identifiers with entries of their own have entries at two places. -/
theorem object_ne {id id' : Bytes} (hne : cStr id ≠ cStr id') {q : KueueImpl}
    (hl : m.queues.lookup (cStr id) = some q) : m.object id ≠ m.object id' := by
  intro heq
  have hmem := StoreImpl.mem_of_lookup hl
  have hsome : (m.object id).isSome = true := by
    rw [object, List.findIdx?_isSome, List.any_eq_true]
    exact ⟨_, hmem, by simp⟩
  obtain ⟨i, hi⟩ := Option.isSome_iff_exists.mp hsome
  have hi' := heq.symm.trans hi
  obtain ⟨hlt, hname, -⟩ := List.findIdx?_eq_some_iff_getElem.mp hi
  obtain ⟨hlt', hname', -⟩ := List.findIdx?_eq_some_iff_getElem.mp hi'
  exact hne ((beq_iff_eq.mp hname).symm.trans (beq_iff_eq.mp hname'))

/-- The queues of a stocked manager have Kinds with handles of their own. -/
theorem Stocked.kinds_ne {s : StoreImpl} {db : Db} (h : Stocked m s db) {id id' : Bytes} (hne : id ≠ id')
    {q q' : KueueImpl} (hl : m.queues.lookup id = some q) (hl' : m.queues.lookup id' = some q') :
    ∃ k k' : KindImpl, q.queueKind = some (.impl k) ∧ q'.queueKind = some (.impl k') ∧
      k.isValid = true ∧ k'.isValid = true ∧ k.handle_ ≠ k'.handle_ := by
  obtain ⟨-, k, hk, hlk⟩ := h.queues id q hl
  obtain ⟨-, k', hk', hlk'⟩ := h.queues id' q' hl'
  refine ⟨k, k', hk, hk', ?_, ?_, fun heq => ?_⟩
  · obtain ⟨hd, -, rfl⟩ := h.aligned.lookup_iff.mp hlk
    rfl
  · obtain ⟨hd, -, rfl⟩ := h.aligned.lookup_iff.mp hlk'
    rfl
  · exact hne (h.aligned.bijective.injective _ _ _ _ hlk hlk' heq)

theorem Stocked.usable {s : StoreImpl} {db : Db} {ls : List Got} (h : Stocked m s db)
    (hrun : Run (guarded CanBuild GetStep) m ls m') : Usable ls := by
  obtain ⟨⟨s', db', hend⟩, -, hall⟩ := h.run hrun
  constructor
  · intro l hl q hq
    obtain ⟨hst, q', hq', hlookup, -⟩ := hall l hl
    obtain rfl := Option.some.inj (hq'.symm.trans hq)
    exact ⟨(hend.queues _ _ hlookup).1, hst⟩
  · intro l hl hno
    obtain ⟨-, q, hq, -⟩ := hall l hl
    rw [hno] at hq
    cases hq
  · intro l hl l' hl' _ _ hid
    obtain ⟨-, q, hq, hlookup, hobj⟩ := hall l hl
    obtain ⟨-, q', hq', hlookup', hobj'⟩ := hall l' hl'
    rw [hid] at hlookup
    obtain rfl := Option.some.inj (hlookup.symm.trans hlookup')
    refine ⟨?_, hq.trans hq'.symm⟩
    rw [hobj, hobj', object, object, hid]
  · intro l hl l' hl' q q' hq hq' hid
    obtain ⟨-, p, hp, hlookup, hobj⟩ := hall l hl
    obtain ⟨-, p', hp', hlookup', hobj'⟩ := hall l' hl'
    obtain rfl := Option.some.inj (hp.symm.trans hq)
    obtain rfl := Option.some.inj (hp'.symm.trans hq')
    refine ⟨?_, hend.kinds_ne hid hlookup hlookup'⟩
    rw [hobj, hobj']
    exact object_ne hid hlookup

/-- Calls that hand out valid queues only could build what they built. -/
theorem Stocked.guarded_run {s : StoreImpl} {db : Db} {ls : List Got} (h : Stocked m s db)
    (hrun : Run GetStep m ls m') (hv : ∀ l ∈ ls, ∀ q, l.queue = some q → q.isValid_ = true) :
    Run (guarded CanBuild GetStep) m ls m' := by
  induction hrun generalizing s db with
  | nil m => exact .nil m
  | @cons m m₁ m₂ l ls hstep _ ih =>
    have hcan := h.canBuild hstep fun q hq => hv l (List.mem_cons_self ..) q hq
    obtain ⟨⟨s₁, db₁, h₁⟩, -⟩ := h.step hcan hstep
    exact .cons ⟨hcan, hstep⟩ (ih h₁ fun l' hl' => hv l' (List.mem_cons_of_mem _ hl'))

theorem closed_run {ls : List Got} (hclosed : m.isOpen = false) (hrun : Run GetStep m ls m') :
    Run (guarded CanBuild GetStep) m ls m' ∧
      ∀ l ∈ ls, l.queue = none ∧ l.st = assign Status.closed l.status := by
  induction hrun with
  | nil m => exact ⟨.nil m, fun l hl => absurd hl (by simp)⟩
  | @cons m m₁ m₂ l ls hstep _ ih =>
    obtain ⟨rfl, hq, hst⟩ := get_closed hclosed hstep
    obtain ⟨hrest, hall⟩ := ih hclosed
    refine ⟨.cons ⟨fun hopen => absurd (hclosed.symm.trans hopen) (by decide), hstep⟩ hrest,
      fun l' hl' => ?_⟩
    rcases List.mem_cons.mp hl' with rfl | hl'
    · exact ⟨hq, hst⟩
    · exact hall l' hl'

/-- A manager that was just built is closed, or stocked with no queue. -/
theorem inv_new {names : List Bytes} {a : OpenAnswers} {b : Answers} {status st : Option ℤ}
    {left : Option StoreImpl} (hnames : Site.WellNamed names) (ha : Honest names a)
    (hnew : new a b status = .ok (st, m, left)) : m.Inv := by
  cases hl : a.listed with
  | false =>
    obtain ⟨s, hs, hclosed, -⟩ := new_listFails hl
    obtain ⟨hclose, hdestroy⟩ := release_closed hclosed b
    simp only [new, hs, ok_bind, hclosed, hclose, hdestroy] at hnew
    cases hnew
    exact .inl rfl
  | true =>
    cases ho : a.opened.isOk with
    | false =>
      have hfails : a.openFails = true := by simp [OpenAnswers.openFails, hl, ho]
      simp only [new, new_openFails hfails] at hnew
      cases hnew
    | true =>
      obtain ⟨s, db₀, hs, -⟩ := new_opened hl ho
      obtain ⟨db, hw, hal⟩ := Site.new_aligned hnames ha hl ho hs
      simp only [new, hs, ok_bind, hw.isOpen, if_true] at hnew
      cases hnew
      exact .inr ⟨s, db, rfl, hw, hal, fun id q hq => absurd hq (by simp)⟩

/-- **A manager hands out usable queues only, exactly when every queue that has to be built can be
built.** From any database, through every sequence of calls of `get` with any answers of RocksDB. -/
theorem gets_usable_iff {names : List Bytes} {a : OpenAnswers} {b : Answers} {status st : Option ℤ}
    {left : Option StoreImpl} {ls : List Got} (hnames : Site.WellNamed names) (ha : Honest names a)
    (hnew : new a b status = .ok (st, m, left)) (hrun : Run GetStep m ls m') :
    Usable ls ↔ Run (guarded CanBuild GetStep) m ls m' := by
  rcases inv_new hnames ha hnew with hclosed | ⟨s, db, h⟩
  · obtain ⟨hguarded, hall⟩ := closed_run hclosed hrun
    refine iff_of_true ⟨?_, ?_, ?_, ?_⟩ hguarded
    · intro l hl q hq
      rw [(hall l hl).1] at hq
      cases hq
    · intro l hl _
      exact ⟨Status.closed, by decide, (hall l hl).2⟩
    · intro l hl _ _ hq
      exact absurd (hall l hl).1 hq
    · intro l hl _ _ q _ hq
      rw [(hall l hl).1] at hq
      cases hq
  · constructor
    · intro hu
      exact h.guarded_run hrun fun l hl q hq => (hu.valid l hl q hq).1
    · intro hguarded
      exact h.usable hguarded

/-- A manager on a database that was just created. -/
private def fresh : KueueManagerImpl := { store := some StoreImpl.created }

private theorem new_fresh : new .created {} (some 5) = .ok (some 0, fresh, none) := rfl

private def getQueue : Got where
  id := [113]
  status := some 5
  answers := fun _ => {}
  st := some 0
  queue := some KueueImpl.created.1
  object := some 0

private def stockedOnce : KueueManagerImpl where
  store := some KueueImpl.created.2
  queues := [([113], KueueImpl.created.1)]

/-- The same identifier twice, with every call of RocksDB succeeding. -/
theorem gets_usable_iff_twice :
    Run GetStep fresh [getQueue, getQueue] stockedOnce ∧ Usable [getQueue, getQueue] := by
  have hfirst : GetStep fresh getQueue stockedOnce := ⟨rfl, rfl⟩
  have hsecond : GetStep stockedOnce getQueue stockedOnce := ⟨rfl, rfl⟩
  have hrun : Run GetStep fresh [getQueue, getQueue] stockedOnce := .cons hfirst (.single hsecond)
  refine ⟨hrun, (gets_usable_iff (.inl rfl) StoreImpl.honest_created new_fresh hrun).mpr ?_⟩
  refine .cons ⟨fun _ _ s hs => ?_, hfirst⟩ (.single ⟨fun _ hno => absurd hno (by decide), hsecond⟩)
  cases hs
  obtain ⟨q, s', hnew, hiff⟩ := KueueImpl.new_isValid_iff (s := StoreImpl.created) (fun _ => rfl) {} {} {}
    [113]
  obtain rfl := (Prod.mk.inj (Except.ok.inj (hnew.symm.trans KueueImpl.new_created))).1
  exact hiff.mp rfl

/-- `get` while the column family cannot be created: the queue is not valid. -/
private def getBroken : Got where
  id := [113]
  status := some 5
  answers := fun _ => { create := some .ioError }
  st := some 0
  queue := some {}
  object := some 0

private def getAgain : Got := { getBroken with answers := fun _ => {} }

private def stuck : KueueManagerImpl where
  store := some StoreImpl.created
  queues := [([113], {})]

/-- `CreateColumnFamily` fails once. `get` reports Ok and hands out a queue that is not valid; when the
failure has gone, the next `get` reports Ok for the same object, and a put on it answers Invalid. -/
theorem broken_queue_kept :
    Run GetStep fresh [getBroken, getAgain] stuck ∧
      getBroken.st = some Status.ok ∧ getAgain.st = some Status.ok ∧
      (∃ q, getAgain.queue = some q ∧ q.isValid_ = false ∧
        (q.put {} (some 5) [7] StoreImpl.created).map Prod.fst = .ok (some Status.invalid)) ∧
      ¬ Usable [getBroken, getAgain] := by
  have hfirst : GetStep fresh getBroken stuck := ⟨rfl, rfl⟩
  have hsecond : GetStep stuck getAgain stuck := ⟨rfl, rfl⟩
  refine ⟨.cons hfirst (.single hsecond), rfl, rfl, ⟨{}, rfl, rfl, rfl⟩, fun hu => ?_⟩
  have hv := (hu.valid getBroken (by simp) {} rfl).1
  exact absurd hv (by decide)

end KueueManagerImpl

end Librocks
