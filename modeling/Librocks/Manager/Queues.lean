import Librocks.Kueue.Concurrent
import Librocks.Kueue.Confined
import Librocks.Kueue.Fifo
import Librocks.Manager.Get

/-!
# Queues by name, over the life of a database

A database is opened by a manager, its queues are fetched by name and used, the manager is closed and
another one is opened later. `queues_by_name`: whatever happens, in any order and with any failures,
this is a collection of first-in first-out queues, one for each name. A call on one queue changes that
queue only, and nothing else changes any of them; opening, closing and the calls of the manager keep
every message.

Three things are asked of the environment. The seeks of the constructor of a queue do not fail, for it
takes a failed one for an empty Kind. Clients `erase` only keys that `readNext` returned since the
manager was opened, and do not put under the last key there is. RocksDB finds again what was stored
when the database was closed (`Restores`).
-/

namespace Librocks

open Rocks StoreImpl
open Threads (topKey)

/-! ## The abstract collection -/

/-- The same queue, but an empty one may start again at another key. -/
structure Fifo.Renewed (f f' : Fifo) : Prop where
  msgs : f'.msgs = f.msgs
  lo : f.msgs ≠ [] → f'.lo = f.lo

/-- The keys that were read from a queue: those of messages that are gone, and that of the first one. -/
def Fifo.Read (f : Fifo) (key : UInt64) : Prop :=
  ∃ n, key = UInt64.ofNat n ∧ (n < f.lo ∨ n = f.lo ∧ f.msgs ≠ [])

namespace Fifo

variable {f f' : Fifo} {l : KueueImpl.Label} {key : UInt64}

theorem Renewed.refl (f : Fifo) : Renewed f f := ⟨rfl, fun _ => rfl⟩

/-- An empty queue may start again at zero. -/
theorem exists_renewed (f : Fifo) :
    ∃ f', Renewed f f' ∧ (f'.msgs = [] → f'.lo = 0) ∧ f'.top ≤ f.top := by
  by_cases hnil : f.msgs = []
  · exact ⟨⟨0, []⟩, ⟨hnil.symm, fun hno => absurd hnil hno⟩, fun _ => rfl, Nat.zero_le _⟩
  · exact ⟨f, .refl f, fun hno => absurd hno hnil, le_rfl⟩

/-- A key that was read and is the key of the first message belongs to a message. -/
theorem Read.msgs_ne_nil (h : f.Read key) (htop : f.top ≤ topKey) (hkey : key = UInt64.ofNat f.lo) :
    f.msgs ≠ [] := by
  obtain ⟨n, rfl, hlt | ⟨-, hne⟩⟩ := h
  · have hmod : n % 2 ^ 64 = f.lo % 2 ^ 64 := by simpa using congrArg UInt64.toNat hkey
    simp only [top, topKey] at htop
    omega
  · exact hne

theorem Read.step (h : f.Read key) (hstep : f.Step l f') : f'.Read key := by
  obtain ⟨n, rfl, hn⟩ := h
  refine ⟨n, rfl, ?_⟩
  rcases hstep.evolves with ⟨status, v, -, rfl⟩ | ⟨k, -, rfl⟩
  · exact hn.imp_right fun h => ⟨h.1, by simp [push]⟩
  · cases k with
    | zero => rwa [drop_zero]
    | succ k =>
      refine .inl ?_
      simp only [drop]
      omega

/-- The keys that a call returns count as read. -/
theorem Step.read (hstep : f.Step l f') (hkey : key ∈ KueueImpl.returnedKeys l) : f'.Read key := by
  obtain ⟨rfl, hne, rfl⟩ := KueueImpl.returnedKeys_head hstep hkey
  exact ⟨f'.lo, rfl, .inr ⟨rfl, hne⟩⟩

/-- A call that does not use up the last key. -/
theorem Step.top_le (hstep : f.Step l f') (htop : f.top ≤ topKey)
    (hput : ∀ status v, l.call = .put status v → f.top < topKey) : f'.top ≤ topKey := by
  rcases hstep.evolves with ⟨status, v, hc, rfl⟩ | ⟨n, hn, rfl⟩
  · rw [top_push]
    exact hput status v hc
  · rwa [top_drop hn]

end Fifo

/-- The families of the database hold the queues of their names; there are no other messages. -/
structure Shelved (db : Db) (F : Bytes → Fifo) : Prop where
  stored : ∀ e ∈ db.families, Stored e.2 db (F e.1)
  absent : ∀ name, name ∉ db.families.map Prod.fst → (F name).msgs = []
  top_le : ∀ name, (F name).top ≤ topKey

namespace Shelved

variable {db db' : Db} {F : Bytes → Fifo}

theorem top_le_two_pow (h : Shelved db F) (name : Bytes) : (F name).top ≤ 2 ^ 64 :=
  (h.top_le name).trans (by decide)

/-- An empty family holds the queue of a name that had no family. -/
theorem empty (h : Shelved db F) {name : Bytes} (hname : name ∉ db.families.map Prod.fst) {k : Handle}
    (hdata : db'.data k = ∅) : Stored k db' (F name) where
  data := by rw [hdata, h.absent name hname]; rfl
  once key hkey := by rw [hdata] at hkey; exact absurd hkey Finmap.notMem_empty
  top_le := h.top_le_two_pow name

/-- The first key of an empty queue does not matter. -/
theorem renew (h : Shelved db F) {name : Bytes} {f : Fifo} (hf : (F name).Renewed f)
    (htop : f.top ≤ topKey) : Shelved db (Function.update F name f) where
  stored e he := by
    by_cases hne : e.1 = name
    · subst hne
      rw [Function.update_self]
      have hst := h.stored e he
      by_cases hnil : (F e.1).msgs = []
      · refine ⟨?_, hst.once, htop.trans (by decide)⟩
        rw [hst.data, hf.msgs, hnil]
        rfl
      · rwa [show f = F e.1 by
          cases f
          exact congrArg₂ Fifo.mk (hf.lo hnil) hf.msgs]
    · rw [Function.update_of_ne hne]
      exact h.stored e he
  absent := (Function.forall_update_iff F fun name f => name ∉ db.families.map Prod.fst → f.msgs = []).mpr
    ⟨fun hname => hf.msgs.trans (h.absent name hname), fun name' _ => h.absent name'⟩
  top_le := (Function.forall_update_iff F fun _ f => f.top ≤ topKey).mpr
    ⟨htop, fun name' _ => h.top_le name'⟩

/-- Another database with the same families and the same content. -/
theorem congr (h : Shelved db F) (hfam : db'.families = db.families) (hdata : db'.data = db.data)
    (hover : db'.overwritten = db.overwritten) : Shelved db' F where
  stored e he := (h.stored e (hfam ▸ he)).congr hdata hover
  absent name hname := h.absent name (by rwa [hfam] at hname)
  top_le := h.top_le

/-- Another database with the same content by name, in which no family is missing. -/
theorem of_view (h : Shelved db F) (hview : db'.view = db.view) (hnames : (db.families.map Prod.fst).Nodup)
    (hnames' : (db'.families.map Prod.fst).Nodup)
    (hkept : ∀ name ∈ db.families.map Prod.fst, name ∈ db'.families.map Prod.fst) : Shelved db' F where
  stored e he := by
    have hfound := (congrFun hview e.1).symm.trans (view_of_mem hnames' he)
    by_cases hname : e.1 ∈ db.families.map Prod.fst
    · obtain ⟨e', he', hfst⟩ := List.mem_map.mp hname
      rw [← hfst, view_of_mem hnames he'] at hfound
      obtain ⟨hdata, hover⟩ := Prod.mk.inj hfound
      rw [← hfst]
      exact (h.stored e' he').of_eq hdata.symm hover.symm
    · rw [view_of_notMem hname] at hfound
      exact h.empty hname (Prod.mk.inj hfound).1.symm
  absent name hname := h.absent name fun hold => hname (hkept name hold)
  top_le := h.top_le

end Shelved

/-! ## The life of a database -/

/-- A database on disk, as it was last closed, the manager that was last opened on it, and the keys
that each of its queues has returned. -/
structure Depot where
  manager : KueueManagerImpl
  disk : Db
  seen : Bytes → List UInt64

namespace Depot

/-- The calls of the clients, with what they answered, and the life of the database. -/
inductive Event
  | get (l : KueueManagerImpl.Got)
  | call (id : Bytes) (l : KueueImpl.Label)
  | compactAll (status : Option ℤ) (a : Answers)
  | syncWal (status : Option ℤ) (a : Answers)
  | close (a : Answers)
  | reopen (a : OpenAnswers) (b : Answers) (status : Option ℤ)

inductive Step (x : Depot) : Event → Depot → Prop
  | get {l : KueueManagerImpl.Got} {m : KueueManagerImpl} (h : x.manager.GetStep l m) :
      Step x (.get l) { x with manager := m }
  | call {id : Bytes} {l : KueueImpl.Label} {q : KueueImpl} {s : StoreImpl} {m : KueueManagerImpl}
      (hq : x.manager.queues.lookup id = some q) (hs : x.manager.store = some s)
      (ho : (l.call.run l.answers q s).map Prod.fst = .ok l.outcome)
      (h : x.manager.onQueue l.answers id l.call = .ok m) :
      Step x (.call id l) { x with
        manager := m
        seen := Function.update x.seen id (x.seen id ++ KueueImpl.returnedKeys l) }
  | compactAll {status st : Option ℤ} {a : Answers} {m : KueueManagerImpl}
      (h : x.manager.compactAll a status = .ok (st, m)) :
      Step x (.compactAll status a) { x with manager := m }
  | syncWal {status st : Option ℤ} {a : Answers} {m : KueueManagerImpl}
      (h : x.manager.syncWal a status = .ok (st, m)) :
      Step x (.syncWal status a) { x with manager := m }
  | close {a : Answers} {d : Option Db} {m : KueueManagerImpl} (h : x.manager.close a = .ok (d, m)) :
      Step x (.close a) ⟨m, d.getD x.disk, fun _ => []⟩
  | reopen {a : OpenAnswers} {b : Answers} {status : Option ℤ} {r : Opened KueueManagerImpl}
      (hclosed : x.manager.isOpen = false) (ha : Honest (x.disk.families.map Prod.fst) a)
      (hr : Restores x.disk a) (h : openKueueManager a b status = .ok r) :
      Step x (.reopen a b status) { x with manager := r.object.getD { store := none } }

/-- What is asked of the environment and of the clients. -/
structure Polite (x : Depot) (e : Event) : Prop where
  seeks : ∀ l, e = .get l → (l.answers 1).seek = none ∧ (l.answers 2).seek = none
  erase : ∀ id l key, e = .call id l → l.call = .erase key → key ∈ x.seen id
  put : ∀ id l status v q, e = .call id l → l.call = .put status v →
    x.manager.queues.lookup id = some q → q.maxKey ≠ MAX_KEY

end Depot

/-- What the events mean for the queues: a call is a call on the queue of that name, and a queue that is
handed out is as long as it says. -/
def Queues.Step (F : Bytes → Fifo) (e : Depot.Event) (G : Bytes → Fifo) : Prop :=
  match e with
  | .call id l => ∃ f, (F id).Step l f ∧ G = Function.update F id f
  | .get l => ∃ f, (F (cStr l.id)).Renewed f ∧ G = Function.update F (cStr l.id) f ∧
      ∀ q, l.queue = some q → q.isValid_ = true → q.size = Int64.ofInt f.msgs.length
  | _ => G = F

/-! ## Opening -/

/-- The manager that an entry point returns. -/
theorem openKueueManager_cases {a : OpenAnswers} {b : Answers} {status : Option ℤ}
    {r : Opened KueueManagerImpl} (h : openKueueManager a b status = .ok r) :
    r.object = none ∨ (a.listed = true ∧ a.opened.isOk = true ∧
      ∃ s, StoreImpl.new a = .ok s ∧ r.object = some { store := some s }) := by
  cases hl : a.listed with
  | false =>
    obtain ⟨s, hnew, hclosed, -⟩ := new_listFails hl
    obtain ⟨hclose, hdestroy⟩ := release_closed hclosed b
    simp only [openKueueManager, KueueManagerImpl.new, hnew, ok_bind, hclosed, hclose, hdestroy] at h
    cases h
    exact .inl rfl
  | true =>
    cases ho : a.opened.isOk with
    | false =>
      have hfails : a.openFails = true := by simp [OpenAnswers.openFails, hl, ho]
      simp only [openKueueManager, KueueManagerImpl.new, new_openFails hfails] at h
      cases h
    | true =>
      obtain ⟨s, db, hnew, hw, -⟩ := new_opened hl ho
      have hopen : KueueManagerImpl.isOpen { store := some s } = true := hw.isOpen
      simp only [openKueueManager, KueueManagerImpl.new, hnew, ok_bind, hw.isOpen, if_true, pure,
        Except.pure, hopen] at h
      cases h
      exact .inr ⟨rfl, rfl, s, hnew, rfl⟩

/-! ## Building a queue -/

section

variable {s s' : StoreImpl} {db : Db} {aKind aMin aMax : Answers} {id : Bytes} {q : KueueImpl}

/-- The constructor of a queue leaves the store as `getOrCreateKind` did, and the queue has the Kind that
this answered, or none. -/
theorem KueueImpl.new_kind (hw : s.OpenWith db)
    (hnew : KueueImpl.new aKind aMin aMax id s = .ok (q, s')) :
    ∃ st kd, s.getOrCreateKind aKind (some Status.ok) id = .ok (st, kd, s') ∧
      ∀ kd', q.queueKind = some (.impl kd') → kd' = kd ∧ st = some Status.ok := by
  obtain ⟨st, kd, t, db', hkind, hcr⟩ := getOrCreateKind_open hw aKind (some Status.ok) id
  have hw' := hcr.toOpenWith
  simp only [new, getKindManager, hw.validateOpen_eq, assign_some, if_true, hkind, ok_bind] at hnew
  by_cases hgot : st = some Status.ok ∧ kd.isValid = true
  · obtain ⟨rfl, hv⟩ := hgot
    obtain ⟨rMin, hmin⟩ := findKey_open hw' aMin FMap.firstKey (some Status.ok) (.impl kd) 0
    simp only [hv, and_self, if_true, findMinKey, hmin, ok_bind] at hnew
    split_ifs at hnew with hminOk
    · obtain ⟨rMax, hmax⟩ := findKey_open hw' aMax FMap.lastKey rMin.status (.impl kd)
        (rMin.resultLen.getD 0)
      simp only [findMaxKey, hmax, ok_bind] at hnew
      split_ifs at hnew
      · cases hnew
        refine ⟨_, kd, hkind, fun kd' hkd' => ?_⟩
        rw [init_queueKind] at hkd'
        cases hkd'
        exact ⟨rfl, rfl⟩
      · cases hnew
        refine ⟨_, kd, hkind, fun kd' hkd' => ?_⟩
        cases hkd'
        exact ⟨rfl, rfl⟩
    · cases hnew
      refine ⟨_, kd, hkind, fun kd' hkd' => ?_⟩
      cases hkd'
      exact ⟨rfl, rfl⟩
  · simp only [if_neg hgot] at hnew
    cases hnew
    exact ⟨st, kd, hkind, fun kd' hkd' => by cases hkd'⟩

end

/-! ## The representation -/

/-- The members of a queue object on the Kind `kd` show the queue `f`. -/
structure KueueImpl.Shows (q : KueueImpl) (kd : KindImpl) (f : Fifo) : Prop where
  kind : q.queueKind = some (.impl kd)
  minKey : q.minKey = UInt64.ofNat f.lo
  maxKey : q.maxKey = UInt64.ofNat f.top
  count : q.count = Int64.ofInt f.msgs.length

theorem KueueImpl.Rep.shows {kd : KindImpl} {q : KueueImpl} {s : StoreImpl} {f : Fifo}
    (h : Rep kd (q, s) f) : q.Shows kd f :=
  ⟨h.kind, h.minKey, h.maxKey, h.count⟩

namespace Depot

/-- No manager is open, and the database on disk holds the queues. -/
structure Closed (x : Depot) (F : Bytes → Fifo) : Prop where
  isOpen : x.manager.isOpen = false
  queues : x.manager.queues = []
  named : Site.WellNamed (x.disk.families.map Prod.fst)
  shelved : Shelved x.disk F
  seen : ∀ id, x.seen id = []

/-- The manager is open on a database that holds the queues, and those of its queue objects that are
valid show them. -/
structure Running (x : Depot) (F : Bytes → Fifo) (s : StoreImpl) (db : Db) : Prop where
  store : x.manager.store = some s
  openWith : s.OpenWith db
  aligned : Aligned s db
  shelved : Shelved db F
  queues : ∀ id q, x.manager.queues.lookup id = some q → q.isValid_ = true →
    ∃ kd, s.kinds.lookup id = some kd ∧ q.Shows kd (F id)
  seen : ∀ id, ∀ key ∈ x.seen id, (F id).Read key
  unseen : ∀ id, x.manager.queues.lookup id = none → x.seen id = []

def Holds (x : Depot) (F : Bytes → Fifo) : Prop := x.Closed F ∨ ∃ s db, x.Running F s db

variable {x y : Depot} {F : Bytes → Fifo} {s : StoreImpl} {db : Db} {e : Event} {id : Bytes}
  {q : KueueImpl}

/-- A valid queue of an open manager represents what is stored under its name. -/
theorem Running.rep (h : x.Running F s db) (hq : x.manager.queues.lookup id = some q)
    (hv : q.isValid_ = true) :
    ∃ kd, s.kinds.lookup id = some kd ∧ (id, kd.handle) ∈ db.families ∧ KueueImpl.Rep kd (q, s) (F id) := by
  obtain ⟨kd, hkd, hshows⟩ := h.queues id q hq hv
  obtain ⟨hd, hmem, rfl⟩ := h.aligned.lookup_iff.mp hkd
  refine ⟨_, hkd, hmem, { valid := hv, kind := hshows.kind, stored := ?_, minKey := hshows.minKey,
                          maxKey := hshows.maxKey, count := hshows.count }⟩
  exact ⟨db, h.openWith, h.shelved.stored _ hmem⟩

theorem Closed.step (h : x.Closed F) (hs : Step x e y) : ∃ G, Queues.Step F e G ∧ y.Holds G := by
  cases hs with
  | @get l m hget =>
    obtain ⟨rfl, hq, -⟩ := KueueManagerImpl.get_closed h.isOpen hget
    refine ⟨F, ⟨F (cStr l.id), .refl _, (Function.update_eq_self _ _).symm, fun q hno => ?_⟩, .inl h⟩
    rw [hq] at hno
    cases hno
  | call hq =>
    rw [h.queues] at hq
    cases hq
  | compactAll hrun =>
    simp only [KueueManagerImpl.compactAll, KueueManagerImpl.validateOpen, h.isOpen] at hrun
    cases hrun
    exact ⟨F, rfl, .inl h⟩
  | syncWal hrun =>
    simp only [KueueManagerImpl.syncWal, KueueManagerImpl.validateOpen, h.isOpen] at hrun
    cases hrun
    exact ⟨F, rfl, .inl h⟩
  | close hrun =>
    simp only [KueueManagerImpl.close, KueueManagerImpl.close_, h.isOpen] at hrun
    cases hrun
    exact ⟨F, rfl, .inl ⟨h.isOpen, h.queues, h.named, h.shelved, fun _ => rfl⟩⟩
  | reopen _ ha hr hrun =>
    refine ⟨F, rfl, ?_⟩
    rcases openKueueManager_cases hrun with hnone | ⟨hl, ho, s, hnew, hsome⟩
    · refine .inl ⟨?_, ?_, h.named, h.shelved, h.seen⟩
      · rw [hnone]
        rfl
      · rw [hnone]
        rfl
    · obtain ⟨s', db, hnew', hw, hsame, -⟩ := new_opened hl ho
      obtain rfl := Except.ok.inj (hnew.symm.trans hnew')
      obtain ⟨db', hw', hal⟩ := Site.new_aligned h.named ha hl ho hnew
      obtain rfl := hw.db_eq hw'.txnDb
      refine .inr ⟨s, db, ?_⟩
      rw [hsome]
      exact { store := rfl, openWith := hw, aligned := hal
              shelved := h.shelved.of_view (hr.view ha h.named hl ho hsame) h.named.nodup hal.names
                fun name hname => (ha.mem_families h.named hl ho hsame).mpr (.inr hname)
              queues := fun id q hq => absurd hq (by simp)
              seen := fun id key hkey => absurd hkey (by simp [h.seen])
              unseen := fun id _ => h.seen id }

/-- **Fetching a queue** finds the messages under its name. -/
theorem Running.get_step (h : x.Running F s db) {l : KueueManagerImpl.Got} {m : KueueManagerImpl}
    (hseeks : (l.answers 1).seek = none ∧ (l.answers 2).seek = none) (hget : x.manager.GetStep l m) :
    ∃ G, Queues.Step F (.get l) G ∧ Holds { x with manager := m } G := by
  obtain ⟨-, q, hq, ⟨hl, rfl⟩ | ⟨hl, s', hnew, rfl⟩⟩ := hget.cases h.store h.openWith
  · refine ⟨F, ⟨F (cStr l.id), .refl _, (Function.update_eq_self _ _).symm, fun q' hq' hv => ?_⟩,
      .inr ⟨s, db, h⟩⟩
    obtain rfl := Option.some.inj (hq.symm.trans hq')
    obtain ⟨kd, -, -, hrep⟩ := h.rep hl hv
    exact hrep.count
  obtain ⟨st, kd, hgot, hkd⟩ := KueueImpl.new_kind h.openWith hnew
  obtain ⟨db', hw', hview, -⟩ := getOrCreateKind_view h.openWith h.aligned hgot
  obtain ⟨_, _, _, _, hgot', hw'', hal, hanswer, hkeeps⟩ :=
    getOrCreateKind_aligned h.openWith h.aligned (l.answers 0) (some Status.ok) (cStr l.id)
  cases hgot.symm.trans hgot'
  obtain rfl := hw'.db_eq hw''.txnDb
  obtain ⟨f, hf, hzero, htop⟩ := (F (cStr l.id)).exists_renewed
  have hshelved := (h.shelved.of_view hview h.aligned.names hal.names fun _ hname =>
    hkeeps.mem_families h.aligned hal hname).renew hf (htop.trans (h.shelved.top_le _))
  -- a valid queue was built on the Kind of its name
  have hbuilt : q.isValid_ = true → s'.kinds.lookup (cStr l.id) = some kd ∧ q.Shows kd f := by
    intro hv
    obtain ⟨q₁, s₁, -, hnew₁, -, hkind, -⟩ :=
      KueueImpl.new_open h.openWith (l.answers 0) (l.answers 1) (l.answers 2) (cStr l.id)
    obtain ⟨rfl, rfl⟩ := Prod.mk.inj (Except.ok.inj (hnew.symm.trans hnew₁))
    obtain ⟨kd', hkd'⟩ := hkind hv
    obtain ⟨rfl, rfl⟩ := hkd kd' hkd'
    have hlookup : s'.kinds.lookup (cStr l.id) = some kd' := by
      cases hanswer with
      | granted _ _ _ hlookup => rwa [cStr_cStr] at hlookup
      | refused c hc hst => exact absurd (Option.some.inj hst).symm hc
    obtain ⟨hd, hmem, rfl⟩ := hal.lookup_iff.mp hlookup
    have hst : Stored (KindImpl.handle ⟨cStr l.id, some hd⟩) db' f := by
      have hst := hshelved.stored _ hmem
      rwa [Function.update_self] at hst
    have hinit := (KueueImpl.new_built h.openWith hnew hw' hkd').init (.inl hseeks) (.inl hv)
    exact ⟨hlookup, (KueueImpl.init_rep hw' hst hzero hinit hv).1.shows⟩
  have hlast : (x.manager.queues ++ [(cStr l.id, q)]).lookup (cStr l.id) = some q := by
    simp only [List.lookup_append, hl, Option.none_or, List.lookup_cons_self]
  have hothers : ∀ id, id ≠ cStr l.id → (x.manager.queues ++ [(cStr l.id, q)]).lookup id
      = x.manager.queues.lookup id := by
    intro id hne
    simp [List.lookup_append, List.lookup_cons, beq_eq_false_iff_ne.mpr hne]
  refine ⟨Function.update F (cStr l.id) f, ⟨f, hf, rfl, fun q' hq' hv => ?_⟩, .inr ⟨s', db', ?_⟩⟩
  · obtain rfl := Option.some.inj (hq.symm.trans hq')
    exact (hbuilt hv).2.count
  refine { store := rfl, openWith := hw', aligned := hal, shelved := hshelved
           queues := fun id q' hid hv => ?_, seen := fun id key hkey => ?_
           unseen := fun id hid => ?_ }
  · by_cases hne : id = cStr l.id
    · subst hne
      obtain rfl := Option.some.inj (hlast.symm.trans hid)
      rw [Function.update_self]
      exact ⟨kd, hbuilt hv⟩
    · obtain ⟨kd', hkd', hshows⟩ := h.queues id q' ((hothers id hne).symm.trans hid) hv
      rw [Function.update_of_ne hne]
      exact ⟨kd', hkeeps id kd' hkd', hshows⟩
  · by_cases hne : id = cStr l.id
    · subst hne
      have hnone : x.seen (cStr l.id) = [] := h.unseen _ hl
      exact absurd hkey (by simp [hnone])
    · rw [Function.update_of_ne hne]
      exact h.seen id key hkey
  · by_cases hne : id = cStr l.id
    · subst hne
      exact absurd (hlast.symm.trans hid) (by simp)
    · exact h.unseen id ((hothers id hne).symm.trans hid)

/-- The list of queues after one of them was used. -/
theorem lookup_used (queues : List (Bytes × KueueImpl)) (id id' : Bytes) (q' : KueueImpl) :
    (queues.map fun e => if e.1 = id then (id, q') else e).lookup id'
      = if id' = id then (queues.lookup id).map fun _ => q' else queues.lookup id' := by
  induction queues with
  | nil => simp
  | cons e rest ih =>
    obtain ⟨name, p⟩ := e
    rw [List.map_cons]
    by_cases hname : name = id
    · subst hname
      rw [if_pos rfl]
      by_cases hid : id' = name
      · simp [hid]
      · simp only [List.lookup_cons, beq_eq_false_iff_ne.mpr hid, ih, if_neg hid]
    · rw [if_neg hname]
      by_cases hid : id' = id
      · subst hid
        simp only [List.lookup_cons, beq_eq_false_iff_ne.mpr (Ne.symm hname), ih, if_true]
      · simp only [List.lookup_cons, ih, if_neg hid]

/-- Only the family of the queue that was used has changed. -/
theorem Running.shelved_update (h : x.Running F s db) {kd : KindImpl} {s' : StoreImpl} {db' : Db} {f : Fifo}
    (hmem : (id, kd.handle) ∈ db.families) (hc : Confined kd.handle s db s' db')
    (hst : Stored kd.handle db' f) (htop : f.top ≤ topKey) : Shelved db' (Function.update F id f) where
  stored e he := by
    rw [hc.families] at he
    by_cases hname : e.1 = id
    · obtain rfl : e = (id, kd.handle) := List.inj_on_of_nodup_map h.aligned.names he hmem hname
      rwa [Function.update_self]
    · have hne : e.2 ≠ kd.handle := by
        intro heq
        have hsame := List.inj_on_of_nodup_map h.aligned.handles he hmem heq
        exact hname (congrArg Prod.fst hsame)
      rw [Function.update_of_ne hname]
      exact (h.shelved.stored e he).of_eq (hc.data _ hne) (hc.overwritten _ hne)
  absent name hname := by
    rw [hc.families] at hname
    have hne : name ≠ id := by
      rintro rfl
      exact hname (List.mem_map_of_mem hmem)
    rw [Function.update_of_ne hne]
    exact h.shelved.absent name hname
  top_le := (Function.forall_update_iff F fun _ f => f.top ≤ topKey).mpr
    ⟨htop, fun name _ => h.shelved.top_le name⟩

/-- A polite call finds a free key for what it puts, and a message under the key that it erases. -/
theorem Running.admissible (h : x.Running F s db) {l : KueueImpl.Label} (hp : x.Polite (.call id l))
    (hq : x.manager.queues.lookup id = some q) {kd : KindImpl} (hshows : q.Shows kd (F id)) :
    KueueImpl.Admissible l.call (F id) ∧
      ∀ status v, l.call = .put status v → (F id).top < topKey := by
  have hput : ∀ status v, l.call = .put status v → (F id).top < topKey := by
    intro status v hc
    refine lt_of_le_of_ne (h.shelved.top_le id) fun heq => ?_
    refine hp.put id l status v q rfl hc hq ?_
    rw [hshows.maxKey, heq]
    rfl
  refine ⟨⟨fun status v hc => (hput status v hc).trans (by decide), fun key hc hkey => ?_⟩, hput⟩
  exact (h.seen id key (hp.erase id l key rfl hc)).msgs_ne_nil (h.shelved.top_le id) hkey

/-- **Using a queue** keeps to the discipline, and changes nothing else in the store. -/
theorem Running.used (h : x.Running F s db) {l : KueueImpl.Label} (hp : x.Polite (.call id l))
    (hq : x.manager.queues.lookup id = some q) {q' : KueueImpl} {s' : StoreImpl}
    (hcall : KueueImpl.Step (q, s) l (q', s')) :
    ∃ f db', (F id).Step l f ∧ s'.OpenWith db' ∧ Aligned s' db' ∧ s'.kinds = s.kinds ∧
      Shelved db' (Function.update F id f) ∧
      (q'.isValid_ = true → ∃ kd, s.kinds.lookup id = some kd ∧ q'.Shows kd f) := by
  cases hv : q.isValid_ with
  | false =>
    obtain ⟨o, hrun, hstep⟩ := KueueImpl.run_invalid (s := s) hv (F id) l.call l.answers
    obtain ⟨ho, hsame⟩ := Prod.mk.inj (Except.ok.inj (hrun.symm.trans hcall))
    obtain ⟨rfl, rfl⟩ := Prod.mk.inj hsame
    subst ho
    refine ⟨F id, db, hstep, h.openWith, h.aligned, rfl, ?_, fun hv' => ?_⟩
    · rw [Function.update_eq_self]
      exact h.shelved
    · rw [hv] at hv'
      cases hv'
  | true =>
    obtain ⟨kd, hkd, hmem, hrep⟩ := h.rep hq hv
    obtain ⟨hadm, hput⟩ := h.admissible hp hq hrep.shows
    rcases KueueImpl.run_rep hrep l.call l.answers hadm with ⟨hblocked, -⟩ | ⟨o, z, f, hrun, hrep', hstep⟩
    · exact absurd (hblocked.symm.trans hcall) (by simp)
    obtain ⟨rfl, rfl⟩ := Prod.mk.inj (Except.ok.inj (hrun.symm.trans hcall))
    obtain ⟨db', hc⟩ := (KueueImpl.Calls.of_run hrep.getKindRef_eq hcall).confined h.openWith h.aligned
    obtain ⟨db'', hw'', hst⟩ := hrep'.stored
    obtain rfl := hc.toOpenWith.db_eq hw''.txnDb
    refine ⟨f, db', hstep, hc.toOpenWith, hc.toAligned, hc.registry, ?_, fun _ => ⟨kd, hkd, hrep'.shows⟩⟩
    exact h.shelved_update hmem hc hst (hstep.top_le (h.shelved.top_le id) hput)

theorem Running.call_step (h : x.Running F s db) {l : KueueImpl.Label} {m : KueueManagerImpl}
    (hp : x.Polite (.call id l)) (hq : x.manager.queues.lookup id = some q)
    (ho : (l.call.run l.answers q s).map Prod.fst = .ok l.outcome)
    (hrun : x.manager.onQueue l.answers id l.call = .ok m) :
    ∃ G, Queues.Step F (.call id l) G ∧ Holds { x with
      manager := m
      seen := Function.update x.seen id (x.seen id ++ KueueImpl.returnedKeys l) } G := by
  obtain ⟨⟨o, q', s'⟩, hcall, ho⟩ := exists_of_map_eq_ok ho
  obtain rfl : o = l.outcome := ho
  simp only [KueueManagerImpl.onQueue, hq, h.store, hcall, ok_bind] at hrun
  cases hrun
  obtain ⟨f, db', hstep, hw', hal', hkinds, hshelved, hshows⟩ := h.used hp hq hcall
  have hlookup := fun id' => lookup_used x.manager.queues id id' q'
  simp only [hq, Option.map_some] at hlookup
  refine ⟨Function.update F id f, ⟨f, hstep, rfl⟩, .inr ⟨s', db', ?_⟩⟩
  refine { store := rfl, openWith := hw', aligned := hal', shelved := hshelved
           queues := fun id' p hp' hv => ?_, seen := fun id' key hkey => ?_
           unseen := fun id' hnone => ?_ }
  · rw [hkinds]
    replace hp' := (hlookup id').symm.trans hp'
    by_cases hne : id' = id
    · subst hne
      rw [if_pos rfl] at hp'
      obtain rfl := Option.some.inj hp'
      rw [Function.update_self]
      exact hshows hv
    · rw [if_neg hne] at hp'
      rw [Function.update_of_ne hne]
      exact h.queues id' p hp' hv
  · by_cases hne : id' = id
    · subst hne
      rw [Function.update_self]
      simp only [Function.update_self, List.mem_append] at hkey
      rcases hkey with hold | hnew
      · exact (h.seen id' key hold).step hstep
      · exact hstep.read hnew
    · rw [Function.update_of_ne hne]
      simp only [Function.update_of_ne hne] at hkey
      exact h.seen id' key hkey
  · replace hnone := (hlookup id').symm.trans hnone
    by_cases hne : id' = id
    · rw [if_pos hne] at hnone
      cases hnone
    · rw [if_neg hne] at hnone
      simp only [Function.update_of_ne hne]
      exact h.unseen id' hnone

theorem Running.step (h : x.Running F s db) (hp : x.Polite e) (hs : Step x e y) :
    ∃ G, Queues.Step F e G ∧ y.Holds G := by
  have hopen : x.manager.isOpen = true := by
    simp only [KueueManagerImpl.isOpen, h.store, h.openWith.isOpen]
  cases hs with
  | @get l m hget => exact h.get_step (hp.seeks l rfl) hget
  | call hq hstore ho hrun =>
    obtain rfl := Option.some.inj (h.store.symm.trans hstore)
    exact h.call_step hp hq ho hrun
  | @compactAll status st a m hrun =>
    obtain ⟨st', hcompact⟩ := compactAll_open h.openWith a (assign Status.ok status)
    simp only [KueueManagerImpl.compactAll, KueueManagerImpl.validateOpen, hopen, if_true,
      KueueManagerImpl.deref, h.store, ok_bind, hcompact] at hrun
    cases hrun
    exact ⟨F, rfl, .inr ⟨s, db, { h with store := rfl }⟩⟩
  | @syncWal status st a m hrun =>
    obtain ⟨s', db', hsync, hf⟩ := syncWAL_open h.openWith a
    have hroster := syncWALNoLock_holds (Roster.stable _ _) (Aligned.roster h.openWith) hsync
    simp only [KueueManagerImpl.syncWal, KueueManagerImpl.validateOpen, hopen, if_true,
      KueueManagerImpl.deref, h.store, ok_bind, hsync] at hrun
    cases hrun
    have hfam : db'.families = db.families := (hroster db' hf.txnDb).1
    refine ⟨F, rfl, .inr ⟨s', db', { h with
      store := rfl
      openWith := hf.toOpenWith
      aligned := (h.aligned.frame hf.toOpenWith hf.kinds hroster).1
      shelved := h.shelved.congr hfam hf.data hf.overwritten
      queues := ?_ }⟩⟩
    rw [hf.kinds]
    exact h.queues
  | @close a d m hrun =>
    have hmanager : x.manager = ⟨some s, x.manager.queues⟩ := by rw [← h.store]
    rw [hmanager, manager_close_open h.openWith] at hrun
    cases hrun
    refine ⟨F, rfl, .inl ⟨rfl, rfl, Site.wellNamed_of_aligned h.aligned, h.shelved, fun _ => rfl⟩⟩
  | reopen hclosed => exact absurd (hclosed.symm.trans hopen) (by decide)

/-- **What one event does**, whether a manager is open or not. -/
theorem Holds.step (h : x.Holds F) (hp : x.Polite e) (hs : Step x e y) :
    ∃ G, Queues.Step F e G ∧ y.Holds G := by
  rcases h with hclosed | ⟨s, db, hrunning⟩
  · exact hclosed.step hs
  · exact hrunning.step hp hs

/-- The database: the open one, or the one on disk. -/
def content (x : Depot) : Db :=
  if x.manager.isOpen then (x.manager.store.bind fun s => s.txnDb).getD x.disk else x.disk

/-- A call through a queue object returns, or it waits for a message of an empty queue. -/
theorem Running.responds (h : x.Running F s db) {l : KueueImpl.Label} (hp : x.Polite (.call id l))
    (hq : x.manager.queues.lookup id = some q) :
    (∃ m, x.manager.onQueue l.answers id l.call = .ok m) ∨
      (x.manager.onQueue l.answers id l.call = .error .blocked ∧
        ((F id).msgs.length < 2 ^ 63 → (F id).msgs = [])) := by
  simp only [KueueManagerImpl.onQueue, hq, h.store]
  cases hv : q.isValid_ with
  | false =>
    obtain ⟨o, hrun, -⟩ := KueueImpl.run_invalid (s := s) hv (F id) l.call l.answers
    rw [hrun]
    exact .inl ⟨_, rfl⟩
  | true =>
    obtain ⟨kd, hkd, hmem, hrep⟩ := h.rep hq hv
    obtain ⟨hadm, -⟩ := h.admissible hp hq hrep.shows
    rcases KueueImpl.run_rep hrep l.call l.answers hadm with ⟨hblocked, hnil⟩ | ⟨o, z, f, hrun, -⟩
    · rw [hblocked]
      exact .inr ⟨rfl, hnil⟩
    · rw [hrun]
      exact .inl ⟨_, rfl⟩

theorem Holds.shelved (h : x.Holds F) : Shelved x.content F := by
  rcases h with hclosed | ⟨s, db, h⟩
  · rw [content, hclosed.isOpen]
    exact hclosed.shelved
  · have hopen : x.manager.isOpen = true := by
      simp only [KueueManagerImpl.isOpen, h.store, h.openWith.isOpen]
    rw [content, if_pos hopen, h.store, Option.bind_some, h.openWith.txnDb]
    exact h.shelved

/-- **Queues by name.** From a database that holds queues, or none, through every run of openings and
closings, of calls of the managers and of calls on the queues, with any failures but those excluded: the
events are steps of a collection of queues, which the database holds at the end. The queues that the
manager has then are as long as they say, and calls on them return or wait for a message. -/
theorem queues_by_name {es : List Event} (hx : x.Closed F) (hrun : Run (guarded Polite Step) x es y) :
    ∃ G, Run Queues.Step F es G ∧ Shelved y.content G ∧
      ∀ id q, y.manager.queues.lookup id = some q →
        (q.isValid_ = true → q.size = Int64.ofInt (G id).msgs.length) ∧
        ∀ l, y.Polite (.call id l) →
          (∃ m, y.manager.onQueue l.answers id l.call = .ok m) ∨
          (y.manager.onQueue l.answers id l.call = .error .blocked ∧
            ((G id).msgs.length < 2 ^ 63 → (G id).msgs = [])) := by
  obtain ⟨G, hG, hy⟩ := hrun.simulates (R := Holds) (fun _ _ _ _ h hst => h.step hst.1 hst.2) (.inl hx)
  refine ⟨G, hG, hy.shelved, fun id q hq => ?_⟩
  rcases hy with hclosed | ⟨s, db, hrunning⟩
  · rw [hclosed.queues] at hq
    cases hq
  · refine ⟨fun hv => ?_, fun l hp => hrunning.responds hp hq⟩
    obtain ⟨kd, -, -, hrep⟩ := hrunning.rep hq hv
    exact hrep.count

/-! ### An example -/

/-- No database yet. -/
private def vacant : Depot := ⟨{ store := none }, { Db.created with families := [] }, fun _ => []⟩

private def fetch (q : KueueImpl) : Event := .get
  { id := [113], status := some 5, answers := fun _ => {}, st := some 0, queue := some q, object := some 0 }

private def putMessage : KueueImpl.Label :=
  ⟨.put (some 5) [7], fun _ => {}, .reply { status := some 0 }⟩

private def takeMessage : KueueImpl.Label :=
  ⟨.take (some 5) (some 0), fun _ => {}, .reply { status := some 0, valLen := some 1, value := some [7] }⟩

/-- The queue after the put, and the database that is closed then. -/
private def stocked : KueueImpl × StoreImpl := putMessage.call.after putMessage.answers KueueImpl.created

private def closedDb : Db := stocked.2.txnDb.getD Db.created

/-- The database lists its families in another order when it is opened again, with other handles. -/
private def reopened : OpenAnswers where
  list := { error := none, pathNotFound := false }
  families := [[113], DefaultCF]
  opened := { error := none, pathNotFound := false }
  db := { Db.created with
          families := [([113], 5), (DefaultCF, 3)]
          nextHandle := 6
          data := fun h => closedDb.data (if h = 5 then 1 else 0)
          overwritten := fun h => closedDb.overwritten (if h = 5 then 1 else 0) }
  handles := [5, 3]

private def reopenedStore : StoreImpl :=
  match StoreImpl.new reopened with
  | .ok s => s
  | .error _ => .created

private def rebuilt : KueueImpl × StoreImpl :=
  match KueueImpl.new {} {} {} [113] reopenedStore with
  | .ok x => x
  | .error _ => KueueImpl.created

private theorem closed_vacant : vacant.Closed fun _ => ⟨0, []⟩ where
  isOpen := rfl
  queues := rfl
  named := .inl rfl
  shelved := ⟨fun _ he => absurd he List.not_mem_nil, fun _ _ => rfl, fun _ => Nat.zero_le _⟩
  seen _ := rfl

private theorem restores_created : Restores vacant.disk .created := fun _ e he => by
  rw [List.mem_singleton.mp he]
  rfl

private theorem honest_reopened : Honest [DefaultCF, [113]] reopened where
  listed _ := by
    refine ⟨by decide, by decide, fun n => ?_⟩
    simp only [reopened, List.mem_cons, List.not_mem_nil, or_false]
    exact or_comm
  missing h := absurd h (by decide)
  opened _ := ⟨rfl, by decide, rfl, by decide⟩

private theorem restores_reopened : Restores closedDb reopened := fun _ e he => by
  have he' : e ∈ [(([113] : Bytes), 5), (DefaultCF, 3)] := he
  simp only [List.mem_cons, List.not_mem_nil, or_false] at he'
  rcases he' with rfl | rfl <;> rfl

/-- An event that is no call on a queue. -/
private theorem polite_of_manager {x : Depot} {e : Event} (hcall : ∀ id l, e ≠ .call id l)
    (hseeks : ∀ l, e = .get l → (l.answers 1).seek = none ∧ (l.answers 2).seek = none) : x.Polite e :=
  ⟨hseeks, fun id l _ he => absurd he (hcall id l), fun id l _ _ _ he => absurd he (hcall id l)⟩

private theorem polite_fetch {x : Depot} (q : KueueImpl) : x.Polite (fetch q) := by
  refine polite_of_manager (fun id l he => by cases he) fun l he => ?_
  cases he
  exact ⟨rfl, rfl⟩

private def opened : Depot := { vacant with manager := { store := some .created } }

private def fetched : Depot :=
  { vacant with manager := ⟨some KueueImpl.created.2, [([113], KueueImpl.created.1)]⟩ }

private def filled : Depot where
  manager := ⟨some stocked.2, [([113], stocked.1)]⟩
  disk := vacant.disk
  seen := Function.update vacant.seen [113] []

private def shut : Depot := ⟨{ store := none }, closedDb, fun _ => []⟩

private def openedAgain : Depot := { shut with manager := { store := some reopenedStore } }

private def fetchedAgain : Depot := { shut with manager := ⟨some rebuilt.2, [([113], rebuilt.1)]⟩ }

private def emptied : Depot where
  manager := ⟨some (takeMessage.call.after takeMessage.answers rebuilt).2,
    [([113], (takeMessage.call.after takeMessage.answers rebuilt).1)]⟩
  disk := closedDb
  seen := Function.update shut.seen [113] []

private def carried : List Event :=
  [.reopen .created {} (some 5), fetch KueueImpl.created.1, .call [113] putMessage, .close {},
    .reopen reopened {} none, fetch rebuilt.1, .call [113] takeMessage]

/-- A message is put, and taken out by the next manager. -/
theorem queues_by_name_carried :
    vacant.Closed (fun _ => ⟨0, []⟩) ∧ Run (guarded Polite Step) vacant carried emptied ∧
      ∃ G, Run Queues.Step (fun _ => ⟨0, []⟩) carried G ∧ Shelved emptied.content G := by
  have hopen : Step vacant (.reopen .created {} (some 5)) opened :=
    .reopen (x := vacant) rfl honest_created restores_created
      (r := ⟨some 0, some { store := some .created }, none⟩) rfl
  have hfetch : Step opened (fetch KueueImpl.created.1) fetched :=
    .get (x := opened) (m := fetched.manager) ⟨rfl, rfl⟩
  have hput : Step fetched (.call [113] putMessage) filled :=
    .call (x := fetched) (m := filled.manager) rfl rfl rfl rfl
  have hclose : Step filled (.close {}) shut :=
    .close (x := filled) (d := some closedDb) (m := shut.manager) rfl
  have hreopen : Step shut (.reopen reopened {} none) openedAgain :=
    .reopen (x := shut) rfl honest_reopened restores_reopened
      (r := ⟨none, some { store := some reopenedStore }, none⟩) rfl
  have hrefetch : Step openedAgain (fetch rebuilt.1) fetchedAgain :=
    .get (x := openedAgain) (m := fetchedAgain.manager) ⟨rfl, rfl⟩
  have htake : Step fetchedAgain (.call [113] takeMessage) emptied :=
    .call (x := fetchedAgain) (m := emptied.manager) rfl rfl rfl rfl
  have hpolite : fetched.Polite (.call [113] putMessage) := by
    refine ⟨fun l he => (by cases he), fun id l key he hc => ?_, fun id l status v q he _ hq => ?_⟩
    · cases he
      cases hc
    · cases he
      cases hq
      decide
  have hpolite' : fetchedAgain.Polite (.call [113] takeMessage) := by
    refine ⟨fun l he => (by cases he), fun id l key he hc => ?_, fun id l status v q he hc => ?_⟩
    · cases he
      cases hc
    · cases he
      cases hc
  have hrun : Run (guarded Polite Step) vacant carried emptied := by
    refine .cons ⟨polite_of_manager (fun _ _ he => by cases he) fun _ he => (by cases he), hopen⟩ ?_
    refine .cons ⟨polite_fetch _, hfetch⟩ (.cons ⟨hpolite, hput⟩ ?_)
    refine .cons ⟨polite_of_manager (fun _ _ he => by cases he) fun _ he => (by cases he), hclose⟩ ?_
    refine .cons ⟨polite_of_manager (fun _ _ he => by cases he) fun _ he => (by cases he), hreopen⟩ ?_
    exact .cons ⟨polite_fetch _, hrefetch⟩ (.single ⟨hpolite', htake⟩)
  obtain ⟨G, hG, hshelved, -⟩ := queues_by_name closed_vacant hrun
  exact ⟨closed_vacant, hrun, G, hG, hshelved⟩

end Depot

end Librocks
