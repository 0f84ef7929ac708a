import Librocks.Kueue.Concurrent

/-!
# The life of a queue

Reference: `include/impl/KueueImpl.h`, `include/rocksdb/db.h`.

The messages of a queue outlive the objects they are put and taken with. In the life of a queue one
object follows the other: each is built on what the Kind holds, and used by any number of threads, up to
any step. `log` lists the writes to the Kind that were committed, whatever they are, and `past` is the
record of the former objects.

RocksDB defines `SingleDelete` only for a key that exists, was put once since its last `SingleDelete`, and
is never removed in another way. The queue uses keys again, after a put that failed and after it was
drained and built anew. `single_delete_discipline`: it keeps to the rule all the same.
-/

namespace Librocks

open Rocks

/-! ## Logs -/

/-- How often a key was put since its last `SingleDelete`. -/
def putsSince (key : Bytes) (log : List Write) : ℕ :=
  log.foldl (fun n w => match w with
    | .put _ k _ => if k = key then n + 1 else n
    | .singleDelete _ k _ => if k = key then 0 else n
    | .delete .. | .deleteRange .. => n) 0

@[simp] theorem putsSince_put (key : Bytes) (log : List Write) (h : Handle) (k v : Bytes) :
    putsSince key (log ++ [.put h k v]) = putsSince key log + if k = key then 1 else 0 := by
  rw [putsSince, List.foldl_append]
  show (if k = key then putsSince key log + 1 else putsSince key log) = _
  split_ifs <;> rfl

@[simp] theorem putsSince_singleDelete (key : Bytes) (log : List Write) (h : Handle) (k : Bytes)
    (undefined : Option Bytes) :
    putsSince key (log ++ [.singleDelete h k undefined]) = if k = key then 0 else putsSince key log := by
  rw [putsSince, List.foldl_append]
  rfl

/-- A write as the rule for `SingleDelete` has it, to a Kind with this content and this log. -/
def Rocks.Write.Proper (content : Family) (log : List Write) : Write → Prop
  | .put _ key _ => key ∉ content
  | .singleDelete _ key _ => key ∈ content ∧ putsSince key log = 1
  | .delete .. | .deleteRange .. => False

/-- A write that is neither a `Delete` nor a `DeleteRange`. -/
def Rocks.Write.OfQueue : Write → Prop
  | .put .. | .singleDelete .. => True
  | .delete .. | .deleteRange .. => False

theorem Rocks.Write.Proper.ofQueue {content : Family} {log : List Write} {w : Write}
    (h : w.Proper content log) : w.OfQueue := by
  cases w <;> first | exact trivial | exact h

namespace Threads

variable {T : Type}

/-- What the objects of a queue have recorded. -/
structure Record (T : Type) where
  puts : List Bytes := []
  removals : List (Removed T) := []
  returns : List (Return T) := []

namespace Shared

/-- The Kind of the queue. -/
def kind (sh : Shared T) : Option KindImpl := sh.queue.queueKind.bind Kind.toKindImpl

/-- What the Kind holds. -/
def content (sh : Shared T) : Family :=
  match sh.store.txnDb, sh.kind with
  | some db, some kd => db.data kd.handle
  | _, _ => ∅

/-- The writes that the database has logged. -/
def wal (sh : Shared T) : List Write :=
  match sh.store.txnDb with
  | some db => db.wal
  | none => []

/-- The writes to the Kind that were committed between two states. -/
def committed (sh sh' : Shared T) : List Write :=
  (sh'.wal.drop sh.wal.length).filter fun w => decide (sh.kind.map KindImpl.handle = some w.handle)

/-- The record continues one that was begun before. -/
def after (past : Record T) (sh : Shared T) : Shared T :=
  { sh with
    puts := past.puts ++ sh.puts
    removals := past.removals ++ sh.removals
    returns := past.returns ++ sh.returns }

variable {sh sh' : Shared T} {kd : KindImpl} {db db' : Db}

theorem kind_eq (hkind : sh.queue.queueKind = some (.impl kd)) : sh.kind = some kd := by
  rw [kind, hkind]
  rfl

theorem content_eq (hopen : sh.store.OpenWith db) (hkind : sh.queue.queueKind = some (.impl kd)) :
    sh.content = db.data kd.handle := by
  simp only [content, hopen.txnDb, kind_eq hkind]

theorem committed_eq (hopen : sh.store.OpenWith db) (hopen' : sh'.store.OpenWith db')
    (hkind : sh.queue.queueKind = some (.impl kd)) {ws : List Write} (hwal : db'.wal = db.wal ++ ws) :
    sh.committed sh' = ws.filter fun w => decide (kd.handle = w.handle) := by
  simp only [committed, wal, hopen.txnDb, hopen'.txnDb, hwal, List.drop_left, kind_eq hkind,
    Option.map_some, Option.some.injEq]

end Shared

/-- The objects of a queue: the record of the former ones, the present one with its threads, and the
writes to the Kind that were committed from the first one on. -/
structure Life (T : Type) where
  past : Record T := {}
  state : State T
  log : List Write := []

/-- `q` was built on the Kind of `id`, with reads that succeeded. No write to the Kind waits in a
transaction. -/
structure Opened (id : Bytes) (q : KueueImpl) (s : StoreImpl) (kd : KindImpl) (db : Db) : Prop
    extends s.OpenWith db where
  built : ∃ s₀ db₀ aKind aMin aMax, s₀.OpenWith db₀ ∧
    KueueImpl.new aKind aMin aMax id s₀ = .ok (q, s) ∧
    (aMin.iterator = true ∧ aMin.seek = none) ∧ (aMax.iterator = true ∧ aMax.seek = none)
  kind : q.queueKind = some (.impl kd)
  pending : StoreImpl.Pending (fun w => w.handle ≠ kd.handle) db

/-- What happens to a queue: a step of a thread, or a new object. -/
inductive Happening (T : Type)
  | act (l : Label T)
  | reopen (q : KueueImpl) (s : StoreImpl)

namespace Life

/-- The record of all objects. -/
def record (x : Life T) : Record T where
  puts := x.past.puts ++ x.state.shared.puts
  removals := x.past.removals ++ x.state.shared.removals
  returns := x.past.returns ++ x.state.shared.returns

/-- The present object with the record of all. -/
def whole (x : Life T) : State T := ⟨x.state.shared.after x.past, x.state.pc⟩

/-- The first object. -/
def start (T : Type) (q : KueueImpl) (s : StoreImpl) : Life T := { state := State.start T q s }

variable [DecidableEq T]

/-- A thread takes a step, or the database is closed and opened again and an object is built on the Kind,
which holds what it held before. Its handle may be another one. -/
inductive Step (id : Bytes) : Life T → Happening T → Life T → Prop
  | act {x : Life T} {l : Label T} {y : State T} (h : Threads.Step x.state l y) :
      Step id x (.act l) { x with state := y, log := x.log ++ x.state.shared.committed y.shared }
  | reopen {x : Life T} {q : KueueImpl} {s : StoreImpl} {kd kd' : KindImpl} {db db' : Db}
      (hopen : x.state.shared.store.OpenWith db)
      (hkind : x.state.shared.queue.queueKind = some (.impl kd)) (hnew : Opened id q s kd' db')
      (hdata : db'.data kd'.handle = db.data kd.handle)
      (hover : db'.overwritten kd'.handle = db.overwritten kd.handle) :
      Step id x (.reopen q s) { past := x.record, state := State.start T q s, log := x.log }

omit [DecidableEq T] in
/-- What the clients keep to: `maxKey` does not wrap around, and `erase` gets only keys that some
`readNext` on the same object returned. -/
def Orderly (x : Life T) : Happening T → Prop
  | .act l => Threads.Orderly x.state l
  | .reopen .. => True

/-- The queue keeps to the rule for `SingleDelete`. -/
structure Disciplined (id : Bytes) (x : Life T) : Prop where
  /-- A put that is about to be issued has a free key. -/
  puts : ∀ t state v key, x.state.pc t = .putStore state v key →
    putU64BE key ∉ x.state.shared.content
  /-- What the next step commits. -/
  commits : ∀ e y, Step id x e y → ∀ w ∈ y.log.drop x.log.length,
    w.Proper x.state.shared.content x.log
  /-- No other kind of delete was committed, and none waits for its commit. -/
  issued : ∀ w ∈ x.log, w.OfQueue
  pending : ∀ kd, x.state.shared.kind = some kd →
    StoreImpl.Buffers (fun w => w.handle = kd.handle → w.OfQueue) x.state.shared.store

end Life

/-! ## What one step commits -/

section Step

variable [DecidableEq T] {x y : State T} {l : Label T}

/-- The writes that a step buffers are puts and `SingleDelete`s. -/
theorem Step.buffers {P : Write → Prop} (hput : ∀ fam key v, P (.put fam key v))
    (hdelete : ∀ fam key undefined, P (.singleDelete fam key undefined)) (hs : Step x l y)
    (h : StoreImpl.Buffers P x.shared.store) : StoreImpl.Buffers P y.shared.store := by
  obtain ⟨p', hmove, -⟩ := hs.move
  generalize x.pc l.thread = p at hmove
  obtain ⟨sh', hsh⟩ : ∃ sh', y.shared = sh' := ⟨_, rfl⟩
  rw [hsh] at hmove ⊢
  cases hmove with
  | putStore _ hrun | putStoreFailed _ hrun => exact StoreImpl.put_buffers h hput hrun
  | takeStore _ hrun | takeStoreFailed _ hrun =>
    exact StoreImpl.singleRemoveIfPresent_buffers h hdelete hrun
  | readStore _ hrun => exact StoreImpl.get_buffers h hrun
  | eraseStore _ hrun | eraseStoreFailed _ hrun | clearStore _ hrun | clearStoreFailed _ hrun =>
    exact StoreImpl.singleRemove_buffers h hdelete hrun
  | sigNotify hn | removeNotify _ hn =>
    rw [notifyOne_eq hn]
    exact h
  | _ => exact h

end Step

/-! ## A new object -/

/-- The object that was built on a stored queue. -/
theorem Opened.book {id : Bytes} {q : KueueImpl} {s : StoreImpl} {kd : KindImpl} {db : Db} {f : Fifo}
    (h : Opened id q s kd db) (hst : Stored kd.handle db f) (hzero : f.msgs = [] → f.lo = 0) :
    Book kd f q db 0 0 0 0 := by
  obtain ⟨s₀, db₀, aKind, aMin, aMax, hopen₀, hnew, hmin, hmax⟩ := h.built
  have hbuilt := KueueImpl.new_built hopen₀ hnew h.toOpenWith h.kind
  have hq := hbuilt.init (.inl ⟨hmin.2, hmax.2⟩) (.inr ⟨hmin.1, hmax.1⟩)
  rw [KueueImpl.init_stored hst hzero] at hq
  subst hq
  exact { kind := rfl, stored := hst, minKey := UInt64.add_zero _, maxKey := rfl
          count := congrArg Int64.ofInt (by simp), room := hst.top_le }

/-! ## The invariant -/

namespace Life

variable {x y : Life T}

/-- The present object, and the log against what the Kind holds. -/
structure Sound (kd : KindImpl) (f₀ : Fifo) (db : Db) (x : Life T) : Prop where
  inv : Inv kd f₀ topKey x.state
  isOpen : x.state.shared.store.OpenWith db
  /-- A key was put once since its last `SingleDelete`, if it is there, and else not at all. -/
  live : ∀ key, putsSince key x.log = if key ∈ db.data kd.handle then 1 else 0
  issued : ∀ w ∈ x.log, w.OfQueue
  pending : StoreImpl.Buffers (fun w => w.handle = kd.handle → w.OfQueue) x.state.shared.store

variable [DecidableEq T] {kd : KindImpl} {f₀ : Fifo} {db : Db} {id : Bytes} {e : Happening T}

omit [DecidableEq T] in
theorem Sound.kind (h : Sound kd f₀ db x) : x.state.shared.queue.queueKind = some (.impl kd) := by
  obtain ⟨_, -, hb⟩ := h.inv.book
  exact hb.kind

/-- **What a step commits is proper**, and the log goes on to say what the Kind holds. -/
theorem Sound.commits (h : Sound kd f₀ db x) {l : Label T} {y : State T}
    (hs : Threads.Step x.state l y) :
    ∃ db', y.shared.store.OpenWith db' ∧
      (∀ w ∈ x.state.shared.committed y.shared, w.Proper x.state.shared.content x.log) ∧
      ∀ key, putsSince key (x.log ++ x.state.shared.committed y.shared)
        = if key ∈ db'.data kd.handle then 1 else 0 := by
  have hcontent := Shared.content_eq h.isOpen h.kind
  obtain ⟨p', hmove, -⟩ := hs.move
  obtain ⟨db₁, db', hopen, hopen', hst, hcommit⟩ := h.inv.commit hmove
  obtain rfl : db = db₁ := h.isOpen.db_eq hopen.txnDb
  refine ⟨db', hopen', ?_⟩
  cases hcommit with
  | nothing _ _ hdb =>
    have hnone : x.state.shared.committed y.shared = [] := by
      have hwal : db'.wal = db.wal ++ [] := by rw [hdb.wal, List.append_nil]
      rw [Shared.committed_eq h.isOpen hopen' h.kind hwal]
      rfl
    rw [hnone, List.append_nil, hdb.data]
    exact ⟨fun _ hno => absurd hno List.not_mem_nil, h.live⟩
  | put v _ _ htop hw =>
    have hfree := hst.top_notMem htop
    have hone : x.state.shared.committed y.shared = [.put kd.handle (code (x.state.fifo f₀).top) v] := by
      rw [Shared.committed_eq h.isOpen hopen' h.kind hw.wal]
      simp [Write.handle]
    rw [hone, hcontent]
    refine ⟨fun w hw' => ?_, fun k => ?_⟩
    · rw [List.mem_singleton.mp hw']
      exact hfree
    · rw [putsSince_put, h.live k, hw.put_data, Function.update_self]
      by_cases hk : code (x.state.fifo f₀).top = k
      · subst hk
        simp [hfree]
      · have hk' : ¬ k = code (x.state.fifo f₀).top := fun heq => hk heq.symm
        simp [Finmap.mem_insert, hk, hk']
  | singleDelete undefined _ _ hne hw =>
    have hmem := hst.head_mem hne
    have hone : x.state.shared.committed y.shared
        = [.singleDelete kd.handle (code (x.state.fifo f₀).lo) undefined] := by
      rw [Shared.committed_eq h.isOpen hopen' h.kind hw.wal]
      simp [Write.handle]
    rw [hone, hcontent]
    refine ⟨fun w hw' => ?_, fun k => ?_⟩
    · rw [List.mem_singleton.mp hw']
      exact ⟨hmem, by rw [h.live _, if_pos hmem]⟩
    · rw [putsSince_singleDelete, h.live k, hw.singleDelete_data (hst.once _ hmem),
        Function.update_self]
      by_cases hk : code (x.state.fifo f₀).lo = k
      · subst hk
        simp [Finmap.mem_erase]
      · have hk' : ¬ k = code (x.state.fifo f₀).lo := fun heq => hk heq.symm
        simp [Finmap.mem_erase, hk, hk']

theorem Sound.act (h : Sound kd f₀ db x) {l : Label T} {z : State T}
    (hg : Threads.Orderly x.state l) (hs : Threads.Step x.state l z) :
    ∃ db', Sound kd f₀ db'
      { x with state := z, log := x.log ++ x.state.shared.committed z.shared } := by
  obtain ⟨db', hopen', hproper, hlive⟩ := h.commits hs
  refine ⟨db', h.inv.step (h.inv.allowed hg) hs, hopen', hlive, fun w hw => ?_, ?_⟩
  · rcases List.mem_append.mp hw with hold | hnew
    · exact h.issued w hold
    · exact (hproper w hnew).ofQueue
  · exact hs.buffers (fun _ _ _ _ => trivial) (fun _ _ _ _ => trivial) h.pending

omit [DecidableEq T] in
/-- The next object takes over. -/
theorem Sound.reopen (h : Sound kd f₀ db x) {q : KueueImpl} {s : StoreImpl} {kd' : KindImpl} {db' : Db}
    (hnew : Opened id q s kd' db') (hdata : db'.data kd'.handle = db.data kd.handle)
    (hover : db'.overwritten kd'.handle = db.overwritten kd.handle) :
    ∃ f₁, Sound kd' f₁ db' { past := x.record, state := State.start T q s, log := x.log } := by
  obtain ⟨db₁, hopen₁, hb⟩ := h.inv.book
  obtain rfl : db₁ = db := hopen₁.db_eq h.isOpen.txnDb
  obtain ⟨f₁, hst, hzero, htop⟩ := (hb.stored.of_eq hdata hover).normal
  have hlim : f₁.top ≤ topKey := htop.trans ((Nat.le_add_right _ _).trans h.inv.bound)
  refine ⟨f₁, .of_book hnew.toOpenWith (hnew.book hst hzero) (limit_topKey _) hlim,
    hnew.toOpenWith, fun key => ?_, h.issued, fun db₂ hdb₂ => ?_⟩
  · rw [hdata]
    exact h.live key
  · obtain rfl : db' = db₂ := hnew.db_eq hdb₂
    exact fun tx w hw hhandle => absurd hhandle (hnew.pending tx w hw)

/-- **Every step** of a thread, and every new object, keeps the invariant. -/
theorem Sound.step (h : Sound kd f₀ db x) (hg : x.Orderly e) (hs : Step id x e y) :
    ∃ kd' f₁ db', Sound kd' f₁ db' y := by
  cases hs with
  | act hs =>
    obtain ⟨db', h'⟩ := h.act hg hs
    exact ⟨kd, f₀, db', h'⟩
  | reopen hopen hkind hnew hdata hover =>
    obtain rfl : _ = db := hopen.db_eq h.isOpen.txnDb
    obtain rfl : _ = kd := Kind.impl.inj (Option.some.inj (hkind.symm.trans h.kind))
    obtain ⟨f₁, h'⟩ := h.reopen hnew hdata hover
    exact ⟨_, f₁, _, h'⟩

theorem Sound.disciplined (h : Sound kd f₀ db x) : Disciplined id x where
  puts t state v key hp := by
    obtain ⟨db₁, hopen₁, hb⟩ := h.inv.book
    obtain ⟨hkey, htop⟩ := h.inv.key_top hp
    rw [Shared.content_eq hopen₁ hb.kind, hkey]
    exact hb.stored.top_notMem htop
  commits e y hs w hw := by
    cases hs with
    | act hs =>
      obtain ⟨_, -, hproper, -⟩ := h.commits hs
      rw [List.drop_left] at hw
      exact hproper w hw
    | reopen =>
      rw [List.drop_length] at hw
      cases hw
  issued := h.issued
  pending kd' hkind := by
    obtain rfl := Option.some.inj ((Shared.kind_eq h.kind).symm.trans hkind)
    exact h.pending

omit [DecidableEq T] in
theorem Sound.start {q : KueueImpl} {s : StoreImpl} (h : Opened id q s kd db)
    (hempty : db.data kd.handle = ∅) : Sound kd ⟨0, []⟩ db (start T q s) := by
  have hst : Stored kd.handle db ⟨0, []⟩ :=
    ⟨hempty, fun k hk => by rw [hempty] at hk; exact absurd hk Finmap.notMem_empty, Nat.zero_le _⟩
  refine ⟨.of_book h.toOpenWith (h.book hst fun _ => rfl) (limit_topKey _) (Nat.zero_le _),
    h.toOpenWith, fun key => ?_, fun _ hno => absurd hno List.not_mem_nil, fun db' hdb' => ?_⟩
  · rw [hempty, if_neg Finmap.notMem_empty]
    rfl
  · obtain rfl : db = db' := h.db_eq hdb'
    exact fun tx w hw hhandle => absurd hhandle (h.pending tx w hw)

end Life

/-- **The rule for `SingleDelete`.** In every life of a queue, from the first object on an empty Kind on,
with any number of threads and further objects and any store calls that fail. -/
theorem single_delete_discipline [DecidableEq T] {id : Bytes} {q : KueueImpl} {s : StoreImpl}
    {kd : KindImpl} {db : Db} (hfirst : Opened id q s kd db) (hempty : db.data kd.handle = ∅)
    {es : List (Happening T)} {x : Life T}
    (hrun : Run (guarded Life.Orderly (Life.Step id)) (Life.start T q s) es x) :
    x.Disciplined id := by
  obtain ⟨kd', f₀, db', hsound⟩ := hrun.invariant
    (P := fun x => ∃ kd f₀ db, Life.Sound kd f₀ db x)
    (fun _ _ _ ⟨_, _, _, h⟩ hst => h.step hst.1 hst.2) ⟨kd, ⟨0, []⟩, db, .start hfirst hempty⟩
  exact hsound.disciplined

/-! ## Lives that can be followed -/

namespace Life

/-- The database is opened again as it was left, without its transactions. -/
def again (db : Db) : StoreImpl.OpenAnswers where
  list := { error := none, pathNotFound := false }
  families := db.families.map Prod.fst
  opened := { error := none, pathNotFound := false }
  db := { db with txns := fun _ => [] }
  handles := db.families.map Prod.snd

/-- The store after that. -/
def storeAgain (x : Life T) : StoreImpl :=
  match x.state.shared.store.txnDb with
  | some db => (StoreImpl.new (again db)).toOption.getD .created
  | none => .created

/-- The next object of the queue `id`. -/
def rebuild (id : Bytes) (x : Life T) : KueueImpl × StoreImpl :=
  (KueueImpl.new {} {} {} id x.storeAgain).toOption.getD ({}, .created)

/-- The life after that. -/
def rebuilt (id : Bytes) (x : Life T) : Life T where
  past := x.record
  state := State.start T (x.rebuild id).1 (x.rebuild id).2
  log := x.log

variable [DecidableEq T]

/-- The life after a step of a thread. -/
def next (x : Life T) : Happening T → Option (Life T)
  | .act l => (x.state.next l).map fun y =>
      { x with state := y, log := x.log ++ x.state.shared.committed y.shared }
  | .reopen .. => none

theorem step_of_next {id : Bytes} {x y : Life T} {e : Happening T} (h : x.next e = some y) :
    Step id x e y := by
  cases e with
  | act l =>
    obtain ⟨z, hz, rfl⟩ := Option.map_eq_some_iff.mp h
    exact .act hz
  | reopen => cases h

/-- A rebuilt object is a new one, if the Kind is found again. -/
theorem step_rebuilt {id : Bytes} {x : Life T} {db db₀ db' : Db} {kd : KindImpl}
    (hopen : x.state.shared.store.OpenWith db)
    (hkind : x.state.shared.queue.queueKind = some (.impl kd)) (hagain : x.storeAgain.OpenWith db₀)
    (hnew : KueueImpl.new {} {} {} id x.storeAgain = .ok (x.rebuild id))
    (hopen' : (x.rebuild id).2.OpenWith db') (hkind' : (x.rebuild id).1.queueKind = some (.impl kd))
    (htxns : db'.txns = Function.update (fun _ => []) db.nextTxn [])
    (hdata : db'.data kd.handle = db.data kd.handle)
    (hover : db'.overwritten kd.handle = db.overwritten kd.handle) :
    Step id x (.reopen (x.rebuild id).1 (x.rebuild id).2) (x.rebuilt id) := by
  refine .reopen hopen hkind ?_ hdata hover
  refine { toOpenWith := hopen', kind := hkind', pending := fun tx w hw => ?_,
           built := ⟨x.storeAgain, db₀, {}, {}, {}, hagain, hnew, ⟨rfl, rfl⟩, rfl, rfl⟩ }
  rw [htxns, show Function.update (fun _ => []) db.nextTxn [] = (fun _ : TxnId => ([] : List Write)) from
    Function.update_eq_self _ _] at hw
  exact absurd hw List.not_mem_nil

/-- The test `calm` for the present object. -/
def calm (x : Life T) : Happening T → Bool
  | .act l => Threads.calm x.state l
  | .reopen .. => true

omit [DecidableEq T] in
theorem orderly_of_calm {x : Life T} {e : Happening T} (h : x.calm e = true) : x.Orderly e := by
  cases e with
  | act l => exact (calm_spec x.state l h).1.1
  | reopen => exact trivial

end Life

/-- A queue that was just created is an object on an empty Kind. -/
theorem opened_created :
    ∃ db, Opened [113] KueueImpl.created.1 KueueImpl.created.2 KueueImpl.createdKind db ∧
      db.data KueueImpl.createdKind.handle = ∅ := by
  have hnone : StoreImpl.Pending (fun w => w.handle ≠ 1) Db.created :=
    fun _ _ hno => absurd hno List.not_mem_nil
  refine ⟨_, { isOpen := rfl, txnDb := rfl, built := ?_, kind := rfl,
               pending := hnone.beginTransaction true none }, rfl⟩
  exact ⟨.created, _, {}, {}, {}, ⟨rfl, rfl⟩, KueueImpl.new_created, ⟨rfl, rfl⟩, rfl, rfl⟩

/-- A put and a `take`. -/
private def drain : List (Happening Unit) :=
  List.replicate 9 (.act ⟨(), { op := .put Status.ok [7] }⟩) ++
    List.replicate 8 (.act ⟨(), { op := .consume { consumer := .take } }⟩)

private def drained : Life Unit :=
  (follow Life.next Life.calm (Life.start Unit KueueImpl.created.1 KueueImpl.created.2) drain).getD
    (Life.start Unit {} KueueImpl.created.2)

/-- The first steps of a put with it. -/
private def putAgain : List (Happening Unit) :=
  List.replicate 3 (.act ⟨(), { op := .put Status.ok [8] }⟩)

private def reusing : Life Unit :=
  (follow Life.next Life.calm (drained.rebuilt [113]) putAgain).getD drained

theorem single_delete_discipline_reuse :
    reusing.log = [.put 1 (putU64BE 0) [7], .singleDelete 1 (putU64BE 0) none] ∧
      reusing.state.pc () = .putStore Status.ok [8] 0 ∧ reusing.Disciplined [113] := by
  obtain ⟨db, hfirst, hempty⟩ := opened_created
  have hdrain : Run (guarded Life.Orderly (Life.Step [113]))
      (Life.start Unit KueueImpl.created.1 KueueImpl.created.2) drain drained :=
    .of_follow (fun x e y hok hnext => ⟨Life.orderly_of_calm hok, Life.step_of_next hnext⟩)
      (show follow Life.next Life.calm _ drain = some drained from rfl)
  have hput : Run (guarded Life.Orderly (Life.Step [113])) (drained.rebuilt [113]) putAgain
      reusing :=
    .of_follow (fun x e y hok hnext => ⟨Life.orderly_of_calm hok, Life.step_of_next hnext⟩)
      (show follow Life.next Life.calm (drained.rebuilt [113]) putAgain = some reusing from rfl)
  have hrebuilt : Life.Step [113] drained
      (.reopen (drained.rebuild [113]).1 (drained.rebuild [113]).2) (drained.rebuilt [113]) :=
    Life.step_rebuilt ⟨rfl, rfl⟩ rfl ⟨rfl, rfl⟩ rfl ⟨rfl, rfl⟩ rfl rfl rfl rfl
  have hreopen : drained.Orderly (.reopen (drained.rebuild [113]).1 (drained.rebuild [113]).2) :=
    trivial
  exact ⟨rfl, rfl, single_delete_discipline hfirst hempty
    (hdrain.append (.cons ⟨hreopen, hrebuilt⟩ hput))⟩

end Threads

end Librocks
