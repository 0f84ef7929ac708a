import Librocks.Kueue.Steps

/-!
# Counting under two locks

Producers and consumers hold different locks and share only the atomic count, which lags behind the
Kind on both sides. `Book` relates the queue object to its Kind with a correction for every update that
is outstanding: keys `r` reserved and not used, messages `u` not counted yet, removals `d` that `minKey`
and `c` that `count` do not know of yet. Each effect of a step moves one of these numbers.

`Inv` is the invariant of all interleavings. Besides the book it says that a thread about to call the
store for a message will find one, even if the messages not counted yet are left aside, and that a key
returned by `readNext` is gone or still the first one. `Inv.step` is its step lemma, for steps that keep
`maxKey` in range and give `erase` returned keys only. Store calls may fail at any time.
-/

namespace Librocks.Threads

open Rocks

/-! ## The book -/

/-- The queue object `q` and the database behind its Kind, with the updates outstanding. -/
structure Book (kd : KindImpl) (f : Fifo) (q : KueueImpl) (db : Db) (r u d c : ℕ) : Prop where
  kind : q.queueKind = some (.impl kd)
  stored : Stored kd.handle db f
  minKey : q.minKey + UInt64.ofNat d = UInt64.ofNat f.lo
  maxKey : q.maxKey = UInt64.ofNat (f.top + r)
  count : q.count = Int64.ofInt (f.msgs.length - u + c)
  room : f.top + r ≤ 2 ^ 64

namespace Book

variable {kd : KindImpl} {f : Fifo} {q : KueueImpl} {db db' : Db} {r u d c : ℕ}

theorem same (h : Book kd f q db r u d c) (hdb : StoreImpl.SameContent db db') :
    Book kd f q db' r u d c :=
  { h with stored := h.stored.congr hdb.data hdb.overwritten }

theorem reserve (h : Book kd f q db 0 u d c) (htop : f.top < 2 ^ 64) :
    Book kd f { q with maxKey := q.maxKey + 1 } db 1 u d c :=
  { h with
    maxKey := by rw [UInt64.ofNat_add, ← show q.maxKey = UInt64.ofNat f.top from h.maxKey]; rfl
    room := htop }

theorem undo (h : Book kd f q db 1 u d c) :
    Book kd f { q with maxKey := q.maxKey - 1 } db 0 u d c :=
  { h with
    maxKey := by
      show q.maxKey - 1 = UInt64.ofNat f.top
      rw [h.maxKey, UInt64.ofNat_add]
      exact UInt64.add_sub_cancel _ _
    room := Nat.le_of_succ_le h.room }

/-- A committed put under the key that was reserved. -/
theorem put (h : Book kd f q db 1 u d c) {key : UInt64} {v : Bytes} (hkey : key + 1 = q.maxKey)
    (hw : StoreImpl.Wrote (.put kd.handle (putU64BE key) v) db db') :
    Book kd (f.push v) q db' 0 (u + 1) d c := by
  have htop : key = UInt64.ofNat f.top := by
    rw [h.maxKey, UInt64.ofNat_add] at hkey
    exact (UInt64.add_left_inj 1).mp hkey
  rw [htop] at hw
  refine { kind := h.kind, stored := h.stored.put h.room hw, minKey := h.minKey, maxKey := ?_,
           count := ?_, room := ?_ }
  · rw [h.maxKey, Fifo.top_push, Nat.add_zero]
  · rw [h.count]
    congr 1
    simp [Fifo.push]
  · rw [Fifo.top_push]
    exact h.room

theorem add (h : Book kd f q db r (u + 1) d c) (n : UInt64) :
    Book kd f { q with count := q.count + 1, totalPuts_ := n } db r u d c :=
  { h with
    count := by
      show q.count + 1 = _
      rw [h.count, show (1 : Int64) = Int64.ofInt 1 from rfl, ← Int64.ofInt_add]
      congr 1
      push_cast
      ring }

/-- A committed `SingleDelete` of the first key. -/
theorem remove (h : Book kd f q db r u 0 c) {undefined : Option Bytes} (hne : f.msgs ≠ [])
    (hw : StoreImpl.Wrote (.singleDelete kd.handle (putU64BE q.minKey) undefined) db db') :
    Book kd (f.drop 1) q db' r u 1 (c + 1) := by
  have hpos := List.length_pos_of_ne_nil hne
  have hmin : q.minKey = UInt64.ofNat f.lo := by
    rw [← h.minKey]
    exact (UInt64.add_zero _).symm
  rw [hmin] at hw
  refine { kind := h.kind, stored := h.stored.singleDelete hne hw, minKey := ?_, maxKey := ?_,
           count := ?_, room := ?_ }
  · rw [hmin]
    exact (UInt64.ofNat_add f.lo 1).symm
  · rw [h.maxKey, Fifo.top_drop hpos]
  · rw [h.count]
    congr 1
    rw [Fifo.drop, List.length_drop]
    push_cast [Nat.cast_pred hpos]
    ring
  · rw [Fifo.top_drop hpos]
    exact h.room

theorem shift (h : Book kd f q db r u 1 c) :
    Book kd f { q with minKey := q.minKey + 1 } db r u 0 c :=
  { h with
    minKey := by
      rw [← h.minKey]
      exact UInt64.add_zero _ }

theorem sub (h : Book kd f q db r u d (c + 1)) (n : UInt64) :
    Book kd f { q with count := q.count - 1, totalTakes_ := n } db r u d c :=
  { h with
    count := by
      show q.count - 1 = _
      rw [h.count, show (1 : Int64) = Int64.ofInt 1 from rfl, ← Int64.ofInt_sub]
      congr 1
      push_cast
      ring }

/-- A consumer that sees a count other than zero has a message of its own. -/
theorem lt_of_count_ne_zero (h : Book kd f q db r u d 0) (hu : u ≤ f.msgs.length)
    (hc : q.count ≠ 0) : u < f.msgs.length := by
  refine lt_of_le_of_ne hu fun heq => hc ?_
  rw [h.count, ← heq]
  simp

theorem minKey_eq (h : Book kd f q db r u 0 c) : q.minKey = UInt64.ofNat f.lo := by
  rw [← h.minKey]
  exact (UInt64.add_zero _).symm

end Book

/-! ## How the stored queue evolves -/

/-- One step on the messages stored and the number of them not counted yet: nothing, a put, the
count of a put, or the removal of a message that is counted. -/
inductive Evolve (f : Fifo) (u : ℕ) : Fifo → ℕ → Prop
  | keep : Evolve f u f u
  | push (v : Bytes) : Evolve f u (f.push v) (u + 1)
  | count {u' : ℕ} (h : u = u' + 1) : Evolve f u f u'
  | drop (h : u < f.msgs.length) : Evolve f u (f.drop 1) u

/-- A key from `first` on that is gone, or names the first message while that one is counted. -/
def Spent (first : ℕ) (f : Fifo) (u : ℕ) (key : UInt64) : Prop :=
  ∃ n, key = UInt64.ofNat n ∧ first ≤ n ∧ (n < f.lo ∨ n = f.lo ∧ u < f.msgs.length)

variable {f f' : Fifo} {u u' first : ℕ}

theorem Evolve.le (h : Evolve f u f' u') (hu : u ≤ f.msgs.length) : u' ≤ f'.msgs.length := by
  cases h with
  | keep => exact hu
  | push => simp [Fifo.push, hu]
  | count h => omega
  | drop h => simp only [Fifo.drop, List.length_drop]; omega

/-- A message that is counted stays, as long as none is removed. -/
theorem Evolve.lt (h : Evolve f u f' u') (hlo : f'.lo = f.lo) (hu : u < f.msgs.length) :
    u' < f'.msgs.length := by
  cases h with
  | keep => exact hu
  | push => simp [Fifo.push, hu]
  | count h => omega
  | drop => exact absurd hlo (Nat.succ_ne_self _)

theorem Spent.evolve {key : UInt64} (h : Spent first f u key) (hev : Evolve f u f' u') :
    Spent first f' u' key := by
  obtain ⟨n, rfl, hfirst, hn⟩ := h
  refine ⟨n, rfl, hfirst, ?_⟩
  rcases hn with hlt | ⟨rfl, hu⟩
  · cases hev with
    | drop => exact .inl (Nat.lt_succ_of_lt hlt)
    | _ => exact .inl hlt
  · cases hev with
    | drop => exact .inl (Nat.lt_succ_self _)
    | keep => exact .inr ⟨rfl, hu⟩
    | push => exact .inr ⟨rfl, Evolve.lt (.push _) rfl hu⟩
    | count h => exact .inr ⟨rfl, Evolve.lt (.count h) rfl hu⟩

/-! ## The invariant -/

/-- What holds at a control point. -/
structure At (first : ℕ) (f : Fifo) (u : ℕ) (q : KueueImpl) (p : Pc) : Prop where
  ready : p.Ready → u < f.msgs.length
  put : ∀ state v key, p = .putStore state v key → key + 1 = q.maxKey
  erase : ∀ key, p = .eraseStore key → key = q.minKey
  names : ∀ key, p.Names key → Spent first f u key

/-- A step of another thread, which then holds none of the locks of `p`. -/
theorem At.frame {q q' : KueueImpl} {p : Pc} (h : At first f u q p) (hev : Evolve f u f' u')
    (htake : p.HoldsTake → f'.lo = f.lo ∧ q'.minKey = q.minKey)
    (hput : p.HoldsPut → q'.maxKey = q.maxKey) : At first f' u' q' p where
  ready hp := hev.lt (htake hp.holdsTake).1 (h.ready hp)
  put state v key hp := by
    rw [hput (by rw [hp]; exact trivial)]
    exact h.put state v key hp
  erase key hp := by
    rw [(htake (by rw [hp]; exact trivial)).2]
    exact h.erase key hp
  names key hp := (h.names key hp).evolve hev

variable {T : Type}

namespace State

/-- The updates outstanding in a state. -/
def reserved (x : State T) : ℕ := atOwner Pc.reserved x.shared.putLock x.pc

@[inherit_doc reserved] def uncounted (x : State T) : ℕ := atOwner Pc.uncounted x.shared.putLock x.pc

@[inherit_doc reserved] def unshifted (x : State T) : ℕ := atOwner Pc.unshifted x.shared.takeLock x.pc

@[inherit_doc reserved] def overcounted (x : State T) : ℕ :=
  atOwner Pc.overcounted x.shared.takeLock x.pc

/-- The queue that is stored, according to the record: the messages that were there at the start and
those put since, without the removed ones. -/
def fifo (f₀ : Fifo) (x : State T) : Fifo :=
  (⟨f₀.lo, f₀.msgs ++ x.shared.puts⟩ : Fifo).drop x.shared.removals.length

/-- What `count` would be without a bound: the messages counted already, and those counted still. -/
def tally (f₀ : Fifo) (x : State T) : ℤ := (x.fifo f₀).msgs.length - x.uncounted + x.overcounted

end State

theorem State.fifo_push {x y : State T} {f₀ : Fifo} {v : Bytes}
    (hgone : x.shared.removals.length ≤ (f₀.msgs ++ x.shared.puts).length)
    (hputs : y.shared.puts = x.shared.puts ++ [v])
    (hremovals : y.shared.removals = x.shared.removals) : y.fifo f₀ = (x.fifo f₀).push v := by
  rw [State.fifo, State.fifo, hputs, hremovals]
  simp only [Fifo.drop, Fifo.push]
  rw [← List.append_assoc, List.drop_append_of_le_length hgone]

theorem State.fifo_drop {x y : State T} {f₀ : Fifo} {m : Removed T}
    (hputs : y.shared.puts = x.shared.puts)
    (hremovals : y.shared.removals = x.shared.removals ++ [m]) :
    y.fifo f₀ = (x.fifo f₀).drop 1 := by
  rw [State.fifo, State.fifo, hputs, hremovals, Fifo.drop_drop, List.length_append]
  rfl

theorem Shared.head_eq {sh : Shared T} {db : Db} {kd : KindImpl} (hopen : sh.store.OpenWith db)
    (hkind : sh.queue.queueKind = some (.impl kd)) :
    sh.head = (db.data kd.handle).lookup (putU64BE sh.queue.minKey) := by
  simp only [Shared.head, hopen.txnDb, hkind, Kind.toKindImpl, Option.bind_eq_bind, Option.bind_some]

structure Locks (x : State T) : Prop where
  put : Mutex Pc.HoldsPut x.shared.putLock x.pc
  take : Mutex Pc.HoldsTake x.shared.takeLock x.pc

/-- A bound on the numbers of the messages under which no two numbers in use have one code, that of
`minKey` in an empty queue included. -/
structure Limit (f₀ : Fifo) (lim : ℕ) : Prop where
  le : lim ≤ 2 ^ 64
  lt : 0 < f₀.lo ∨ lim < 2 ^ 64

/-- The invariant of the runs that start with the messages `f₀` in the Kind `kd` and put none under a
number from `lim` on. -/
structure Inv (kd : KindImpl) (f₀ : Fifo) (lim : ℕ) (x : State T) : Prop extends Locks x where
  book : ∃ db, x.shared.store.OpenWith db ∧ Book kd (x.fifo f₀) x.shared.queue db
    x.reserved x.uncounted x.unshifted x.overcounted
  counted : x.uncounted ≤ (x.fifo f₀).msgs.length
  points : ∀ t, At f₀.lo (x.fifo f₀) x.uncounted x.shared.queue (x.pc t)
  returned : ∀ key, x.shared.Returned key → Spent f₀.lo (x.fifo f₀) x.uncounted key
  gone : x.shared.removals.length ≤ (f₀.msgs ++ x.shared.puts).length
  record : x.shared.removals.map (fun m => (m.key, m.value))
    = (List.range x.shared.removals.length).map fun i =>
        (UInt64.ofNat (f₀.lo + i), (f₀.msgs ++ x.shared.puts)[i]?)
  bound : (x.fifo f₀).top + x.reserved ≤ lim
  limit : Limit f₀ lim

/-- What the clients keep to: puts stop at the number `lim`, and `erase` gets only keys that some
`readNext` returned. -/
structure Allowed (f₀ : Fifo) (lim : ℕ) (x : State T) (l : Label T) : Prop where
  room : ∀ state v, x.pc l.thread = .putNext state v → f₀.top + x.shared.puts.length < lim
  erase : ∀ key, x.pc l.thread = .idle → l.choice.op = .erase key → x.shared.Returned key

/-- What a step does to the database behind the Kind `kd`, and to the record of the messages. -/
inductive Commit (kd : KindImpl) (f₀ : Fifo) (x y : State T) (db db' : Db) : Prop
  | nothing (hputs : y.shared.puts = x.shared.puts) (hfifo : y.fifo f₀ = x.fifo f₀)
      (hdb : StoreImpl.SameContent db db')
  | put (v : Bytes) (hputs : y.shared.puts = x.shared.puts ++ [v])
      (hfifo : y.fifo f₀ = (x.fifo f₀).push v) (htop : (x.fifo f₀).top < 2 ^ 64)
      (hw : StoreImpl.Wrote (.put kd.handle (code (x.fifo f₀).top) v) db db')
  | singleDelete (undefined : Option Bytes) (hputs : y.shared.puts = x.shared.puts)
      (hfifo : y.fifo f₀ = (x.fifo f₀).drop 1) (hne : (x.fifo f₀).msgs ≠ [])
      (hw : StoreImpl.Wrote (.singleDelete kd.handle (code (x.fifo f₀).lo) undefined) db db')

section Step

variable [DecidableEq T] {x y : State T} {l : Label T} {p' : Pc}

theorem Step.move (h : Step x l y) :
    ∃ p', Move l.thread l.choice x.shared (x.pc l.thread) p' y.shared ∧
      y.pc = Function.update x.pc l.thread p' := by
  obtain ⟨⟨p', sh'⟩, hexec, rfl⟩ := Option.map_eq_some_iff.mp h
  exact ⟨p', exec_move hexec, rfl⟩

theorem Locks.step (h : Locks x) (hs : Step x l y) : Locks y := by
  obtain ⟨p', hmove, hpc⟩ := hs.move
  constructor
  · rw [hpc]
    exact h.put.move hmove.putLock_move
  · rw [hpc]
    exact h.take.move hmove.takeLock_move

/-- What one step changes in the updates outstanding. -/
structure Moved (x y : State T) (p p' : Pc) : Prop where
  reserved : y.reserved + p.reserved = x.reserved + p'.reserved
  uncounted : y.uncounted + p.uncounted = x.uncounted + p'.uncounted
  unshifted : y.unshifted + p.unshifted = x.unshifted + p'.unshifted
  overcounted : y.overcounted + p.overcounted = x.overcounted + p'.overcounted

theorem Locks.moved (h : Locks x)
    (hmove : Move l.thread l.choice x.shared (x.pc l.thread) p' y.shared)
    (hpc : y.pc = Function.update x.pc l.thread p') : Moved x y (x.pc l.thread) p' := by
  constructor
  · rw [State.reserved, hpc]
    exact h.put.atOwner_move Pc.reserved_eq_zero hmove.putLock_move
  · rw [State.uncounted, hpc]
    exact h.put.atOwner_move Pc.uncounted_eq_zero hmove.putLock_move
  · rw [State.unshifted, hpc]
    exact h.take.atOwner_move Pc.unshifted_eq_zero hmove.takeLock_move
  · rw [State.overcounted, hpc]
    exact h.take.atOwner_move Pc.overcounted_eq_zero hmove.takeLock_move

/-! ## Every step keeps the invariant -/

namespace Inv

variable {kd : KindImpl} {f₀ : Fifo} {lim : ℕ}

omit [DecidableEq T] in
theorem top_fifo (h : Inv kd f₀ lim x) : (x.fifo f₀).top = f₀.top + x.shared.puts.length := by
  rw [State.fifo, Fifo.top_drop h.gone]
  simp [Fifo.top, Nat.add_assoc]

/-- A key that `erase` or a returned `readNext` carries after a step was accounted for before it. -/
theorem names_step (h : Inv kd f₀ lim x) (hg : Allowed f₀ lim x l)
    (hmove : Move l.thread l.choice x.shared (x.pc l.thread) p' y.shared) {key : UInt64}
    (hn : p'.Names key ∨ y.shared.Returned key) : Spent f₀.lo (x.fifo f₀) x.uncounted key := by
  rcases hmove.names hn with (hp | hr) | ⟨hidle, hop⟩ | ⟨hready, rfl, -, hd⟩
  · exact (h.points _).names key hp
  · exact h.returned key hr
  · exact h.returned key (hg.erase key hidle hop)
  · obtain ⟨db, -, hb⟩ := h.book
    rw [State.unshifted, h.take.atOwner_eq hready.holdsTake, hd] at hb
    exact ⟨(x.fifo f₀).lo, hb.minKey_eq, Nat.le_add_right _ _,
      .inr ⟨rfl, (h.points _).ready hready⟩⟩

/-- The parts of the invariant that follow from the change in the stored queue. The thread that steps
accounts for the rest. -/
theorem advance (h : Inv kd f₀ lim x) (hg : Allowed f₀ lim x l)
    (hmove : Move l.thread l.choice x.shared (x.pc l.thread) p' y.shared)
    (hpc : y.pc = Function.update x.pc l.thread p')
    (hbook : ∃ db, y.shared.store.OpenWith db ∧ Book kd (y.fifo f₀) y.shared.queue db
      y.reserved y.uncounted y.unshifted y.overcounted)
    (hev : Evolve (x.fifo f₀) x.uncounted (y.fifo f₀) y.uncounted)
    (htake : (x.pc l.thread).HoldsTake ∨
      ((y.fifo f₀).lo = (x.fifo f₀).lo ∧ y.shared.queue.minKey = x.shared.queue.minKey))
    (hput : (x.pc l.thread).HoldsPut ∨ y.shared.queue.maxKey = x.shared.queue.maxKey)
    (hready : p'.Ready → y.uncounted < (y.fifo f₀).msgs.length)
    (hstore : ∀ state v key, p' = .putStore state v key → key + 1 = y.shared.queue.maxKey)
    (herase : ∀ key, p' = .eraseStore key → key = y.shared.queue.minKey)
    (hgone : y.shared.removals.length ≤ (f₀.msgs ++ y.shared.puts).length)
    (hrecord : y.shared.removals.map (fun m => (m.key, m.value))
      = (List.range y.shared.removals.length).map fun i =>
          (UInt64.ofNat (f₀.lo + i), (f₀.msgs ++ y.shared.puts)[i]?))
    (hbound : (y.fifo f₀).top + y.reserved ≤ lim) : Inv kd f₀ lim y where
  put := by rw [hpc]; exact h.put.move hmove.putLock_move
  take := by rw [hpc]; exact h.take.move hmove.takeLock_move
  book := hbook
  counted := hev.le h.counted
  points t := by
    by_cases ht : t = l.thread
    · subst ht
      rw [hpc, Function.update_self]
      exact { ready := hready, put := hstore, erase := herase
              names := fun key hn => (h.names_step hg hmove (.inl hn)).evolve hev }
    · -- a thread that holds a lock of its own keeps the stepping thread off what it guards
      rw [hpc, Function.update_of_ne ht]
      refine (h.points t).frame hev (fun hp => ?_) (fun hp => ?_)
      · exact htake.resolve_left fun hp' => ht (h.take.eq_of_holds hp hp')
      · exact hput.resolve_left fun hp' => ht (h.put.eq_of_holds hp hp')
  returned key hr := (h.names_step hg hmove (.inr hr)).evolve hev
  gone := hgone
  record := hrecord
  bound := hbound
  limit := h.limit

omit [DecidableEq T] in
/-- The numbers of the producers at the thread that holds `putLock`. -/
theorem put_numbers (h : Inv kd f₀ lim x) {t : T} (hp : (x.pc t).HoldsPut) :
    x.reserved = (x.pc t).reserved ∧ x.uncounted = (x.pc t).uncounted :=
  ⟨h.put.atOwner_eq hp, h.put.atOwner_eq hp⟩

omit [DecidableEq T] in
/-- The numbers of the consumers at the thread that holds `takeLock`. -/
theorem take_numbers (h : Inv kd f₀ lim x) {t : T} (hp : (x.pc t).HoldsTake) :
    x.unshifted = (x.pc t).unshifted ∧ x.overcounted = (x.pc t).overcounted :=
  ⟨h.take.atOwner_eq hp, h.take.atOwner_eq hp⟩

omit [DecidableEq T] in
/-- The key of a put that is about to be stored. -/
theorem key_top (h : Inv kd f₀ lim x) {t : T} {state : ℤ} {v : Bytes} {key : UInt64}
    (hp : x.pc t = .putStore state v key) :
    putU64BE key = code (x.fifo f₀).top ∧ (x.fifo f₀).top < 2 ^ 64 := by
  obtain ⟨db, -, hb⟩ := h.book
  have hr : x.reserved = 1 := by rw [(h.put_numbers (by rw [hp]; exact trivial)).1, hp]; rfl
  have hkey := (h.points t).put state v key hp
  have hroom := hb.room
  rw [hr] at hroom
  rw [hb.maxKey, hr, UInt64.ofNat_add] at hkey
  exact ⟨by rw [code, (UInt64.add_left_inj 1).mp hkey], hroom⟩

omit [DecidableEq T] in
/-- The key of a message that is about to be removed. -/
theorem key_lo (h : Inv kd f₀ lim x) {t : T} {key : UInt64} (hp : (x.pc t).Ready)
    (hkey : x.pc t = .eraseStore key ∨ key = x.shared.queue.minKey) :
    putU64BE key = code (x.fifo f₀).lo ∧ (x.fifo f₀).msgs ≠ [] := by
  obtain ⟨db, -, hb⟩ := h.book
  have hd : x.unshifted = 0 := by rw [(h.take_numbers hp.holdsTake).1, hp.unshifted_eq]
  rw [hd] at hb
  have hmin : key = x.shared.queue.minKey := hkey.elim ((h.points t).erase key) id
  refine ⟨by rw [hmin, hb.minKey_eq, code], fun hnil => ?_⟩
  have hlt := (h.points t).ready hp
  rw [hnil] at hlt
  exact absurd hlt (Nat.not_lt_zero _)

section Effects

variable {db db' : Db} (h : Inv kd f₀ lim x) (hg : Allowed f₀ lim x l)
  (hmove : Move l.thread l.choice x.shared (x.pc l.thread) p' y.shared)
  (hpc : y.pc = Function.update x.pc l.thread p')
  (hb : Book kd (x.fifo f₀) x.shared.queue db x.reserved x.uncounted x.unshifted x.overcounted)
  (hopen : y.shared.store.OpenWith db')

include h hg hmove hpc hb hopen

theorem step_silent (hs : Silent (x.pc l.thread) p' x.shared y.shared)
    (hdb : StoreImpl.SameContent db db') : Inv kd f₀ lim y := by
  have hm := h.moved hmove hpc
  have hr : y.reserved = x.reserved := by have := hm.reserved; have := hs.reserved; omega
  have hu : y.uncounted = x.uncounted := by have := hm.uncounted; have := hs.uncounted; omega
  have hd : y.unshifted = x.unshifted := by have := hm.unshifted; have := hs.unshifted; omega
  have hc : y.overcounted = x.overcounted := by
    have := hm.overcounted; have := hs.overcounted; omega
  have hf : y.fifo f₀ = x.fifo f₀ := by rw [State.fifo, hs.puts, hs.removals]; rfl
  refine h.advance hg hmove hpc ⟨db', hopen, ?_⟩ ?_ (.inr ⟨by rw [hf], by rw [hs.queue]⟩)
    (.inr (by rw [hs.queue])) ?_ (fun state v key hp => absurd hp (hs.put state v key)) ?_ ?_ ?_ ?_
  · rw [hf, hs.queue, hr, hu, hd, hc]
    exact hb.same hdb
  · rw [hf, hu]
    exact .keep
  · intro hready
    obtain ⟨htake, hc0, hd0, hwhy⟩ := hs.ready hready
    obtain ⟨hd1, hc1⟩ := h.take_numbers htake
    rw [hd1, hd0, hc1, hc0] at hb
    rw [hf, hu]
    rcases hwhy with hcount | ⟨key, hp, rfl⟩
    · exact hb.lt_of_count_ne_zero h.counted hcount
    · -- the key was returned by `readNext`, and it is the first one
      obtain ⟨n, hn, hfirst, hlt | ⟨-, hu⟩⟩ := (h.points l.thread).names _ (by rw [hp]; exact rfl)
      · exfalso
        have hmod : n % 2 ^ 64 = (x.fifo f₀).lo % 2 ^ 64 := by
          have := congrArg UInt64.toNat (hn.symm.trans hb.minKey_eq)
          simpa using this
        have hbound := h.bound
        have htop : (x.fifo f₀).lo ≤ (x.fifo f₀).top := Nat.le_add_right _ _
        have hlim := h.limit.le
        have hzero := h.limit.lt
        omega
      · exact hu
  · intro key hp
    rw [hs.queue]
    exact hs.erase key hp
  · rw [hs.puts, hs.removals]
    exact h.gone
  · rw [hs.puts, hs.removals]
    exact h.record
  · rw [hf, hr]
    exact h.bound

theorem step_reserve (hdb : db' = db) {state : ℤ} {v : Bytes}
    (hp : x.pc l.thread = .putNext state v) (hp' : p' = .putStore state v x.shared.queue.maxKey)
    (hsh : y.shared = { x.shared with
      queue := { x.shared.queue with maxKey := x.shared.queue.maxKey + 1 } }) : Inv kd f₀ lim y := by
  have hm := h.moved hmove hpc
  have hput : (x.pc l.thread).HoldsPut := by rw [hp]; exact trivial
  have hr₀ := (h.put_numbers hput).1
  subst hdb hp'
  rw [hp] at hm hr₀
  have hr : y.reserved = 0 + 1 := hm.reserved.trans (by rw [hr₀]; rfl)
  have hu : y.uncounted = x.uncounted := hm.uncounted
  have hd : y.unshifted = x.unshifted := hm.unshifted
  have hc : y.overcounted = x.overcounted := hm.overcounted
  have hf : y.fifo f₀ = x.fifo f₀ := by rw [State.fifo, hsh]; rfl
  have hroom : (x.fifo f₀).top < lim := by
    rw [h.top_fifo]
    exact hg.room state v hp
  rw [hr₀] at hb
  refine h.advance hg hmove hpc ⟨db', hopen, ?_⟩ ?_ (.inr ⟨by rw [hf], by rw [hsh]⟩) (.inl hput)
    (fun hready => hready.elim) ?_ (fun _ => Pc.noConfusion) ?_ ?_ ?_
  · rw [hf, hsh, hr, hu, hd, hc]
    exact hb.reserve (lt_of_lt_of_le hroom h.limit.le)
  · rw [hf, hu]
    exact .keep
  · intro state' v' key hkey
    cases hkey
    rw [hsh]
  · rw [hsh]
    exact h.gone
  · rw [hsh]
    exact h.record
  · rw [hf, hr]
    exact hroom

theorem step_undo (hdb : db' = db) (hp : x.pc l.thread = .putUndo) (hp' : p' = .putUnlock (-1))
    (hsh : y.shared = { x.shared with
      queue := { x.shared.queue with maxKey := x.shared.queue.maxKey - 1 } }) : Inv kd f₀ lim y := by
  have hm := h.moved hmove hpc
  have hput : (x.pc l.thread).HoldsPut := by rw [hp]; exact trivial
  have hr₀ := (h.put_numbers hput).1
  subst hdb hp'
  rw [hp] at hm hr₀
  have hr : y.reserved = 0 := Nat.succ.inj (hm.reserved.trans (by rw [hr₀]; rfl))
  have hu : y.uncounted = x.uncounted := hm.uncounted
  have hd : y.unshifted = x.unshifted := hm.unshifted
  have hc : y.overcounted = x.overcounted := hm.overcounted
  have hf : y.fifo f₀ = x.fifo f₀ := by rw [State.fifo, hsh]; rfl
  rw [hr₀] at hb
  refine h.advance hg hmove hpc ⟨db', hopen, ?_⟩ ?_ (.inr ⟨by rw [hf], by rw [hsh]⟩) (.inl hput)
    (fun hready => hready.elim) (fun _ _ _ => Pc.noConfusion) (fun _ => Pc.noConfusion) ?_ ?_ ?_
  · rw [hf, hsh, hr, hu, hd, hc]
    exact hb.undo
  · rw [hf, hu]
    exact .keep
  · rw [hsh]
    exact h.gone
  · rw [hsh]
    exact h.record
  · rw [hf, hr]
    exact le_trans (Nat.le_add_right _ _) h.bound

theorem step_put {state : ℤ} {v : Bytes} {key : UInt64} {store : StoreImpl}
    (hw : StoreImpl.Wrote (.put kd.handle (putU64BE key) v) db db')
    (hp : x.pc l.thread = .putStore state v key) (hp' : p' = .putAdd)
    (hsh : y.shared = { x.shared with store, puts := x.shared.puts ++ [v] }) : Inv kd f₀ lim y := by
  have hm := h.moved hmove hpc
  have hput : (x.pc l.thread).HoldsPut := by rw [hp]; exact trivial
  have hr₀ := (h.put_numbers hput).1
  have hkey := (h.points l.thread).put state v key hp
  subst hp'
  rw [hp] at hm hr₀
  have hr : y.reserved = 0 := Nat.succ.inj (hm.reserved.trans (by rw [hr₀]; rfl))
  have hu : y.uncounted = x.uncounted + 1 := hm.uncounted
  have hd : y.unshifted = x.unshifted := hm.unshifted
  have hc : y.overcounted = x.overcounted := hm.overcounted
  have hf : y.fifo f₀ = (x.fifo f₀).push v :=
    State.fifo_push h.gone (by rw [hsh]) (by rw [hsh])
  rw [hr₀] at hb
  refine h.advance hg hmove hpc ⟨db', hopen, ?_⟩ ?_ (.inr ⟨by rw [hf]; rfl, by rw [hsh]⟩) (.inl hput)
    (fun hready => hready.elim) (fun _ _ _ => Pc.noConfusion) (fun _ => Pc.noConfusion) ?_ ?_ ?_
  · rw [hf, hr, hu, hd, hc, hsh]
    exact hb.put hkey hw
  · rw [hf, hu]
    exact .push v
  · rw [hsh, ← List.append_assoc]
    exact h.gone.trans (by simp)
  · rw [hsh, ← List.append_assoc]
    refine h.record.trans (List.map_congr_left fun i hi => ?_)
    have hlt := lt_of_lt_of_le (List.mem_range.mp hi) h.gone
    rw [List.getElem?_append_left hlt]
  · rw [hf, hr, Fifo.top_push]
    have hbound := h.bound
    rw [hr₀] at hbound
    exact hbound

theorem step_add (hdb : db' = db) (hp : x.pc l.thread = .putAdd)
    (hp' : p' = .putUnlock x.shared.queue.count)
    (hsh : y.shared = { x.shared with queue := { x.shared.queue with
      count := x.shared.queue.count + 1, totalPuts_ := x.shared.queue.totalPuts_ + 1 } }) :
    Inv kd f₀ lim y := by
  have hm := h.moved hmove hpc
  have hput : (x.pc l.thread).HoldsPut := by rw [hp]; exact trivial
  subst hdb hp'
  rw [hp] at hm
  have hr : y.reserved = x.reserved := hm.reserved
  have hu : x.uncounted = y.uncounted + 1 := hm.uncounted.symm
  have hd : y.unshifted = x.unshifted := hm.unshifted
  have hc : y.overcounted = x.overcounted := hm.overcounted
  have hf : y.fifo f₀ = x.fifo f₀ := by rw [State.fifo, hsh]; rfl
  rw [hu] at hb
  refine h.advance hg hmove hpc ⟨db', hopen, ?_⟩ ?_ (.inr ⟨by rw [hf], by rw [hsh]⟩) (.inl hput)
    (fun hready => hready.elim) (fun _ _ _ => Pc.noConfusion) (fun _ => Pc.noConfusion) ?_ ?_ ?_
  · rw [hf, hr, hd, hc, hsh]
    exact hb.add _
  · rw [hf]
    exact .count hu
  · rw [hsh]
    exact h.gone
  · rw [hsh]
    exact h.record
  · rw [hf, hr]
    exact h.bound

theorem step_remove (hopen₀ : x.shared.store.OpenWith db) {k : After} {key : UInt64}
    {undefined : Option Bytes} {store : StoreImpl} (hready : (x.pc l.thread).Ready)
    (hnum : (x.pc l.thread).reserved = 0 ∧ (x.pc l.thread).uncounted = 0)
    (hkey : x.pc l.thread = .eraseStore key ∨ key = x.shared.queue.minKey)
    (hw : StoreImpl.Wrote (.singleDelete kd.handle (putU64BE key) undefined) db db')
    (hp' : p' = .removeNext k) (hsh : y.shared = x.shared.remove l.thread key store) :
    Inv kd f₀ lim y := by
  have hm := h.moved hmove hpc
  obtain ⟨hd₀, hc₀⟩ := h.take_numbers hready.holdsTake
  rw [hready.unshifted_eq] at hd₀
  rw [hready.overcounted_eq] at hc₀
  have hmin : key = x.shared.queue.minKey := hkey.elim ((h.points l.thread).erase key) id
  have hlt := (h.points l.thread).ready hready
  obtain ⟨m, rest, hmsgs⟩ := List.exists_cons_of_length_pos (Nat.zero_lt_of_lt hlt)
  subst hp' hmin
  have hr : y.reserved = x.reserved := by have := hm.reserved; rw [hnum.1] at this; exact this
  have hu : y.uncounted = x.uncounted := by have := hm.uncounted; rw [hnum.2] at this; exact this
  have hd : y.unshifted = 1 := by
    have := hm.unshifted; rw [hready.unshifted_eq, hd₀] at this; exact this
  have hc : y.overcounted = 0 + 1 := by
    have := hm.overcounted; rw [hready.overcounted_eq, hc₀] at this; exact this
  have hremovals : y.shared.removals = x.shared.removals
      ++ [⟨l.thread, x.shared.calls l.thread, x.shared.queue.minKey, x.shared.head⟩] := by rw [hsh]; rfl
  have hputs : y.shared.puts = x.shared.puts := by rw [hsh]; rfl
  have hqueue : y.shared.queue = x.shared.queue := by rw [hsh]; rfl
  have hf : y.fifo f₀ = (x.fifo f₀).drop 1 := State.fifo_drop hputs hremovals
  rw [hd₀, hc₀] at hb
  have hhead : x.shared.head = some m := by
    rw [Shared.head_eq hopen₀ hb.kind, hb.minKey_eq]
    exact hb.stored.lookup_head hmsgs
  have hmth : (f₀.msgs ++ x.shared.puts)[x.shared.removals.length]? = some m := by
    have h0 : (x.fifo f₀).msgs[0]? = some m := by rw [hmsgs]; rfl
    simpa [State.fifo, Fifo.drop] using h0
  refine h.advance hg hmove hpc ⟨db', hopen, ?_⟩ ?_ (.inl hready.holdsTake) (.inr (by rw [hqueue]))
    (fun hno => hno.elim) (fun _ _ _ => Pc.noConfusion) (fun _ => Pc.noConfusion) ?_ ?_ ?_
  · rw [hf, hr, hu, hd, hc, hqueue]
    exact hb.remove (by simp [hmsgs]) hw
  · rw [hf, hu]
    exact .drop hlt
  · rw [hremovals, hputs, List.length_append]
    exact (List.getElem?_eq_some_iff.mp hmth).1
  · rw [hremovals, hputs, List.length_append, List.length_singleton, List.range_succ,
      List.map_append, List.map_append, h.record]
    simp only [List.map_cons, List.map_nil, hhead, hmth, hb.minKey_eq]
    rfl
  · rw [hf, hr, Fifo.top_drop (Nat.zero_lt_of_lt hlt)]
    exact h.bound

theorem step_shift (hdb : db' = db) {k : After} (hp : x.pc l.thread = .removeNext k)
    (hp' : p' = .removeSub k)
    (hsh : y.shared = { x.shared with
      queue := { x.shared.queue with minKey := x.shared.queue.minKey + 1 } }) : Inv kd f₀ lim y := by
  have hm := h.moved hmove hpc
  have htake : (x.pc l.thread).HoldsTake := by rw [hp]; exact trivial
  have hd₀ := (h.take_numbers htake).1
  subst hdb hp'
  rw [hp] at hm hd₀
  have hr : y.reserved = x.reserved := hm.reserved
  have hu : y.uncounted = x.uncounted := hm.uncounted
  have hd : y.unshifted = 0 := Nat.succ.inj (hm.unshifted.trans (by rw [hd₀]; rfl))
  have hc : y.overcounted = x.overcounted := Nat.succ.inj hm.overcounted
  have hf : y.fifo f₀ = x.fifo f₀ := by rw [State.fifo, hsh]; rfl
  rw [hd₀] at hb
  refine h.advance hg hmove hpc ⟨db', hopen, ?_⟩ ?_ (.inl htake) (.inr (by rw [hsh]))
    (fun hready => hready.elim) (fun _ _ _ => Pc.noConfusion) (fun _ => Pc.noConfusion) ?_ ?_ ?_
  · rw [hf, hr, hu, hd, hc, hsh]
    exact hb.shift
  · rw [hf, hu]
    exact .keep
  · rw [hsh]
    exact h.gone
  · rw [hsh]
    exact h.record
  · rw [hf, hr]
    exact h.bound

theorem step_sub (hdb : db' = db) {k : After} (hp : x.pc l.thread = .removeSub k)
    (hready : ¬ p'.Ready) (hnum : p'.reserved = 0 ∧ p'.uncounted = 0)
    (hnum' : p'.unshifted = 0 ∧ p'.overcounted = 0)
    (hstore : ∀ state v key, p' ≠ .putStore state v key)
    (hsh : y.shared = { x.shared with queue := { x.shared.queue with
      count := x.shared.queue.count - 1, totalTakes_ := x.shared.queue.totalTakes_ + 1 } }) :
    Inv kd f₀ lim y := by
  have hm := h.moved hmove hpc
  subst hdb
  rw [hp] at hm
  have hr : y.reserved = x.reserved := hm.reserved.trans (by rw [hnum.1]; rfl)
  have hu : y.uncounted = x.uncounted := hm.uncounted.trans (by rw [hnum.2]; rfl)
  have hd : y.unshifted = x.unshifted := hm.unshifted.trans (by rw [hnum'.1]; rfl)
  have hc : x.overcounted = y.overcounted + 1 :=
    (hm.overcounted.trans (by rw [hnum'.2]; rfl)).symm
  have hf : y.fifo f₀ = x.fifo f₀ := by rw [State.fifo, hsh]; rfl
  rw [hc] at hb
  refine h.advance hg hmove hpc ⟨db', hopen, ?_⟩ ?_ (.inr ⟨by rw [hf], by rw [hsh]⟩)
    (.inr (by rw [hsh])) (fun hno => absurd hno hready)
    (fun state v key he => absurd he (hstore state v key)) ?_ ?_ ?_ ?_
  · rw [hf, hr, hu, hd, hsh]
    exact hb.sub _
  · rw [hf, hu]
    exact .keep
  · intro key he
    subst he
    exact absurd trivial hready
  · rw [hsh]
    exact h.gone
  · rw [hsh]
    exact h.record
  · rw [hf, hr]
    exact h.bound

end Effects

/-- **One step.** -/
theorem move (h : Inv kd f₀ lim x) (hg : Allowed f₀ lim x l)
    (hmove : Move l.thread l.choice x.shared (x.pc l.thread) p' y.shared)
    (hpc : y.pc = Function.update x.pc l.thread p') : Inv kd f₀ lim y := by
  obtain ⟨db, hopen, hb⟩ := h.book
  obtain ⟨db', hopen', heff⟩ := hmove.effect hb.kind hopen
  generalize hp : x.pc l.thread = p at heff
  generalize hsh : y.shared = sh' at heff
  cases heff with
  | silent hsilent hdb =>
    subst hp hsh
    exact h.step_silent hg hmove hpc hb hopen' hsilent hdb
  | reserve => exact h.step_reserve hg hmove hpc hb hopen' rfl hp rfl hsh
  | undo => exact h.step_undo hg hmove hpc hb hopen' rfl hp rfl hsh
  | put hw => exact h.step_put hg hmove hpc hb hopen' hw hp rfl hsh
  | add => exact h.step_add hg hmove hpc hb hopen' rfl hp rfl hsh
  | remove hready hnum hkey hw =>
    subst hp
    exact h.step_remove hg hmove hpc hb hopen' hopen hready hnum hkey hw rfl hsh
  | shift => exact h.step_shift hg hmove hpc hb hopen' rfl hp rfl hsh
  | sub hready hnum hnum' hstore =>
    exact h.step_sub hg hmove hpc hb hopen' rfl hp hready hnum hnum' hstore hsh

@[inherit_doc move] theorem step (h : Inv kd f₀ lim x) (hg : Allowed f₀ lim x l) (hs : Step x l y) :
    Inv kd f₀ lim y := by
  obtain ⟨p', hmove, hpc⟩ := hs.move
  exact h.move hg hmove hpc

/-- **What one step commits**: nothing, a put under the next number, or the removal of the first
message. -/
theorem commit (h : Inv kd f₀ lim x)
    (hmove : Move l.thread l.choice x.shared (x.pc l.thread) p' y.shared) :
    ∃ db db', x.shared.store.OpenWith db ∧ y.shared.store.OpenWith db' ∧
      Stored kd.handle db (x.fifo f₀) ∧ Commit kd f₀ x y db db' := by
  obtain ⟨db, hopen, hb⟩ := h.book
  obtain ⟨db', hopen', heff⟩ := hmove.effect hb.kind hopen
  refine ⟨db, db', hopen, hopen', hb.stored, ?_⟩
  generalize hp : x.pc l.thread = p at heff
  obtain ⟨sh', hsh⟩ : ∃ sh', y.shared = sh' := ⟨_, rfl⟩
  rw [hsh] at heff
  cases heff with
  | silent hsilent hdb =>
    subst hsh
    exact .nothing hsilent.puts (by rw [State.fifo, hsilent.puts, hsilent.removals]; rfl) hdb
  | reserve | undo | add | shift | sub =>
    exact .nothing (by rw [hsh]) (by rw [State.fifo, hsh]; rfl) (.refl db)
  | put hw =>
    obtain ⟨hkey, htop⟩ := h.key_top hp
    rw [hkey] at hw
    exact .put _ (by rw [hsh]) (State.fifo_push h.gone (by rw [hsh]) (by rw [hsh])) htop hw
  | remove hready _ hkey hw =>
    subst hp
    obtain ⟨hlo, hne⟩ := h.key_lo hready hkey
    rw [hlo] at hw
    exact .singleDelete _ (by rw [hsh]; rfl) (State.fifo_drop (by rw [hsh]; rfl) (by rw [hsh]; rfl))
      hne hw

omit [DecidableEq T] in
theorem length_fifo (h : Inv kd f₀ lim x) :
    (x.fifo f₀).msgs.length + x.shared.removals.length = f₀.msgs.length + x.shared.puts.length := by
  have hgone := h.gone
  rw [List.length_append] at hgone
  simp only [State.fifo, Fifo.drop, List.length_drop, List.length_append]
  omega

/-- Only the `fetch_add` of a put adds to the tally. -/
theorem tally_step (h : Inv kd f₀ lim x) (hg : Allowed f₀ lim x l) (hs : Step x l y) :
    y.tally f₀ ≤ x.tally f₀ ∨
      x.pc l.thread = .putAdd ∧ y.tally f₀ = x.tally f₀ + 1 := by
  have hx := h.length_fifo
  have hy := (h.step hg hs).length_fifo
  obtain ⟨p', hmove, hpc⟩ := hs.move
  have hm := h.moved hmove hpc
  obtain ⟨db, hopen, hb⟩ := h.book
  obtain ⟨db', -, heff⟩ := hmove.effect hb.kind hopen
  have hu := hm.uncounted
  have hc := hm.overcounted
  simp only [State.tally]
  generalize hp : x.pc l.thread = p at heff hu hc
  generalize hsh : y.shared = sh' at heff hy
  cases heff with
  | silent hsilent =>
    have := hsilent.uncounted
    have := hsilent.overcounted
    rw [hsilent.puts, hsilent.removals] at hy
    omega
  | reserve | undo =>
    simp only [Pc.uncounted, Pc.overcounted] at hu hc hy
    omega
  | put =>
    simp only [Pc.uncounted, Pc.overcounted, List.length_append, List.length_singleton] at hu hc hy
    omega
  | add =>
    simp only [Pc.uncounted, Pc.overcounted] at hu hc hy
    exact .inr ⟨rfl, by omega⟩
  | remove hready hnum =>
    rw [hready.overcounted_eq] at hc
    rw [hnum.2] at hu
    simp only [Shared.remove, Pc.uncounted, Pc.overcounted, List.length_append,
      List.length_singleton] at hu hc hy
    omega
  | shift =>
    simp only [Pc.uncounted, Pc.overcounted] at hu hc hy
    omega
  | sub _ hnum hnum' =>
    rw [hnum.2] at hu
    rw [hnum'.2] at hc
    simp only [Pc.uncounted, Pc.overcounted] at hu hc hy
    omega

omit [DecidableEq T] in
/-- As long as the tally fits, `count` is the tally. -/
theorem count_toInt (h : Inv kd f₀ lim x) (hfits : x.tally f₀ < 2 ^ 63) :
    x.shared.queue.count.toInt = x.tally f₀ ∧ 0 ≤ x.tally f₀ := by
  obtain ⟨db, -, hb⟩ := h.book
  have hcounted := h.counted
  have hnonneg : 0 ≤ x.tally f₀ := by
    simp only [State.tally]
    omega
  refine ⟨?_, hnonneg⟩
  rw [hb.count]
  exact Int64.toInt_ofInt_of_le (by omega) hfits

omit [DecidableEq T] in
/-- A queue object that no thread uses. What it keeps a record of may have happened before it was
built. -/
theorem of_idle {db : Db} (hpc : x.pc = fun _ => .idle) (hput : x.shared.putLock = none)
    (htake : x.shared.takeLock = none) (hopen : x.shared.store.OpenWith db)
    (hbook : Book kd (x.fifo f₀) x.shared.queue db 0 0 0 0)
    (hreturned : ∀ key, x.shared.Returned key → Spent f₀.lo (x.fifo f₀) 0 key)
    (hgone : x.shared.removals.length ≤ (f₀.msgs ++ x.shared.puts).length)
    (hrecord : x.shared.removals.map (fun m => (m.key, m.value))
      = (List.range x.shared.removals.length).map fun i =>
          (UInt64.ofNat (f₀.lo + i), (f₀.msgs ++ x.shared.puts)[i]?))
    (htop : (x.fifo f₀).top ≤ lim) (hlim : Limit f₀ lim) : Inv kd f₀ lim x := by
  have hr : x.reserved = 0 := by rw [State.reserved, hput]; rfl
  have hu : x.uncounted = 0 := by rw [State.uncounted, hput]; rfl
  have hd : x.unshifted = 0 := by rw [State.unshifted, htake]; rfl
  have hc : x.overcounted = 0 := by rw [State.overcounted, htake]; rfl
  have hfree : ∀ holds : Pc → Prop, ¬ holds .idle → Mutex holds none x.pc := by
    intro holds hidle t
    rw [hpc]
    exact ⟨fun hno => absurd hno (by simp), fun hp => absurd hp hidle⟩
  refine { put := by rw [hput]; exact hfree _ id, take := by rw [htake]; exact hfree _ id,
           book := ⟨db, hopen, by rw [hr, hu, hd, hc]; exact hbook⟩,
           counted := by rw [hu]; exact Nat.zero_le _, points := fun t => ?_,
           returned := by rw [hu]; exact hreturned, gone := hgone, record := hrecord,
           bound := by rw [hr]; exact htop, limit := hlim }
  rw [hpc]
  exact { ready := fun hp => hp.elim, put := fun _ _ _ => Pc.noConfusion
          erase := fun _ => Pc.noConfusion, names := fun _ hn => hn.elim }

omit [DecidableEq T] in
/-- A queue object that was just built. -/
theorem of_book {q : KueueImpl} {s : StoreImpl} {db : Db} (hopen : s.OpenWith db)
    (hbook : Book kd f₀ q db 0 0 0 0) (hlim : Limit f₀ lim) (htop : f₀.top ≤ lim) :
    Inv kd f₀ lim (State.start T q s) := by
  have hf : (State.start T q s).fifo f₀ = f₀ := by simp [State.fifo, State.start]
  refine of_idle rfl rfl rfl hopen (by rw [hf]; exact hbook) ?_ (Nat.zero_le _) rfl
    (by rw [hf]; exact htop) hlim
  rintro key ⟨ret, hret, -⟩
  cases hret

omit [DecidableEq T] in
/-- The same of an object that represents its Kind. -/
theorem start {q : KueueImpl} {s : StoreImpl} (h : KueueImpl.Rep kd (q, s) f₀) (hlim : Limit f₀ lim)
    (htop : f₀.top ≤ lim) : Inv kd f₀ lim (State.start T q s) := by
  obtain ⟨db, hopen, hst⟩ := h.stored
  refine of_book hopen ?_ hlim htop
  exact { kind := h.kind, stored := hst, minKey := (UInt64.add_zero _).trans h.minKey
          maxKey := h.maxKey, count := h.count.trans (congrArg Int64.ofInt (by simp))
          room := hst.top_le }

end Inv

end Step

end Librocks.Threads
