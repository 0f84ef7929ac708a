import Librocks.Common.Linearizable
import Librocks.Kueue.Concurrent

/-!
# What the clients of a queue see

Reference: `include/impl/KueueImpl.h`.

A client sees when its call begins and what it returns. `Traced` keeps this history beside the threads,
together with the result that each thread has settled on: the status that the store wrote, or the answer
that the call will return. No step of a thread depends on either.

`Does` is the queue as calls that take no time would see it. The results below take the steps of a call
apart: before it is settled a control point serves the call (`Pc.Serves`), afterwards it only has to
finish (`Pc.Settled`), and the step in between does what `Does` says.
-/

namespace Librocks.Fifo

/-- The queue without its last `n` messages. -/
def hide (f : Fifo) (n : ℕ) : Fifo := ⟨f.lo, f.msgs.take (f.msgs.length - n)⟩

@[simp] theorem hide_zero (f : Fifo) : f.hide 0 = f := by
  simp [hide]

theorem hide_push (f : Fifo) (v : Bytes) (n : ℕ) : (f.push v).hide (n + 1) = f.hide n := by
  have hle : f.msgs.length - n ≤ f.msgs.length := Nat.sub_le _ _
  simp only [hide, push, List.length_append, List.length_singleton, Nat.add_sub_add_right,
    List.take_append_of_le_length hle]

theorem push_hide_one {f : Fifo} {v : Bytes} (hv : f.msgs.getLast? = some v) :
    (f.hide 1).push v = f := by
  obtain ⟨msgs, hm⟩ := List.getLast?_eq_some_iff.mp hv
  obtain ⟨lo, _⟩ := f
  obtain rfl : _ = msgs ++ [v] := hm
  simp [hide, push]

theorem hide_drop (f : Fifo) (n : ℕ) : (f.drop 1).hide n = (f.hide n).drop 1 := by
  simp only [hide, drop, List.drop_take, List.length_drop]
  congr 2
  omega

theorem hide_cons {f : Fifo} {n : ℕ} {m : Bytes} {rest : List Bytes} (hm : f.msgs = m :: rest)
    (hn : n < f.msgs.length) : ∃ rest', (f.hide n).msgs = m :: rest' := by
  obtain ⟨k, hk⟩ : ∃ k, f.msgs.length - n = k + 1 := ⟨f.msgs.length - n - 1, by omega⟩
  exact ⟨rest.take k, by rw [hide, hk, hm, List.take_succ_cons]⟩

theorem hide_eq_nil {f : Fifo} {n : ℕ} (hn : f.msgs.length ≤ n) : (f.hide n).msgs = [] := by
  rw [hide, Nat.sub_eq_zero_of_le hn, List.take_zero]

end Librocks.Fifo

namespace Librocks.Threads

open Rocks

/-! ## Results -/

/-- What a call returns. Of the status of a `put` and a `clear` only counts whether the store refused. -/
inductive Result
  | invalid
  | put (stored : Bool)
  | answer (ans : Answer)
  | cleared (all : Bool)
  deriving DecidableEq

/-- The result that a step settles. A call on a queue that is not valid is settled by its only step. -/
def settles : Pc → Pc → Option Result
  | .idle, .idle => some .invalid
  | .putStore .., .putUndo => some (.put false)
  | .putAdd, .putUnlock _ => some (.put true)
  | .takeStore _, .removeNext (.answer ans) | .takeStore _, .takeUnlock ans => some (.answer ans)
  | .readStore _, .takeUnlock ans | .waitLast _, .takeUnlock ans => some (.answer ans)
  | .eraseTest key, .idle => some (.answer (.erased key false))
  | .eraseCheck _, .takeUnlock ans => some (.answer ans)
  | .eraseStore _, .removeNext (.answer ans) | .eraseStore _, .takeUnlock ans => some (.answer ans)
  | .clearTest _, .clearUnlockTake => some (.cleared true)
  | .clearStore _, .clearUnlockTake => some (.cleared false)
  | _, _ => none

/-- The threads, the result of each, and the history of their calls. -/
structure Traced (T : Type) where
  state : State T
  result : T → Result := fun _ => .invalid
  history : List (Visible T Op Result) := []

namespace Traced

variable {T : Type} [DecidableEq T]

/-- The results after a step to `y`. -/
def results (x : Traced T) (l : Label T) (y : State T) : T → Result :=
  Function.update x.result l.thread
    ((settles (x.state.pc l.thread) (y.pc l.thread)).getD (x.result l.thread))

/-- What a client sees of a step to `y`. -/
def events (x : Traced T) (l : Label T) (y : State T) : List (Visible T Op Result) :=
  (if x.state.pc l.thread = .idle then
    [.call l.thread (y.shared.calls l.thread) l.choice.op] else []) ++
  if y.pc l.thread = .idle then
    [.ret l.thread (y.shared.calls l.thread) (x.results l y l.thread)] else []

def next (x : Traced T) (l : Label T) : Option (Traced T) :=
  (x.state.next l).map fun y => ⟨y, x.results l y, x.history ++ x.events l y⟩

def Step (x : Traced T) (l : Label T) (y : Traced T) : Prop := x.next l = some y

@[simp] theorem results_thread (x : Traced T) (l : Label T) (y : State T) :
    x.results l y l.thread
      = (settles (x.state.pc l.thread) (y.pc l.thread)).getD (x.result l.thread) :=
  Function.update_self ..

theorem results_of_ne {x : Traced T} {l : Label T} {y : State T} {t : T} (ht : t ≠ l.thread) :
    x.results l y t = x.result t :=
  Function.update_of_ne ht _ _

theorem Step.inv {x y : Traced T} {l : Label T} (h : x.Step l y) :
    Threads.Step x.state l y.state ∧ y.result = x.results l y.state ∧
      y.history = x.history ++ x.events l y.state := by
  obtain ⟨z, hz, rfl⟩ := Option.map_eq_some_iff.mp h
  exact ⟨hz, rfl, rfl⟩

omit [DecidableEq T] in
/-- A queue object that no thread uses yet. -/
def start (T : Type) (q : KueueImpl) (s : StoreImpl) : Traced T := { state := State.start T q s }

end Traced

/-! ## The queue without time -/

/-- A call of `readNext`. -/
def Wait.Reads (w : Wait) : Prop := ∃ timeout, w.consumer = .readNext timeout

/-- The reply hands out the message `m`. -/
structure Hands (r : StoreImpl.Reply) (m : Bytes) : Prop where
  status : r.status = some Status.ok
  data : r.data = StoreImpl.buffer m
  resultLen : r.resultLen = some m.length

/-- What a call may do to the queue `f` and answer. A call fails only if RocksDB may refuse something, or
for want of a place for the length; then it does nothing, but a `clear` may fail half-way. A consumer that
fails hands out nothing, or the first message, which stays, if its removal is refused. It times out only on
an empty queue. An `erase` may return false at any time, since its first test takes no lock, and true
without effect for the key of a message that is gone. -/
inductive Does (refuses : Prop) (f : Fifo) : Op → Result → Fifo → Prop
  | put {state : ℤ} {v : Bytes} : Does refuses f (.put state v) (.put true) (f.push v)
  | putFailed {state : ℤ} {v : Bytes} (hr : refuses) :
      Does refuses f (.put state v) (.put false) f
  | taken {w : Wait} {r : StoreImpl.Reply} {m : Bytes} {rest : List Bytes} (hw : ¬ w.Reads)
      (hm : f.msgs = m :: rest) (hr : Hands r m) :
      Does refuses f (.consume w) (.answer (.taken (UInt64.ofNat f.lo) r)) (f.drop 1)
  | takeFailed {w : Wait} {r : StoreImpl.Reply} (hw : ¬ w.Reads) (hne : f.msgs ≠ [])
      (hst : r.status ≠ some Status.ok) (hdata : r.data = none) (hr : refuses ∨ w.valLen = none) :
      Does refuses f (.consume w) (.answer (.taken (UInt64.ofNat f.lo) r)) f
  | takeTorn {w : Wait} {r : StoreImpl.Reply} {m : Bytes} {rest : List Bytes} (hw : ¬ w.Reads)
      (hm : f.msgs = m :: rest) (hst : r.status ≠ some Status.ok) (hdata : r.data = StoreImpl.buffer m)
      (hlen : r.resultLen = some m.length) (hr : refuses) :
      Does refuses f (.consume w) (.answer (.taken (UInt64.ofNat f.lo) r)) f
  | read {w : Wait} {r : StoreImpl.Reply} {m : Bytes} {rest : List Bytes} (hw : w.Reads)
      (hm : f.msgs = m :: rest) (hr : Hands r m) :
      Does refuses f (.consume w) (.answer (.read (UInt64.ofNat f.lo) r)) f
  | readFailed {w : Wait} {r : StoreImpl.Reply} (hw : w.Reads) (hne : f.msgs ≠ [])
      (hst : r.status ≠ some Status.ok) (hdata : r.data = none) (hr : refuses ∨ w.valLen = none) :
      Does refuses f (.consume w) (.answer (.read (UInt64.ofNat f.lo) r)) f
  | timedOut {w : Wait} (hw : w.timed = true) (hnil : f.msgs = []) :
      Does refuses f (.consume w) (.answer .timedOut) f
  | erased (hne : f.msgs ≠ []) : Does refuses f (.erase (UInt64.ofNat f.lo))
      (.answer (.erased (UInt64.ofNat f.lo) true)) (f.drop 1)
  | eraseRefused {key : UInt64} : Does refuses f (.erase key) (.answer (.erased key false)) f
  | eraseLate {n : ℕ} (hgone : n < f.lo) : Does refuses f (.erase (UInt64.ofNat n))
      (.answer (.erased (UInt64.ofNat n) true)) f
  | clear {state : ℤ} {n : ℕ} {all : Bool} (hn : n ≤ f.msgs.length)
      (hall : all = true → (f.drop n).msgs = []) (hr : all = false → refuses) :
      Does refuses f (.clear state) (.cleared all) (f.drop n)

theorem Does.eq_of_refused {refuses : Prop} {f f' : Fifo} {key : UInt64}
    (h : Does refuses f (.erase key) (.answer (.erased key false)) f') : f' = f := by
  cases h
  rfl

/-! ## Control points -/

namespace Pc

/-- The control points of the call `op` before it is settled. A put is settled when it counts its message,
which is then the last one stored. -/
def Serves (last : Option Bytes) (op : Op) : Pc → Prop
  | .putLock state v | .putNext state v | .putStore state v _ => op = .put state v
  | .putAdd => ∃ state v, op = .put state v ∧ last = some v
  | .waitLock w | .waitTest w | .waitSleep w | .blocked w => op = .consume w
  | .timedOut w | .waitLast w => op = .consume w ∧ w.timed = true
  | .takeStore w => op = .consume w ∧ ¬ w.Reads
  | .readStore w => op = .consume w ∧ w.Reads
  | .eraseTest key | .eraseLock key | .eraseCheck key | .eraseStore key => op = .erase key
  | .clearLockPut _ | .clearLockTake _ | .clearTest _ | .clearStore _ => ∃ state, op = .clear state
  | .removeNext .loop | .removeSub .loop => ∃ state, op = .clear state
  | _ => False

/-- The control points of a call that is settled. -/
def Settled : Pc → Prop
  | .putUndo | .putUnlock _ | .sigLock | .sigNotify | .sigUnlock => True
  | .removeNext (.answer _) | .removeSub (.answer _) | .removeNotify .. | .takeUnlock _ => True
  | .clearUnlockTake | .clearUnlockPut => True
  | _ => False

/-- Inside the loop of `clear`, under both locks. -/
def Clearing : Pc → Prop
  | .clearTest _ | .clearStore _ | .removeNext .loop | .removeSub .loop => True
  | _ => False

theorem Clearing.holds {p : Pc} (h : p.Clearing) : p.HoldsPut ∧ p.HoldsTake := by
  cases p with
  | removeNext k | removeSub k => cases k <;> first | exact ⟨trivial, trivial⟩ | exact h.elim
  | _ => first | exact ⟨trivial, trivial⟩ | exact h.elim

theorem Settled.not_clearing {p : Pc} (h : p.Settled) : ¬ p.Clearing := by
  intro hc
  cases p with
  | removeNext k | removeSub k => cases k <;> first | exact h.elim | exact hc.elim
  | _ => first | exact h.elim | exact hc.elim

theorem Serves.clear {last : Option Bytes} {op : Op} {p : Pc} (h : p.Serves last op)
    (hclear : p.Clearing) : ∃ state, op = .clear state := by
  cases p with
  | clearTest | clearStore => exact h
  | removeNext k | removeSub k => cases k <;> first | exact h | exact h.elim
  | _ => exact hclear.elim

theorem Serves.congr {last last' : Option Bytes} {op : Op} {p : Pc} (h : p.Serves last op)
    (hlast : p = .putAdd → last' = last) : p.Serves last' op := by
  cases p with
  | putAdd =>
    rw [hlast rfl]
    exact h
  | removeNext k | removeSub k => cases k <;> exact h
  | _ => exact h

end Pc

variable {last : Option Bytes}

theorem Op.serves_start (op : Op) : (op.start true).Serves last op := by
  cases op <;> first | exact rfl | exact ⟨_, rfl⟩

theorem Op.start_ne_idle (op : Op) : op.start true ≠ .idle := by
  intro hno
  have hserves : (op.start true).Serves none op := op.serves_start
  rw [hno] at hserves
  exact hserves

theorem Wait.serves_body (w : Wait) : w.body.Serves last (.consume w) := by
  obtain ⟨consumer, state, valLen⟩ := w
  cases consumer with
  | readNext timeout => exact ⟨rfl, timeout, rfl⟩
  | take | takeTimed =>
    refine ⟨rfl, ?_⟩
    rintro ⟨timeout, hno⟩
    cases hno

theorem Wait.body_cases (w : Wait) : w.body = .takeStore w ∨ w.body = .readStore w := by
  obtain ⟨consumer, state, valLen⟩ := w
  cases consumer with
  | readNext timeout => exact .inr rfl
  | take | takeTimed => exact .inl rfl

/-! ## Steps of a call -/

section Steps

variable {T : Type} [DecidableEq T] {t : T} {ch : Choice T} {sh sh' : Shared T} {p p' : Pc} {op : Op}

/-- Only a wait with a timeout can time out. -/
theorem exec_timedOut {w w' : Wait} (h : exec t ch sh (.blocked w) = some (.timedOut w', sh')) :
    w.timed = true := by
  simp only [exec] at h
  split at h
  · split_ifs at h
    cases h
  · cases h
  · split_ifs at h with htimed
    exact htimed

omit [DecidableEq T] in
/-- A wait with a timeout fails its test only on a count that is not positive. -/
theorem not_pos_of_timed {w : Wait} {count : Int64} (hw : w.timed = true)
    (h : w.passes count = false) : ¬ 0 < count.toInt := by
  obtain ⟨consumer, state, valLen⟩ := w
  cases consumer with
  | take => cases hw
  | takeTimed | readNext => exact fun hpos => of_decide_eq_false h (Int64.lt_iff_toInt_lt.mpr hpos)

/-- A call goes on, or it is settled. -/
theorem Move.serves (h : Move t ch sh p p' sh')
    (htimed : ∀ w w', p = .blocked w → p' = .timedOut w' → w.timed = true)
    (hp : p.Serves sh.puts.getLast? op) :
    (settles p p' = none ∧ p'.Serves sh'.puts.getLast? op) ∨
      ∃ r, settles p p' = some r ∧ (p'.Settled ∨ p' = .idle ∧ ∃ key, p = .eraseTest key) := by
  cases h with
  | call => exact hp.elim
  | putStore => exact .inl ⟨rfl, _, _, hp, List.getLast?_concat⟩
  | putStoreFailed | putAdd => exact .inr ⟨_, rfl, .inl trivial⟩
  | takeStore | takeStoreFailed | readStore | lastFails => exact .inr ⟨_, rfl, .inl trivial⟩
  | eraseRefused => exact .inr ⟨_, rfl, .inr ⟨rfl, _, rfl⟩⟩
  | eraseLate | eraseStore | eraseStoreFailed => exact .inr ⟨_, rfl, .inl trivial⟩
  | clearEnds | clearStoreFailed => exact .inr ⟨_, rfl, .inl trivial⟩
  | waitPasses =>
    rename_i w _
    obtain rfl : op = .consume w := hp
    refine .inl ⟨?_, w.serves_body⟩
    rcases w.body_cases with hb | hb <;> rw [hb] <;> rfl
  | lastPasses =>
    rename_i w _
    obtain ⟨rfl, -⟩ := hp
    refine .inl ⟨?_, w.serves_body⟩
    rcases w.body_cases with hb | hb <;> rw [hb] <;> rfl
  | timeout => exact .inl ⟨rfl, hp, htimed _ _ rfl rfl⟩
  | clearTurn | clearSub | clearStore => exact .inl ⟨rfl, hp⟩
  | removeNext =>
    rename_i k
    cases k with
    | answer ans => exact hp.elim
    | loop => exact .inl ⟨rfl, hp⟩
  | _ => exact .inl ⟨rfl, hp⟩

/-- Only the first step of a call counts it. -/
theorem Move.calls_eq (h : Move t ch sh p p' sh') (hp : p ≠ .idle) : sh'.calls = sh.calls := by
  cases h with
  | call => exact absurd rfl hp
  | sigNotify hn | removeNotify _ hn => rw [notifyOne_eq hn]
  | _ => rfl

theorem Move.valid_eq (h : Move t ch sh p p' sh') : sh'.queue.isValid_ = sh.queue.isValid_ := by
  cases h with
  | sigNotify hn | removeNotify _ hn => rw [notifyOne_eq hn]
  | _ => rfl

/-- Puts are recorded under `putLock`. -/
theorem Move.puts_eq (h : Move t ch sh p p' sh') (hp : ¬ p.HoldsPut) : sh'.puts = sh.puts := by
  cases h with
  | putStore => exact absurd trivial hp
  | sigNotify hn | removeNotify _ hn => rw [notifyOne_eq hn]
  | _ => rfl

/-- A call is settled under one of the locks, unless it is an `erase` refused by its first test. -/
theorem Move.settles_holds (h : Move t ch sh p p' sh') (hserves : p.Serves last op) {r : Result}
    (hset : settles p p' = some r) :
    p.HoldsPut ∨ p.HoldsTake ∨ ∃ key, p = .eraseTest key ∧ p' = .idle := by
  cases h with
  | call => exact hserves.elim
  | eraseRefused => exact .inr (.inr ⟨_, rfl, rfl⟩)
  | putStoreFailed | putAdd => exact .inl trivial
  | takeStore | takeStoreFailed | readStore | lastFails | eraseLate | eraseStore | eraseStoreFailed
  | clearEnds | clearStoreFailed => exact .inr (.inl trivial)
  | waitPasses | lastPasses => exact .inr (.inl trivial)
  | removeNext =>
    rename_i k
    cases k <;> cases hset
  | _ => cases hset

/-- A call that is settled finishes. -/
theorem Move.settled (h : Move t ch sh p p' sh') (hp : p.Settled) :
    settles p p' = none ∧ (p'.Settled ∨ p' = .idle) := by
  cases h with
  | removeNext =>
    rename_i k
    cases k with
    | answer ans => exact ⟨rfl, .inl trivial⟩
    | loop => exact hp.elim
  | putUnlock | sigUnlock | takeUnlock | clearUnlockPut => exact ⟨rfl, .inr rfl⟩
  | _ => first | exact ⟨rfl, .inl trivial⟩ | exact hp.elim

end Steps

/-! ## What a step does to the queue -/

/-- The messages stored that are counted. -/
def State.counted {T : Type} (f₀ : Fifo) (x : State T) : Fifo := (x.fifo f₀).hide x.uncounted

section Counted

variable {T : Type} [DecidableEq T] {x y : State T} {l : Label T} {kd : KindImpl} {f₀ : Fifo} {p' : Pc}
  {op : Op} {r : Result} {lim : ℕ}

omit [DecidableEq T] in
theorem State.fifo_eq (hputs : y.shared.puts = x.shared.puts)
    (hremovals : y.shared.removals = x.shared.removals) : y.fifo f₀ = x.fifo f₀ := by
  rw [State.fifo, State.fifo, hputs, hremovals]

omit [DecidableEq T] in
theorem State.start_fifo (f₀ : Fifo) (q : KueueImpl) (s : StoreImpl) :
    (State.start T q s).fifo f₀ = f₀ := by
  simp [State.fifo, State.start]

omit [DecidableEq T] in
/-- A queue object that represents its Kind. -/
theorem Fits.start {q : KueueImpl} {s : StoreImpl} (hrep : KueueImpl.Rep kd (q, s) f₀)
    (htop : f₀.top ≤ topKey) (hlen : f₀.msgs.length < 2 ^ 63) : Fits kd f₀ (State.start T q s) where
  toInv := Inv.start hrep (limit_topKey _) htop
  fits := by
    rw [State.tally, State.start_fifo]
    show (f₀.msgs.length : ℤ) - (0 : ℕ) + (0 : ℕ) < 2 ^ 63
    omega

section Uncounted

variable (h : Locks x) (hmove : Move l.thread l.choice x.shared (x.pc l.thread) p' y.shared)
  (hpc : y.pc = Function.update x.pc l.thread p')
  (hp : x.pc l.thread ≠ .putAdd) (hp' : p' ≠ .putAdd)

include h hmove hpc hp hp'

theorem Locks.uncounted_step : y.uncounted = x.uncounted := by
  have hm := (h.moved hmove hpc).uncounted
  have hx : (x.pc l.thread).uncounted = 0 := not_ne_iff.mp (mt Pc.uncounted_ne_zero hp)
  have hy : p'.uncounted = 0 := not_ne_iff.mp (mt Pc.uncounted_ne_zero hp')
  omega

variable (f₀) in
theorem Locks.counted_eq (hf : y.fifo f₀ = x.fifo f₀) : y.counted f₀ = x.counted f₀ := by
  rw [State.counted, State.counted, hf, h.uncounted_step hmove hpc hp hp']

variable (f₀) in
theorem Locks.counted_drop (hf : y.fifo f₀ = (x.fifo f₀).drop 1) :
    y.counted f₀ = (x.counted f₀).drop 1 := by
  rw [State.counted, State.counted, hf, h.uncounted_step hmove hpc hp hp', Fifo.hide_drop]

end Uncounted

/-- Only the steps that settle a call, and the loop of `clear`, change the messages counted. -/
theorem Inv.counted_eq (h : Inv kd f₀ lim x)
    (hmove : Move l.thread l.choice x.shared (x.pc l.thread) p' y.shared)
    (hpc : y.pc = Function.update x.pc l.thread p') (hset : settles (x.pc l.thread) p' = none)
    (hclear : ¬ (x.pc l.thread).Clearing) : y.counted f₀ = x.counted f₀ := by
  have hm := (h.moved hmove hpc).uncounted
  have hsame := h.toLocks.counted_eq f₀ hmove hpc
  generalize hp : x.pc l.thread = p at hmove hset hclear hm hsame
  generalize hsh : y.shared = sh' at hmove
  cases hmove with
  | putStore =>
    have hf : y.fifo f₀ = (x.fifo f₀).push _ := State.fifo_push h.gone (by rw [hsh]) (by rw [hsh])
    have hu : y.uncounted = x.uncounted + 1 := hm
    rw [State.counted, State.counted, hf, hu, Fifo.hide_push]
  | takeStore | eraseStore | putAdd => cases hset
  | call =>
    refine hsame Pc.noConfusion (fun hno => ?_) (State.fifo_eq (by rw [hsh]) (by rw [hsh]))
    cases hop : l.choice.op <;> cases hvalid : x.shared.queue.isValid_ <;> rw [hop, hvalid] at hno <;>
      cases hno
  | clearStore => exact absurd trivial hclear
  | sigNotify hn | removeNotify _ hn =>
    refine hsame Pc.noConfusion Pc.noConfusion (State.fifo_eq ?_ ?_) <;> rw [hsh, notifyOne_eq hn]
  | eraseRefused | spurious | timeout | takeUnlock =>
    exact hsame Pc.noConfusion Pc.noConfusion
      (State.fifo_eq (by rw [hsh]; rfl) (by rw [hsh]; rfl))
  | waitPasses | lastPasses =>
    rename_i w _
    refine hsame Pc.noConfusion (fun hno => ?_) (State.fifo_eq (by rw [hsh]) (by rw [hsh]))
    rcases w.body_cases with hb | hb <;> cases hno.symm.trans hb
  | _ =>
    exact hsame Pc.noConfusion Pc.noConfusion (State.fifo_eq (by rw [hsh]) (by rw [hsh]))

omit [DecidableEq T] in
/-- A store call that is made for a message finds it, counted, under `minKey`. -/
theorem Inv.ready (h : Inv kd f₀ lim x) {t : T} (hready : (x.pc t).Ready) :
    ∃ db m rest, x.shared.store.OpenWith db ∧ Stored kd.handle db (x.fifo f₀) ∧
      x.shared.queue.queueKind = some (.impl kd) ∧
      x.shared.queue.minKey = UInt64.ofNat (x.counted f₀).lo ∧ (x.fifo f₀).msgs = m :: rest ∧
      ∃ rest', (x.counted f₀).msgs = m :: rest' := by
  obtain ⟨db, hopen, hb⟩ := h.book
  have hd : x.unshifted = 0 := by rw [(h.take_numbers hready.holdsTake).1, hready.unshifted_eq]
  rw [hd] at hb
  have hlt := (h.points t).ready hready
  obtain ⟨m, rest, hm⟩ := List.exists_cons_of_length_pos (Nat.zero_lt_of_lt hlt)
  exact ⟨db, m, rest, hopen, hb.stored, hb.kind, hb.minKey_eq, hm, Fifo.hide_cons hm hlt⟩

omit [DecidableEq T] in
/-- The `fetch_add` of a put counts the last message stored. -/
theorem Inv.counted_push (h : Inv kd f₀ lim x) (hputs : y.shared.puts = x.shared.puts)
    (hremovals : y.shared.removals = x.shared.removals) {v : Bytes}
    (hlast : x.shared.puts.getLast? = some v) (hu : x.uncounted = 1) (hu' : y.uncounted = 0) :
    y.counted f₀ = (x.counted f₀).push v := by
  have hlen := h.counted
  have hmsgs : (x.fifo f₀).msgs = (f₀.msgs ++ x.shared.puts).drop x.shared.removals.length := rfl
  have hv : (x.fifo f₀).msgs.getLast? = some v := by
    rw [hu, hmsgs, List.length_drop] at hlen
    rw [hmsgs, List.getLast?_drop, if_neg (by omega), List.getLast?_append, hlast, Option.some_or]
  rw [State.counted, State.counted, State.fifo_eq hputs hremovals, hu, hu', Fifo.hide_zero,
    Fifo.push_hide_one hv]

section Settles

variable {refuses : Prop} (h : Fits kd f₀ x) (hv : kd.isValid = true)
  (hfaults : ¬ refuses → StoreImpl.Faultless l.choice.answers)
  (hmove : Move l.thread l.choice x.shared (x.pc l.thread) p' y.shared)
  (hpc : y.pc = Function.update x.pc l.thread p')

include h hv hfaults

omit [DecidableEq T] in
/-- A store call of a consumer fails only if RocksDB refuses something, or for want of a place for the
length. -/
theorem Fits.take_refused {w : Wait} {kind : Kind} {r : StoreImpl.Reply} {s : StoreImpl}
    (hp : (x.pc l.thread).Ready) (hkind : x.shared.queue.queueKind = some kind)
    (hrun : x.shared.store.singleRemoveIfPresent l.choice.answers (some w.state) kind w.valLen
      (some (putU64BE x.shared.queue.minKey)) = .ok (r, s)) (hst : r.status ≠ some Status.ok) :
    refuses ∨ w.valLen = none := by
  obtain ⟨db, m, rest, hopen, hstored, hkd, hmin, hm, -⟩ := h.ready hp
  cases hkind.symm.trans hkd
  refine or_iff_not_imp_left.mpr fun hno => ?_
  cases hlen : w.valLen with
  | none => rfl
  | some len =>
    exfalso
    rw [hlen, hmin] at hrun
    obtain ⟨s', hok⟩ := StoreImpl.singleRemoveIfPresent_faultless hopen (hfaults hno) hv w.state len
      (hstored.lookup_head hm)
    cases hok.symm.trans hrun
    exact hst rfl

omit [DecidableEq T] in
/-- What a take that fails hands out. -/
theorem Fits.take_failed {w : Wait} {kind : Kind} {r : StoreImpl.Reply} {s : StoreImpl}
    (hp : (x.pc l.thread).Ready) (hkind : x.shared.queue.queueKind = some kind)
    (hrun : x.shared.store.singleRemoveIfPresent l.choice.answers (some w.state) kind w.valLen
      (some (putU64BE x.shared.queue.minKey)) = .ok (r, s)) (hst : r.status ≠ some Status.ok)
    (hw : ¬ w.Reads) : Does refuses (x.counted f₀) (.consume w)
      (.answer (.taken x.shared.queue.minKey r)) (x.counted f₀) := by
  have hrefused := h.take_refused hv hfaults hp hkind hrun hst
  obtain ⟨db, m, rest, hopen, hstored, hkd, hmin, hm, rest', hcm⟩ := h.ready hp
  rw [hmin] at hrun ⊢
  by_cases hlen : w.valLen = none
  · -- the arguments are refused before anything is read
    rw [hlen] at hrun
    cases hrun
    exact .takeFailed hw (by simp [hcm]) hst rfl (.inr hlen)
  · rcases StoreImpl.ifPresent_hands hopen hrun with hdata | ⟨k, key, value, rfl, hkey, hl, hdata, hsize⟩
    · exact .takeFailed hw (by simp [hcm]) hst hdata hrefused
    · cases hkd.symm.trans hkind
      cases hkey
      cases (hstored.lookup_head hm).symm.trans hl
      exact .takeTorn hw hcm hst hdata hsize (hrefused.resolve_right hlen)

omit [DecidableEq T] in
@[inherit_doc take_refused]
theorem Fits.read_refused {w : Wait} {kind : Kind} {r : StoreImpl.Reply} {s : StoreImpl}
    (hp : (x.pc l.thread).Ready) (hkind : x.shared.queue.queueKind = some kind)
    (hrun : x.shared.store.get l.choice.answers (some w.state) kind w.valLen
      (some (putU64BE x.shared.queue.minKey)) = .ok (r, s)) (hst : r.status ≠ some Status.ok) :
    refuses ∨ w.valLen = none := by
  obtain ⟨db, m, rest, hopen, hstored, hkd, hmin, hm, -⟩ := h.ready hp
  cases hkind.symm.trans hkd
  refine or_iff_not_imp_left.mpr fun hno => ?_
  cases hlen : w.valLen with
  | none => rfl
  | some len =>
    exfalso
    rw [hlen, hmin] at hrun
    cases (StoreImpl.get_granted hopen (hfaults hno) hv w.state len
      (hstored.lookup_head hm)).symm.trans hrun
    exact hst rfl

include hmove hpc

/-- **The step that settles a call** does what the call should do, unless it is a `clear`. -/
theorem Fits.does (hserves : (x.pc l.thread).Serves x.shared.puts.getLast? op)
    (hset : settles (x.pc l.thread) p' = some r) (hclear : ¬ (x.pc l.thread).Clearing) :
    Does refuses (x.counted f₀) op r (y.counted f₀) := by
  have hsame := h.toLocks.counted_eq f₀ hmove hpc
  have hdrop := h.toLocks.counted_drop f₀ hmove hpc
  have hready := h.ready (t := l.thread)
  have hpoint := h.points l.thread
  have hput := h.put_numbers (t := l.thread)
  have htake := h.take_numbers (t := l.thread)
  have hm := (h.moved hmove hpc).uncounted
  obtain ⟨db, hopen, hb⟩ := h.book
  generalize hp : x.pc l.thread = p at hmove hserves hset hclear hsame hdrop hready hpoint hput htake hm
  generalize hsh : y.shared = sh' at hmove
  cases hmove with
  | putStoreFailed hkind hrun hst =>
    cases hset
    obtain rfl := hserves
    rw [hsame Pc.noConfusion Pc.noConfusion (State.fifo_eq (by rw [hsh]) (by rw [hsh]))]
    refine .putFailed (by_contra fun hno => hst ?_)
    cases hkind.symm.trans hb.kind
    obtain ⟨s', hok⟩ := StoreImpl.voidWrite_faultless hopen (hfaults hno) hv
      (fun key fam => .put fam key _) _ _
    exact (Prod.mk.inj (Except.ok.inj (hok.symm.trans hrun))).1.symm
  | putAdd =>
    cases hset
    obtain ⟨state, v, rfl, hlast⟩ := hserves
    have hu : x.uncounted = 1 := (hput trivial).2
    rw [h.counted_push (by rw [hsh]) (by rw [hsh]) hlast hu (Nat.succ.inj (hm.trans hu))]
    exact .put
  | takeStore hkind hrun hst =>
    cases hset
    obtain ⟨rfl, hw⟩ := hserves
    obtain ⟨db', m, rest, hopen', hstored, hkd, hmin, hfm, rest', hcm⟩ := hready trivial
    cases hkind.symm.trans hkd
    rw [hdrop Pc.noConfusion Pc.noConfusion (State.fifo_drop (by rw [hsh]; rfl) (by rw [hsh]; rfl))]
    rw [hmin] at hrun ⊢
    obtain ⟨c, r', s', hok, hr, hres⟩ :=
      Stored.In.singleRemoveIfPresent ⟨db', hopen', hstored⟩ l.choice.answers _ _
    cases hok.symm.trans hrun
    rcases hres with ⟨hc, -⟩ | ⟨-, m', rest'', hm', hdata, hlen, -⟩
    · exact absurd (Option.some.inj (hr.symm.trans hst)) hc
    · cases hm'.symm.trans hfm
      exact .taken hw hcm ⟨hst, hdata, hlen⟩
  | takeStoreFailed hkind hrun hst =>
    cases hset
    obtain ⟨rfl, hw⟩ := hserves
    rw [hsame Pc.noConfusion Pc.noConfusion (State.fifo_eq (by rw [hsh]) (by rw [hsh]))]
    exact h.take_failed hv hfaults (by rw [hp]; exact trivial) hkind hrun hst hw
  | readStore hkind hrun =>
    rename_i w kind r store
    cases hset
    obtain ⟨rfl, hw⟩ := hserves
    obtain ⟨db', m, rest, hopen', hstored, hkd, hmin, hfm, rest', hcm⟩ := hready trivial
    rw [hsame Pc.noConfusion Pc.noConfusion (State.fifo_eq (by rw [hsh]) (by rw [hsh]))]
    have hrefused := h.read_refused hv hfaults (by rw [hp]; exact trivial) hkind hrun
    cases hkind.symm.trans hkd
    rw [hmin] at hrun ⊢
    obtain ⟨c, r', hok, hr, hres⟩ := Stored.In.get ⟨db', hopen', hstored⟩ l.choice.answers _ _
    obtain ⟨rfl, -⟩ := Prod.mk.inj (Except.ok.inj (hok.symm.trans hrun))
    rcases hres with ⟨hc, hdata⟩ | ⟨rfl, m', rest'', hm', hdata, hlen⟩
    · have hst : r'.status ≠ some Status.ok := by rw [hr]; simpa using hc
      exact .readFailed hw (by simp [hcm]) hst hdata (hrefused hst)
    · cases hm'.symm.trans hfm
      exact .read hw hcm ⟨hr, hdata, hlen⟩
  | lastFails hpasses =>
    cases hset
    obtain ⟨rfl, hw⟩ := hserves
    rw [hsame Pc.noConfusion Pc.noConfusion (State.fifo_eq (by rw [hsh]) (by rw [hsh]))]
    refine .timedOut hw (Fifo.hide_eq_nil ?_)
    -- nothing is overcounted, so that a count of zero leaves at most the messages not counted
    have hcount := not_pos_of_timed hw hpasses
    obtain ⟨htoInt, -⟩ := h.count_toInt h.fits
    have hc : x.overcounted = 0 := (htake trivial).2
    rw [htoInt, State.tally, hc] at hcount
    omega
  | eraseRefused =>
    cases hset
    obtain rfl := hserves
    rw [hsame Pc.noConfusion Pc.noConfusion (State.fifo_eq (by rw [hsh]; rfl) (by rw [hsh]; rfl))]
    exact .eraseRefused
  | eraseLate hne =>
    cases hset
    obtain rfl := hserves
    rw [hsame Pc.noConfusion Pc.noConfusion (State.fifo_eq (by rw [hsh]) (by rw [hsh]))]
    have hd : x.unshifted = 0 := (htake trivial).1
    rw [hd] at hb
    -- the key was returned once, so that it is the first one or gone
    obtain ⟨n, rfl, -, hgone | ⟨hfirst, -⟩⟩ := hpoint.names _ rfl
    · exact .eraseLate hgone
    · rw [hfirst] at hne
      exact absurd hb.minKey_eq.symm hne
  | eraseStore =>
    cases hset
    obtain rfl := hserves
    obtain ⟨-, m, rest, -, -, -, hmin, -, rest', hcm⟩ := hready trivial
    rw [hdrop Pc.noConfusion Pc.noConfusion (State.fifo_drop (by rw [hsh]; rfl) (by rw [hsh]; rfl))]
    obtain rfl := (hpoint.erase _ rfl).trans hmin
    exact .erased (by simp [hcm])
  | eraseStoreFailed =>
    cases hset
    obtain rfl := hserves
    rw [hsame Pc.noConfusion Pc.noConfusion (State.fifo_eq (by rw [hsh]) (by rw [hsh]))]
    exact .eraseRefused
  | clearEnds | clearStoreFailed => exact absurd trivial hclear
  | call => exact hserves.elim
  | waitPasses | lastPasses =>
    rename_i w _
    rcases w.body_cases with hb | hb <;> rw [hb] at hset <;> cases hset
  | removeNext =>
    rename_i k
    cases k <;> cases hset
  | _ => cases hset

/-- **A step in the loop of `clear`** removes the oldest message or nothing. Without a failure the loop
ends only when no message is left. -/
theorem Fits.clears (hclear : (x.pc l.thread).Clearing) :
    (settles (x.pc l.thread) p' = none ∧ p'.Clearing ∧
        (y.counted f₀ = x.counted f₀ ∨
          (x.counted f₀).msgs ≠ [] ∧ y.counted f₀ = (x.counted f₀).drop 1)) ∨
      ∃ all, settles (x.pc l.thread) p' = some (.cleared all) ∧ p'.Settled ∧
        y.counted f₀ = x.counted f₀ ∧ (all = true → (x.counted f₀).msgs = []) ∧
        (all = false → refuses) := by
  have hsame := h.toLocks.counted_eq f₀ hmove hpc
  have hdrop := h.toLocks.counted_drop f₀ hmove hpc
  have hready := h.ready (t := l.thread)
  have hu := (h.put_numbers hclear.holds.1).2
  have hc := (h.take_numbers hclear.holds.2).2
  generalize hp : x.pc l.thread = p at hmove hclear hsame hdrop hready hu hc
  generalize hsh : y.shared = sh' at hmove
  have hstay : p ≠ .putAdd → p' ≠ .putAdd → sh'.puts = x.shared.puts →
      sh'.removals = x.shared.removals → y.counted f₀ = x.counted f₀ := by
    intro hp₁ hp₂ hputs hremovals
    exact hsame hp₁ hp₂ (State.fifo_eq (by rw [hsh, hputs]) (by rw [hsh, hremovals]))
  cases hmove with
  | clearTurn => exact .inl ⟨rfl, trivial, .inl (hstay Pc.noConfusion Pc.noConfusion rfl rfl)⟩
  | clearEnds hcount =>
    refine .inr ⟨true, rfl, trivial, hstay Pc.noConfusion Pc.noConfusion rfl rfl, fun _ => ?_,
      Bool.noConfusion⟩
    -- under both locks the count is the number of messages
    obtain ⟨htoInt, -⟩ := h.count_toInt h.fits
    have hle : ¬ (0 : ℤ) < x.shared.queue.count.toInt :=
      fun hpos => hcount (Int64.lt_iff_toInt_lt.mpr hpos)
    have hc' : x.overcounted = 0 := hc
    rw [htoInt, State.tally, hc'] at hle
    exact Fifo.hide_eq_nil (by omega)
  | clearStore =>
    obtain ⟨-, m, rest, -, -, -, -, -, rest', hcm⟩ := hready trivial
    refine .inl ⟨rfl, trivial, .inr ⟨by simp [hcm], hdrop Pc.noConfusion Pc.noConfusion ?_⟩⟩
    exact State.fifo_drop (by rw [hsh]; rfl) (by rw [hsh]; rfl)
  | clearStoreFailed hkind hrun hst =>
    refine .inr ⟨false, rfl, trivial, hstay Pc.noConfusion Pc.noConfusion rfl rfl,
      Bool.noConfusion, fun _ => by_contra fun hno => hst ?_⟩
    obtain ⟨db, m, rest, hopen, -, hkd, -⟩ := hready trivial
    cases hkind.symm.trans hkd
    obtain ⟨s', hok⟩ := StoreImpl.voidWrite_faultless hopen (hfaults hno) hv
      (fun key fam => .singleDelete fam key l.choice.answers.undefined) _ _
    exact (Prod.mk.inj (Except.ok.inj (hok.symm.trans hrun))).1.symm
  | removeNext =>
    rename_i k
    cases k with
    | answer ans => exact hclear.elim
    | loop => exact .inl ⟨rfl, trivial, .inl (hstay Pc.noConfusion Pc.noConfusion rfl rfl)⟩
  | clearSub => exact .inl ⟨rfl, trivial, .inl (hstay Pc.noConfusion Pc.noConfusion rfl rfl)⟩
  | _ => exact hclear.elim

end Settles

end Counted

end Librocks.Threads
