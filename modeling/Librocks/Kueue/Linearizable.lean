import Librocks.Kueue.Traced

/-!
# Queues are linearizable

`queues_linearizable`: any number of queues share a store and any number of threads share the queues.
Whatever the interleaving, the history of each queue is one that calls without duration could have, on a
queue of its own. A put takes effect when it is counted, a removal and a `readNext` with their store call,
a timeout with the last test, and a `clear` when its loop ends.

The proof follows the atomic object. `Matches` relates the threads of one queue to it; while the loop of
a `clear` is under way, the messages that it removed are still there in the atomic object. The queues do
not meet: a step of one leaves the Kinds of the others as they are (`Fits.on`).
-/

namespace Librocks.Threads

open Rocks

variable {T : Type} [DecidableEq T]

/-! ## One queue -/

/-- The control point `p` and the result `r` of a thread, as the atomic object has them. -/
def InPhase (last : Option Bytes) (p : Pc) (r : Result) : Phase Op Result → Prop
  | .idle => p = .idle
  | .called op => p.Serves last op
  | .done _ r' => p.Settled ∧ r' = r

/-- The atomic object `a` is where the threads `c` are. -/
structure Matches (f₀ : Fifo) (c : Traced T) (a : Atomic T Op Result Fifo) : Prop where
  history : a.history = c.history
  calls : a.calls = c.state.shared.calls
  phase : ∀ t, InPhase c.state.shared.puts.getLast? (c.state.pc t) (c.result t) (a.phase t)
  state : ∃ n ≤ a.state.msgs.length, a.state.drop n = c.state.counted f₀ ∧
    (n ≠ 0 → ∃ t, (c.state.pc t).Clearing)

variable {kd : KindImpl} {f₀ : Fifo} {c d : Traced T} {a : Atomic T Op Result Fifo} {l : Label T}

section Step

variable {p' : Pc} {refuses : Prop} (h : Matches f₀ c a) (hfits : Fits kd f₀ c.state)
  (hmove : Move l.thread l.choice c.state.shared (c.state.pc l.thread) p' d.state.shared)
  (hpc : d.state.pc = Function.update c.state.pc l.thread p')
  (hresult : d.result = c.results l d.state)
  (hhistory : d.history = c.history ++ c.events l d.state)

include h hfits hmove hpc hresult

/-- The phases after a step: that of the moving thread, and the others as they were. -/
theorem Matches.phase_step (ph : Phase Op Result)
    (hph : InPhase d.state.shared.puts.getLast? p' (d.result l.thread) ph) (t : T) :
    InPhase d.state.shared.puts.getLast? (d.state.pc t) (d.result t)
      (Function.update a.phase l.thread ph t) := by
  by_cases ht : t = l.thread
  · subst ht
    rw [hpc, Function.update_self, Function.update_self]
    exact hph
  · rw [hpc, Function.update_of_ne ht, Function.update_of_ne ht, hresult, Traced.results_of_ne ht]
    have hold := h.phase t
    cases hat : a.phase t with
    | idle | done =>
      rw [hat] at hold
      exact hold
    | called op =>
      rw [hat] at hold
      -- another thread at `putAdd` keeps the moving thread off the record of the puts
      refine hold.congr fun hp => ?_
      rw [hmove.puts_eq fun hput => ht (hfits.put.eq_of_holds (by rw [hp]; exact trivial) hput)]

omit hfits hmove hresult in
/-- A step that leaves the messages counted and does not end the loop of a `clear`. -/
theorem Matches.state_step (hcounted : d.state.counted f₀ = c.state.counted f₀)
    (hclear : (c.state.pc l.thread).Clearing → p'.Clearing) :
    ∃ n ≤ a.state.msgs.length, a.state.drop n = d.state.counted f₀ ∧
      (n ≠ 0 → ∃ t, (d.state.pc t).Clearing) := by
  obtain ⟨n, hn, hstate, hwho⟩ := h.state
  refine ⟨n, hn, hstate.trans hcounted.symm, fun hne => ?_⟩
  obtain ⟨t, ht⟩ := hwho hne
  refine ⟨t, ?_⟩
  by_cases htl : t = l.thread
  · subst htl
    rw [hpc, Function.update_self]
    exact hclear ht
  · rw [hpc, Function.update_of_ne htl]
    exact ht

section Effect

variable {op : Op} {r : Result} (hv : kd.isValid = true)
  (hfaults : ¬ refuses → StoreImpl.Faultless l.choice.answers)
  (hserves : (c.state.pc l.thread).Serves c.state.shared.puts.getLast? op)

include hv hfaults hserves

omit hserves hresult in
/-- A step that settles nothing. The loop of a `clear` may remove a message. -/
theorem Matches.state_serves (hset : settles (c.state.pc l.thread) p' = none) :
    ∃ n ≤ a.state.msgs.length, a.state.drop n = d.state.counted f₀ ∧
      (n ≠ 0 → ∃ t, (d.state.pc t).Clearing) := by
  by_cases hclear : (c.state.pc l.thread).Clearing
  · rcases hfits.clears hv hfaults hmove hpc hclear with ⟨-, hclear', hsame | ⟨hne, hdrop⟩⟩ | ⟨_, hno, -⟩
    · exact h.state_step hpc hsame fun _ => hclear'
    · obtain ⟨n, hn, hstate, -⟩ := h.state
      refine ⟨n + 1, ?_, ?_, fun _ => ⟨l.thread, by rw [hpc, Function.update_self]; exact hclear'⟩⟩
      · rw [← hstate] at hne
        exact Nat.lt_of_sub_pos (by simpa [Fifo.drop] using List.length_pos_of_ne_nil hne)
      · rw [hdrop, ← hstate, Fifo.drop_drop]
    · rw [hset] at hno
      cases hno
  · exact h.state_step hpc (hfits.counted_eq hmove hpc hset hclear) fun hno => absurd hno hclear

omit hresult in
/-- The step that settles a call is its effect on the atomic object. -/
theorem Matches.state_settles (hset : settles (c.state.pc l.thread) p' = some r) :
    ∃ g, Does refuses a.state op r g ∧ ∃ n ≤ g.msgs.length, g.drop n = d.state.counted f₀ ∧
      (n ≠ 0 → ∃ t, (d.state.pc t).Clearing) := by
  obtain ⟨n, hn, hstate, hwho⟩ := h.state
  by_cases hclear : (c.state.pc l.thread).Clearing
  · rcases hfits.clears hv hfaults hmove hpc hclear with ⟨hno, -⟩ | ⟨all, hall, -, hsame, hnil, hrefuses⟩
    · rw [hset] at hno
      cases hno
    · -- what the loop removed is removed at once
      cases Option.some.inj (hset.symm.trans hall)
      obtain ⟨state, rfl⟩ := hserves.clear hclear
      refine ⟨a.state.drop n, .clear hn (fun ht => ?_) hrefuses, 0, Nat.zero_le _, ?_, absurd rfl⟩
      · rw [hstate]
        exact hnil ht
      · rw [Fifo.drop_zero, hstate, hsame]
  · have hother : (c.state.pc l.thread).HoldsPut ∨ (c.state.pc l.thread).HoldsTake → n = 0 := by
      intro hholds
      by_contra hne
      obtain ⟨t, ht⟩ := hwho hne
      have heq : t = l.thread := hholds.elim (hfits.put.eq_of_holds ht.holds.1)
        (hfits.take.eq_of_holds ht.holds.2)
      exact hclear (heq ▸ ht)
    have hdoes := hfits.does hv hfaults hmove hpc hserves hset hclear
    have hlocked : (c.state.pc l.thread).HoldsPut ∨ (c.state.pc l.thread).HoldsTake →
        Does refuses a.state op r (d.state.counted f₀) := by
      intro hholds
      rwa [← hstate, hother hholds, Fifo.drop_zero] at hdoes
    rcases hmove.settles_holds hserves hset with hput | htake | ⟨key, hkey, rfl⟩
    · exact ⟨_, hlocked (.inl hput), 0, Nat.zero_le _, Fifo.drop_zero _, absurd rfl⟩
    · exact ⟨_, hlocked (.inr htake), 0, Nat.zero_le _, Fifo.drop_zero _, absurd rfl⟩
    · -- an `erase` that is refused without the lock may find a `clear` at work
      rw [hkey] at hserves hset
      obtain rfl := hserves
      cases hset
      exact ⟨a.state, .eraseRefused,
        h.state_step hpc hdoes.eq_of_refused fun hno => absurd hno hclear⟩

end Effect

include hhistory

/-- A call begins. -/
theorem Matches.call (hvalid : c.state.shared.queue.isValid_ = true)
    (hidle : a.phase l.thread = .idle) :
    ∃ b, Relation.ReflTransGen (Atomic.Step (Does refuses)) a b ∧ Matches f₀ d b := by
  have hp : c.state.pc l.thread = .idle := by
    have := h.phase l.thread
    rw [hidle] at this
    exact this
  have hq : p' = l.choice.op.start true ∧ d.state.shared.calls
      = Function.update c.state.shared.calls l.thread (c.state.shared.calls l.thread + 1) := by
    rw [hp] at hmove
    generalize d.state.shared = sh' at hmove
    cases hmove
    exact ⟨by rw [hvalid], rfl⟩
  obtain ⟨rfl, hcalls⟩ := hq
  have hd : d.state.pc l.thread = l.choice.op.start true := by rw [hpc, Function.update_self]
  have hset : settles (c.state.pc l.thread) (l.choice.op.start true) = none := by
    rw [hp]
    cases l.choice.op <;> rfl
  refine ⟨_, .single (.call l.thread l.choice.op hidle), ?_, ?_, ?_, ?_⟩
  · rw [hhistory, Traced.events, if_pos hp, if_neg (by rw [hd]; exact l.choice.op.start_ne_idle),
      List.append_nil, hcalls, Function.update_self, h.history, h.calls]
  · rw [hcalls, ← h.calls]
  · exact h.phase_step hfits hmove hpc hresult _ l.choice.op.serves_start
  · refine h.state_step hpc (hfits.counted_eq hmove hpc hset ?_) ?_ <;> rw [hp]
    · exact id
    · exact False.elim

/-- A call that is settled goes on, or returns. -/
theorem Matches.finish {op : Op} {r : Result} (hdone : a.phase l.thread = .done op r) :
    ∃ b, Relation.ReflTransGen (Atomic.Step (Does refuses)) a b ∧ Matches f₀ d b := by
  obtain ⟨hsettled, rfl⟩ : (c.state.pc l.thread).Settled ∧ r = c.result l.thread := by
    have := h.phase l.thread
    rw [hdone] at this
    exact this
  have hne : c.state.pc l.thread ≠ .idle := fun hno => by rw [hno] at hsettled; exact hsettled
  obtain ⟨hset, hnext⟩ := hmove.settled hsettled
  have hd : d.state.pc l.thread = p' := by rw [hpc, Function.update_self]
  have hr : d.result l.thread = c.result l.thread := by
    rw [hresult, Traced.results_thread, hd, hset, Option.getD_none]
  have hcalls := hmove.calls_eq hne
  have hstate := h.state_step hpc (hfits.counted_eq hmove hpc hset hsettled.not_clearing)
    fun hno => absurd hno hsettled.not_clearing
  rcases hnext with hgoes | rfl
  · have hne' : p' ≠ .idle := fun hno => by rw [hno] at hgoes; exact hgoes
    refine ⟨a, .refl, ?_, h.calls.trans hcalls.symm, fun t => ?_, hstate⟩
    · rw [hhistory, Traced.events, if_neg hne, if_neg (by rw [hd]; exact hne'), h.history]
      exact (List.append_nil _).symm
    · have hphase := h.phase_step hfits hmove hpc hresult (a.phase l.thread)
        (by rw [hdone, hr]; exact ⟨hgoes, rfl⟩) t
      rwa [Function.update_eq_self] at hphase
  · refine ⟨_, .single (.ret l.thread hdone), ?_, h.calls.trans hcalls.symm,
      h.phase_step hfits hmove hpc hresult _ rfl, hstate⟩
    rw [hhistory, Traced.events, if_neg hne, if_pos hd, List.nil_append, ← hresult, hr, hcalls,
      h.history, h.calls]

/-- A call goes on, or takes effect; an `erase` may return with it. -/
theorem Matches.serve {op : Op} (hv : kd.isValid = true)
    (hfaults : ¬ refuses → StoreImpl.Faultless l.choice.answers)
    (htimed : ∀ w w', c.state.pc l.thread = .blocked w → p' = .timedOut w' → w.timed = true)
    (hcalled : a.phase l.thread = .called op) :
    ∃ b, Relation.ReflTransGen (Atomic.Step (Does refuses)) a b ∧ Matches f₀ d b := by
  have hserves : (c.state.pc l.thread).Serves c.state.shared.puts.getLast? op := by
    have := h.phase l.thread
    rw [hcalled] at this
    exact this
  have hne : c.state.pc l.thread ≠ .idle := fun hno => by rw [hno] at hserves; exact hserves
  have hd : d.state.pc l.thread = p' := by rw [hpc, Function.update_self]
  have hcalls := hmove.calls_eq hne
  have hsilent : p' ≠ .idle → d.history = c.history := by
    intro hne'
    rw [hhistory, Traced.events, if_neg hne, if_neg (by rw [hd]; exact hne')]
    exact List.append_nil _
  rcases hmove.serves htimed hserves with ⟨hset, hnext⟩ | ⟨r, hset, hnext⟩
  · have hne' : p' ≠ .idle := fun hno => by rw [hno] at hnext; exact hnext
    refine ⟨a, .refl, h.history.trans (hsilent hne').symm, h.calls.trans hcalls.symm, fun t => ?_,
      h.state_serves hfits hmove hpc hv hfaults hset⟩
    have hphase := h.phase_step hfits hmove hpc hresult (a.phase l.thread)
      (by rw [hcalled]; exact hnext) t
    rwa [Function.update_eq_self] at hphase
  · obtain ⟨g, hdoes, hstate⟩ := h.state_settles hfits hmove hpc hv hfaults hserves hset
    have heffect := Atomic.Step.effect l.thread hcalled hdoes
    have hr : d.result l.thread = r := by
      rw [hresult, Traced.results_thread, hd, hset, Option.getD_some]
    rcases hnext with hsettled | ⟨rfl, -⟩
    · have hne' : p' ≠ .idle := fun hno => by rw [hno] at hsettled; exact hsettled
      exact ⟨_, .single heffect, h.history.trans (hsilent hne').symm, h.calls.trans hcalls.symm,
        h.phase_step hfits hmove hpc hresult _ ⟨hsettled, hr.symm⟩, hstate⟩
    · refine ⟨_, .tail (.single heffect) (.ret l.thread (Function.update_self ..)), ?_,
        h.calls.trans hcalls.symm, ?_, hstate⟩
      · rw [hhistory, Traced.events, if_neg hne, if_pos hd, List.nil_append, ← hresult, hr, hcalls,
          h.history, h.calls]
      · rw [Function.update_idem]
        exact h.phase_step hfits hmove hpc hresult _ rfl

end Step

/-- **A step of a queue** is followed by the atomic object. -/
theorem Matches.step {refuses : Prop} (h : Matches f₀ c a) (hfits : Fits kd f₀ c.state)
    (hvalid : c.state.shared.queue.isValid_ = true) (hv : kd.isValid = true)
    (hfaults : ¬ refuses → StoreImpl.Faultless l.choice.answers) (hs : c.Step l d) :
    ∃ b, Relation.ReflTransGen (Atomic.Step (Does refuses)) a b ∧ Matches f₀ d b := by
  obtain ⟨hstep, hresult, hhistory⟩ := hs.inv
  obtain ⟨⟨p', sh'⟩, hexec, heq⟩ := Option.map_eq_some_iff.mp hstep
  have hmove : Move l.thread l.choice c.state.shared (c.state.pc l.thread) p' d.state.shared := by
    rw [← heq]
    exact exec_move hexec
  have hpc : d.state.pc = Function.update c.state.pc l.thread p' := by rw [← heq]
  cases hphase : a.phase l.thread with
  | idle => exact h.call hfits hmove hpc hresult hhistory hvalid hphase
  | done op r => exact h.finish hfits hmove hpc hresult hhistory hphase
  | called op =>
    refine h.serve hfits hmove hpc hresult hhistory hv hfaults (fun w w' hp hp' => ?_) hphase
    rw [hp, hp'] at hexec
    exact exec_timedOut hexec

/-! ## Several queues on one store -/

/-- The threads of a queue, with another store. -/
def State.on (x : State T) (s : StoreImpl) : State T :=
  { x with shared := { x.shared with store := s } }

@[inherit_doc State.on] def Traced.on (c : Traced T) (s : StoreImpl) : Traced T :=
  { c with state := c.state.on s }

omit [DecidableEq T] in
/-- The store may change in whatever leaves the Kind of the queue. -/
theorem Fits.on {x : State T} (h : Fits kd f₀ x) {s : StoreImpl} {db db' : Db}
    (hopen : x.shared.store.OpenWith db) (hopen' : s.OpenWith db')
    (hdata : db'.data kd.handle = db.data kd.handle)
    (hover : db'.overwritten kd.handle = db.overwritten kd.handle) : Fits kd f₀ (x.on s) := by
  obtain ⟨db₁, hopen₁, hb⟩ := h.book
  obtain rfl := hopen.db_eq hopen₁.txnDb
  exact { h with book := ⟨db', hopen', { hb with stored := hb.stored.of_eq hdata hover }⟩ }

omit [DecidableEq T] in
/-- A commit leaves every other family. -/
theorem Commit.leaves {x y : State T} {db db' : Db} (h : Commit kd f₀ x y db db') {k : Handle}
    (hk : k ≠ kd.handle) : db'.data k = db.data k ∧ db'.overwritten k = db.overwritten k := by
  cases h with
  | nothing _ _ hdb => exact ⟨by rw [hdb.data], by rw [hdb.overwritten]⟩
  | put _ _ _ _ hw | singleDelete _ _ _ _ hw =>
    exact ⟨by rw [hw.data, Db.apply_data_of_ne _ hk],
      by rw [hw.overwritten, Db.apply_overwritten_of_ne _ hk]⟩

/-- The queues of a store. The store that each of them carries is not used. -/
structure Several (I T : Type) where
  store : StoreImpl
  queue : I → Traced T

namespace Several

variable {I : Type}

/-- The queue `i` on the store. -/
def queueAt (x : Several I T) (i : I) : Traced T := (x.queue i).on x.store

omit [DecidableEq T] in
/-- Queue objects that no thread uses yet. -/
def start (T : Type) (q : I → KueueImpl) (s : StoreImpl) : Several I T :=
  ⟨s, fun i => Traced.start T (q i) s⟩

variable [DecidableEq I]

/-- A thread takes a step on a queue. -/
def next (x : Several I T) (l : I × Label T) : Option (Several I T) :=
  ((x.queueAt l.1).next l.2).map fun c => ⟨c.state.shared.store, Function.update x.queue l.1 c⟩

def Step (x : Several I T) (l : I × Label T) (y : Several I T) : Prop := x.next l = some y

theorem Step.inv {x y : Several I T} {l : I × Label T} (h : x.Step l y) :
    (x.queueAt l.1).Step l.2 (y.queueAt l.1) ∧
      ∀ j ≠ l.1, y.queueAt j = (x.queueAt j).on (y.queueAt l.1).state.shared.store := by
  obtain ⟨c, hc, rfl⟩ := Option.map_eq_some_iff.mp h
  have hself : (⟨c.state.shared.store, Function.update x.queue l.1 c⟩ : Several I T).queueAt l.1 = c := by
    show (Function.update x.queue l.1 c l.1).on _ = c
    rw [Function.update_self]
    rfl
  refine ⟨by rw [hself]; exact hc, fun j hj => ?_⟩
  show (Function.update x.queue l.1 c j).on _ = _
  rw [hself, Function.update_of_ne hj]
  rfl

/-- What the clients keep to on every queue, and what RocksDB refuses. -/
structure Careful (refuses : Prop) (x : Several I T) (l : I × Label T) : Prop where
  orderly : Orderly (x.queueAt l.1).state l.2
  noOverflow : NoOverflow (x.queueAt l.1).state l.2
  faults : ¬ refuses → StoreImpl.Faultless l.2.choice.answers

/-- The invariant of the queues: each has its Kind to itself. -/
structure Sound (kd : I → KindImpl) (f₀ : I → Fifo) (x : Several I T) : Prop where
  fits : ∀ i, Fits (kd i) (f₀ i) (x.queueAt i).state
  valid : ∀ i, (x.queueAt i).state.shared.queue.isValid_ = true

variable {kd : I → KindImpl} {f₀ : I → Fifo} {x y : Several I T} {l : I × Label T} {refuses : Prop}

/-- **A step on one queue** leaves the others. -/
theorem Sound.step (h : Sound kd f₀ x) (hkinds : ∀ i j, (kd i).handle = (kd j).handle → i = j)
    (hok : Careful refuses x l) (hs : x.Step l y) : Sound kd f₀ y := by
  obtain ⟨hone, hothers⟩ := hs.inv
  obtain ⟨hstep, -, -⟩ := hone.inv
  obtain ⟨p', hmove, -⟩ := hstep.move
  constructor
  · intro j
    by_cases hj : j = l.1
    · subst hj
      exact (h.fits _).step hok.orderly hok.noOverflow hstep
    · obtain ⟨db, db', hopen, hopen', -, hcommit⟩ := (h.fits l.1).commit hmove
      obtain ⟨hdata, hover⟩ := hcommit.leaves fun hk => hj (hkinds _ _ hk)
      rw [hothers j hj]
      exact (h.fits j).on hopen hopen' hdata hover
  · intro j
    by_cases hj : j = l.1
    · subst hj
      rw [hmove.valid_eq]
      exact h.valid _
    · rw [hothers j hj]
      exact h.valid j

omit [DecidableEq T] [DecidableEq I] in
/-- Queue objects that represent their Kinds. -/
theorem Sound.start {q : I → KueueImpl} {s : StoreImpl}
    (hrep : ∀ i, KueueImpl.Rep (kd i) (q i, s) (f₀ i)) (htop : ∀ i, (f₀ i).top ≤ topKey)
    (hlen : ∀ i, (f₀ i).msgs.length < 2 ^ 63) : Sound kd f₀ (start T q s) where
  fits i := Fits.start (hrep i) (htop i) (hlen i)
  valid i := (hrep i).valid

end Several

end Librocks.Threads
