import Librocks.Common.Linearizable
import Librocks.Common.Mutex

/-!
# Objects behind one lock

The methods of an object (`Method`) hold one lock for all of their work, or they are a single step and
do without it. What is done under the lock is a sequence of steps (`Critical`), and the other threads go
on between them. `Monitored` is the object with the threads that call it.

Such an object is linearizable (`Monitored.linearizes`), with a method run without interruption as the
specification, if its methods return, and if a step without the lock makes no difference to the steps of
a method that has begun (`Tolerates`). A method takes effect with its first step: it is the one that may
decide what the methods without the lock find.

Some threads may never go on, one of them with half of its work done. `Monitored.interrupted` says what is
known then: the state lies between the one before that method and the one after it, in any order in which
all steps go forward (`Onward`).
-/

namespace Librocks

/-! ## Critical sections -/

/-- Steps on a state, each of them chosen by what the ones before it found. -/
inductive Critical (σ ε : Type) (R : Type) : Type 1
  | done (r : R)
  | step {X : Type} (f : σ → Except ε (X × σ)) (k : X → Critical σ ε R)

namespace Critical

variable {σ ε R S : Type}

/-- All the steps, without interruption. -/
def run : Critical σ ε R → σ → Except ε (R × σ)
  | .done r, s => .ok (r, s)
  | .step f k, s => f s >>= fun x => (k x.1).run x.2

def bind (b : Critical σ ε R) (k : R → Critical σ ε S) : Critical σ ε S :=
  match b with
  | .done r => k r
  | .step f next => .step f fun x => (next x).bind k

instance : Monad (Critical σ ε) where
  pure := .done
  bind := bind

/-- A single step. -/
def act (f : σ → Except ε (R × σ)) : Critical σ ε R := .step f .done

/-- What a step reads. -/
def read (f : σ → R) : Critical σ ε R := act fun s => .ok (f s, s)

/-- What a step writes. -/
def write (f : σ → σ) : Critical σ ε Unit := act fun s => .ok ((), f s)

theorem run_bind (b : Critical σ ε R) (k : R → Critical σ ε S) (s : σ) :
    (b >>= k).run s = b.run s >>= fun x => (k x.1).run x.2 := by
  show (b.bind k).run s = _
  induction b generalizing s with
  | done r => rfl
  | step f next ih =>
    simp only [bind, run]
    cases f s with
    | error e => rfl
    | ok x => exact ih x.1 x.2

theorem run_act (f : σ → Except ε (R × σ)) (s : σ) : (act f).run s = f s := by
  simp only [act, run]
  cases f s <;> rfl

theorem run_read (f : σ → R) (s : σ) : (read f : Critical σ ε R).run s = .ok (f s, s) := rfl

theorem run_write (f : σ → σ) (s : σ) : (write f : Critical σ ε Unit).run s = .ok ((), f s) := rfl

/-- Every step of the section is a `P`. -/
def All (P : (X : Type) → (σ → Except ε (X × σ)) → Prop) : Critical σ ε R → Prop
  | .done _ => True
  | .step f k => P _ f ∧ ∀ x, (k x).All P

variable {P : (X : Type) → (σ → Except ε (X × σ)) → Prop}

theorem All.of_forall (h : ∀ X f, P X f) (b : Critical σ ε R) : b.All P := by
  induction b with
  | done r => trivial
  | step f k ih => exact ⟨h _ f, ih⟩

theorem All.act {g : σ → Except ε (R × σ)} (h : P R g) : (act g).All P := ⟨h, fun _ => trivial⟩

theorem All.bind {b : Critical σ ε R} {k : R → Critical σ ε S} (hb : b.All P) (hk : ∀ r, (k r).All P) :
    (b >>= k).All P := by
  show (b.bind k).All P
  induction b with
  | done r => exact hk r
  | step g next ih => exact ⟨hb.1, fun x => ih x (hb.2 x)⟩

/-- A step `f` of another thread that comes before a step `g` instead of after it makes no difference. -/
def Commutes (f : σ → Except ε (S × σ)) (g : σ → Except ε (R × σ)) : Prop :=
  ∀ s x s₁ y s', g s = .ok (x, s₁) → f s = .ok (y, s') → ∃ s₁', f s₁ = .ok (y, s₁') ∧ g s' = .ok (x, s₁')

/-- The step `f` of another thread can come anywhere in the section. -/
def Tolerates (f : σ → Except ε (S × σ)) (b : Critical σ ε R) : Prop := b.All fun _ g => Commutes f g

variable {f : σ → Except ε (S × σ)}

theorem Tolerates.run {b : Critical σ ε R} (h : b.Tolerates f) {s s₁ s' : σ} {r : R} {y : S}
    (hb : b.run s = .ok (r, s₁)) (hf : f s = .ok (y, s')) :
    ∃ s₁', f s₁ = .ok (y, s₁') ∧ b.run s' = .ok (r, s₁') := by
  induction b generalizing s s' with
  | done r =>
    cases hb
    exact ⟨s', hf, rfl⟩
  | step g k ih =>
    obtain ⟨⟨x, t⟩, hg, hrest⟩ := exists_of_bind_eq_ok hb
    obtain ⟨t', hft, hg'⟩ := h.1 s x t y s' hg hf
    obtain ⟨s₁', hfs, hrest'⟩ := ih x (h.2 x) hrest hft
    refine ⟨s₁', hfs, ?_⟩
    simp only [Critical.run, hg', ok_bind, hrest']

/-- A step goes forward in the order `rel`. -/
def Advances (rel : σ → σ → Prop) (f : σ → Except ε (R × σ)) : Prop :=
  ∀ s x s', f s = .ok (x, s') → rel s s'

theorem All.advances {rel : σ → σ → Prop} (hrefl : ∀ s, rel s s)
    (htrans : ∀ {s t u}, rel s t → rel t u → rel s u) {b : Critical σ ε R}
    (h : b.All fun _ => Advances rel) {s s' : σ} {r : R} (hrun : b.run s = .ok (r, s')) : rel s s' := by
  induction b generalizing s with
  | done r =>
    cases hrun
    exact hrefl _
  | step f k ih =>
    obtain ⟨⟨x, t⟩, hf, hrest⟩ := exists_of_bind_eq_ok hrun
    exact htrans (h.1 _ _ _ hf) (ih x (h.2 x) hrest)

end Critical

/-! ## The object -/

inductive Method (σ ε R : Type) : Type 1
  /-- One step, without the lock. -/
  | free (f : σ → Except ε (R × σ))
  /-- The lock is taken before the first step, and released after the last one. -/
  | locked {X : Type} (f : σ → Except ε (X × σ)) (k : X → Critical σ ε R)

/-- The method without interruption. -/
def Method.run {σ ε R : Type} : Method σ ε R → σ → Except ε (R × σ)
  | .free f => f
  | .locked f k => (Critical.step f k).run

/-- A section as a method. -/
def Critical.synchronized {σ ε R : Type} : Critical σ ε R → Method σ ε R
  | .done r => .free fun s => .ok (r, s)
  | .step f k => .locked f k

theorem Critical.run_synchronized {σ ε R : Type} (b : Critical σ ε R) (s : σ) :
    b.synchronized.run s = b.run s := by
  cases b <;> rfl

def Method.Locks {σ ε R : Type} : Method σ ε R → Prop
  | .free _ => False
  | .locked _ _ => True

/-- Every step of the method is a `P`. -/
def Method.All {σ ε R : Type} (P : (X : Type) → (σ → Except ε (X × σ)) → Prop) : Method σ ε R → Prop
  | .free f => P _ f
  | .locked f k => (Critical.step f k).All P

/-- The step `f` of another thread can come anywhere after the first step of the method. -/
def Method.Tolerates {σ ε R S : Type} (f : σ → Except ε (S × σ)) : Method σ ε R → Prop
  | .free _ => True
  | .locked _ k => ∀ x, (k x).Tolerates f

/-- Where a thread is. -/
inductive At (O σ ε R : Type) : Type 1
  | idle
  | called (op : O)
  /-- It has the lock, and has not taken a step. -/
  | entered (op : O)
  | inside (op : O) (b : Critical σ ε R)
  | left (op : O) (r : R)

def At.Holds {O σ ε R : Type} : At O σ ε R → Prop
  | .entered _ | .inside _ _ => True
  | _ => False

/-- An object, its lock and the threads that use it, with what they see. -/
structure Monitored (T O σ ε R : Type) : Type 1 where
  state : σ
  owner : Option T := none
  calls : T → ℕ := fun _ => 0
  pc : T → At O σ ε R := fun _ => .idle
  history : List (Visible T O R) := []

namespace Monitored

variable {T O σ ε R : Type} {method : O → Method σ ε R}

/-- The steps of a thread. -/
inductive Step [DecidableEq T] (method : O → Method σ ε R) (x : Monitored T O σ ε R) (t : T) :
    Monitored T O σ ε R → Prop
  | call (op : O) (h : x.pc t = .idle) :
      Step method x t { x with
        calls := Function.update x.calls t (x.calls t + 1)
        pc := Function.update x.pc t (.called op)
        history := x.history ++ [.call t (x.calls t + 1) op] }
  | free {op : O} {f : σ → Except ε (R × σ)} {r : R} {s : σ} (h : x.pc t = .called op)
      (hm : method op = .free f) (hf : f x.state = .ok (r, s)) :
      Step method x t { x with state := s, pc := Function.update x.pc t (.left op r) }
  | acquire {op : O} {X : Type} {f : σ → Except ε (X × σ)} {k : X → Critical σ ε R}
      (h : x.pc t = .called op) (hm : method op = .locked f k) (hfree : x.owner = none) :
      Step method x t { x with owner := some t, pc := Function.update x.pc t (.entered op) }
  | first {op : O} {X : Type} {f : σ → Except ε (X × σ)} {k : X → Critical σ ε R} {y : X} {s : σ}
      (h : x.pc t = .entered op) (hm : method op = .locked f k) (hf : f x.state = .ok (y, s)) :
      Step method x t { x with state := s, pc := Function.update x.pc t (.inside op (k y)) }
  | next {op : O} {X : Type} {f : σ → Except ε (X × σ)} {k : X → Critical σ ε R} {y : X} {s : σ}
      (h : x.pc t = .inside op (.step f k)) (hf : f x.state = .ok (y, s)) :
      Step method x t { x with state := s, pc := Function.update x.pc t (.inside op (k y)) }
  | release {op : O} {r : R} (h : x.pc t = .inside op (.done r)) :
      Step method x t { x with owner := none, pc := Function.update x.pc t (.left op r) }
  | ret {op : O} {r : R} (h : x.pc t = .left op r) :
      Step method x t { x with
        pc := Function.update x.pc t .idle
        history := x.history ++ [.ret t (x.calls t) r] }

/-- What makes an object linearizable. -/
structure Sound (method : O → Method σ ε R) (inv : σ → Prop) : Prop where
  returns : ∀ op s, inv s → ∃ r s', (method op).run s = .ok (r, s') ∧ inv s'
  tolerates : ∀ op f, method op = .free f → ∀ op', (method op').Tolerates f

/-- An order in which every step goes forward. -/
structure Onward (method : O → Method σ ε R) (rel : σ → σ → Prop) : Prop where
  refl : ∀ s, rel s s
  trans : ∀ {s t u}, rel s t → rel t u → rel s u
  step : ∀ op, (method op).All fun _ => Critical.Advances rel

/-- The order that says nothing. -/
theorem Onward.trivial (method : O → Method σ ε R) : Onward method fun _ _ => True where
  refl _ := True.intro
  trans _ _ := True.intro
  step op := by
    cases method op with
    | free f => exact fun _ _ _ _ => True.intro
    | locked f k => exact .of_forall (fun _ _ _ _ _ _ => True.intro) _

/-- The method as a sequential specification. -/
def Spec (method : O → Method σ ε R) (s : σ) (op : O) (r : R) (s' : σ) : Prop :=
  (method op).run s = .ok (r, s')

/-- What a method does as a whole goes forward. -/
theorem Onward.spec {rel : σ → σ → Prop} (h : Onward method rel) {op : O} {s s' : σ} {r : R}
    (hspec : Spec method s op r s') : rel s s' := by
  have hall := h.step op
  unfold Spec at hspec
  cases hm : method op with
  | free f =>
    rw [hm] at hall hspec
    exact hall _ _ _ hspec
  | locked f k =>
    rw [hm] at hall hspec
    exact Critical.All.advances h.refl h.trans hall hspec

/-- Calls that take one step each. -/
abbrev Legal (method : O → Method σ ε R) : σ → List (Point T O R) → σ → Prop :=
  Run fun s p s' => Spec method s p.op p.result s'

/-- The control point of a thread as the atomic object has it, with the state of the one in the
section and the state of the atomic object. -/
def InPhase (method : O → Method σ ε R) (s : σ) (sa : σ) : At O σ ε R → Phase O R → Prop
  | .idle, ph => ph = .idle
  | .called op, ph => ph = .called op
  | .entered op, ph => ph = .called op ∧ (method op).Locks
  | .inside op b, ph => ∃ r, ph = .done op r ∧ b.run s = .ok (r, sa) ∧
      ∀ op' f, method op' = .free f → b.Tolerates f
  | .left op r, ph => ph = .done op r

/-- What is known of the thread `t` in its section: its call took effect in the state `u`, and those that
took effect since then did without the lock. -/
def Begun (method : O → Method σ ε R) (rel : σ → σ → Prop) (s₀ : σ) (calls : T → ℕ)
    (points : List (Point T O R)) (s sa : σ) (t : T) : At O σ ε R → Prop
  | .inside op b => (b.All fun _ => Critical.Advances rel) ∧ ∃ before r after u,
      points = before ++ ⟨t, calls t, op, r⟩ :: after ∧ Legal method s₀ before u ∧
      Legal method u (⟨t, calls t, op, r⟩ :: after) sa ∧ rel u s ∧ ∀ p ∈ after, ¬ (method p.op).Locks
  | _ => True

/-- The atomic object `a` is where the threads of `x` are. -/
structure Matches (method : O → Method σ ε R) (inv : σ → Prop) (rel : σ → σ → Prop) (s₀ : σ)
    (x : Monitored T O σ ε R) (a : Atomic T O R σ) : Prop where
  history : a.history = x.history
  calls : a.calls = x.calls
  legal : Legal method s₀ a.points a.state
  mutex : Mutex At.Holds x.owner x.pc
  phase : ∀ t, InPhase method x.state a.state (x.pc t) (a.phase t)
  begun : ∀ t, Begun method rel s₀ x.calls a.points x.state a.state t (x.pc t)
  state : (∀ t op b, x.pc t ≠ .inside op b) → a.state = x.state
  inv : inv a.state

variable {inv : σ → Prop} {rel : σ → σ → Prop} {s₀ : σ} {x y : Monitored T O σ ε R} {a : Atomic T O R σ}
  {t : T}

/-- Outside of its section a thread has nothing to do with the state. -/
theorem InPhase.congr {s sa s' sa' : σ} {p : At O σ ε R} {ph : Phase O R}
    (h : InPhase method s sa p ph) (hp : ∀ op b, p ≠ .inside op b) : InPhase method s' sa' p ph := by
  cases p with
  | inside op b => exact absurd rfl (hp op b)
  | _ => exact h

theorem Begun.of_not_inside {calls : T → ℕ} {points : List (Point T O R)} {s sa : σ} {p : At O σ ε R}
    (hp : ∀ op b, p ≠ .inside op b) : Begun method rel s₀ calls points s sa t p := by
  cases p with
  | inside op b => exact absurd rfl (hp op b)
  | _ => trivial

/-- A step of another thread that may have come without the lock. -/
theorem Begun.later (hrel : Onward method rel) {calls calls' : T → ℕ}
    {points points' new : List (Point T O R)} {s sa s' sa' : σ} {p : At O σ ε R}
    (h : Begun method rel s₀ calls points s sa t p) (hcalls : calls' t = calls t)
    (hpoints : points' = points ++ new) (hs : rel s s')
    (hnew : Legal method sa new sa') (hfree : ∀ p ∈ new, ¬ (method p.op).Locks) :
    Begun method rel s₀ calls' points' s' sa' t p := by
  cases p with
  | inside op b =>
    obtain ⟨hall, before, r, after, u, rfl, hbefore, hsince, hu, hafter⟩ := h
    rw [← hcalls] at hpoints hsince
    refine ⟨hall, before, r, after ++ new, u, ?_, hbefore, hsince.append hnew, hrel.trans hu hs,
      fun p hp => ?_⟩
    · rw [hpoints, List.append_assoc, List.cons_append]
    · exact (List.mem_append.mp hp).elim (hafter p) (hfree p)
  | _ => trivial

namespace Matches

variable (h : Matches method inv rel s₀ x a)

include h

/-- While a thread has the lock no other is in a section. -/
theorem not_inside {p : At O σ ε R} (hp : x.pc t = p) (hholds : p.Holds) (u : T) (hu : u ≠ t) (op : O)
    (b : Critical σ ε R) : x.pc u ≠ .inside op b := by
  intro hin
  refine hu (h.mutex.eq_of_holds (t := u) (u := t) ?_ ?_)
  · rw [hin]
    exact trivial
  · rw [hp]
    exact hholds

/-- While nobody has the lock no thread is in a section. -/
theorem outside (howner : x.owner = none) (u : T) (op : O) (b : Critical σ ε R) :
    x.pc u ≠ .inside op b := by
  intro hu
  refine (howner ▸ h.mutex).not_holds_of_free (t := u) ?_
  rw [hu]
  exact trivial

/-- The state, and that of the atomic object, after a step without the lock. -/
theorem free_step {op : O} {f : σ → Except ε (R × σ)} (hm : method op = .free f) {r : R} {s : σ}
    (hf : f x.state = .ok (r, s)) : ∃ sa, f a.state = .ok (r, sa) ∧
      (∀ u, InPhase method s sa (x.pc u) (a.phase u)) ∧ ((∀ t op b, x.pc t ≠ .inside op b) → sa = s) := by
  by_cases hin : ∃ u op' b, x.pc u = .inside op' b
  · obtain ⟨u, op', b, hu⟩ := hin
    have hphase := h.phase u
    rw [hu] at hphase
    obtain ⟨r', hdone, hrun, htol⟩ := hphase
    obtain ⟨sa, hfa, hrun'⟩ := (htol op f hm).run hrun hf
    refine ⟨sa, hfa, fun v => ?_, fun hno => absurd hu (hno u op' b)⟩
    by_cases hv : v = u
    · subst hv
      rw [hu]
      exact ⟨r', hdone, hrun', htol⟩
    · exact (h.phase v).congr (h.not_inside hu trivial v hv)
  · have hno : ∀ t op b, x.pc t ≠ .inside op b := fun t op b ht => hin ⟨t, op, b, ht⟩
    refine ⟨s, ?_, fun v => (h.phase v).congr (hno v), fun _ => rfl⟩
    rw [h.state hno]
    exact hf

/-- While a method is under way, the state lies between the one before it and the one after it. -/
theorem between (hrel : Onward method rel) :
    ∃ before after u, a.points = before ++ after ∧ Legal method s₀ before u ∧
      Legal method u after a.state ∧ rel u x.state ∧ rel x.state a.state ∧
      ∀ p ∈ after, (method p.op).Locks → p.call = x.calls p.thread ∧ ∃ b, x.pc p.thread = .inside p.op b := by
  by_cases hin : ∃ t op b, x.pc t = .inside op b
  · obtain ⟨t, op, b, hp⟩ := hin
    have hbegun := h.begun t
    have hphase := h.phase t
    rw [hp] at hbegun hphase
    obtain ⟨hforward, before, r, after, u, hpoints, hbefore, hsince, hu, hafter⟩ := hbegun
    obtain ⟨_, -, hrun, -⟩ := hphase
    refine ⟨before, _, u, hpoints, hbefore, hsince, hu, hforward.advances hrel.refl hrel.trans hrun,
      fun p hp' hlocks => ?_⟩
    rcases List.mem_cons.mp hp' with rfl | hp'
    · exact ⟨rfl, b, hp⟩
    · exact absurd hlocks (hafter p hp')
  · have hno : ∀ t op b, x.pc t ≠ .inside op b := fun t op b ht => hin ⟨t, op, b, ht⟩
    refine ⟨a.points, [], a.state, (List.append_nil _).symm, h.legal, .nil _, ?_, ?_, by simp⟩
    all_goals
      rw [h.state hno]
      exact hrel.refl _

end Matches

variable [DecidableEq T]

/-- The phases after a step of the thread `t`. -/
theorem phase_update {s sa : σ} {p : At O σ ε R} {ph : Phase O R} (hph : InPhase method s sa p ph)
    (hothers : ∀ u, u ≠ t → InPhase method s sa (x.pc u) (a.phase u)) (u : T) :
    InPhase method s sa (Function.update x.pc t p u) (Function.update a.phase t ph u) := by
  by_cases hu : u = t
  · subst hu
    rw [Function.update_self, Function.update_self]
    exact hph
  · rw [Function.update_of_ne hu, Function.update_of_ne hu]
    exact hothers u hu

theorem begun_update {calls : T → ℕ} {points : List (Point T O R)} {s sa : σ} {p : At O σ ε R}
    (hp : Begun method rel s₀ calls points s sa t p)
    (hothers : ∀ u, u ≠ t → Begun method rel s₀ calls points s sa u (x.pc u)) (u : T) :
    Begun method rel s₀ calls points s sa u (Function.update x.pc t p u) :=
  (Function.forall_update_iff x.pc (p := fun u p => Begun method rel s₀ calls points s sa u p)).mpr
    ⟨hp, hothers⟩ u

/-- No thread was in a section if none is after a step of `t`, which was not. -/
theorem outside_of_update {p : At O σ ε R} (hp : ∀ op b, x.pc t ≠ .inside op b)
    (hno : ∀ u op b, Function.update x.pc t p u ≠ .inside op b) (u : T) (op : O) (b : Critical σ ε R) :
    x.pc u ≠ .inside op b := by
  by_cases hu : u = t
  · subst hu
    exact hp op b
  · have hno' := hno u op b
    rwa [Function.update_of_ne hu] at hno'

/-- **Every step is followed by the atomic object.** -/
theorem Matches.step (hs : Sound method inv) (hrel : Onward method rel) (h : Matches method inv rel s₀ x a)
    (hstep : Step method x t y) :
    ∃ b, Relation.ReflTransGen (Atomic.Step (Spec method)) a b ∧ Matches method inv rel s₀ y b := by
  have hphase := h.phase t
  have hmove : ∀ {p p' : At O σ ε R}, x.pc t = p → (p'.Holds ↔ p.Holds) →
      Mutex At.Holds x.owner (Function.update x.pc t p') :=
    fun hp hiff => h.mutex.move (.keep (by rw [hp]; exact hiff))
  have hrest : ∀ {p' : At O σ ε R}, (∀ op b, p' ≠ .inside op b) → ∀ u,
      Begun method rel s₀ x.calls a.points x.state a.state u (Function.update x.pc t p' u) :=
    fun hp' => begun_update (.of_not_inside hp') fun u _ => h.begun u
  cases hstep with
  | call op hp =>
    rw [hp] at hphase
    exact ⟨_, .single (.call t op hphase),
      { h with
        history := by rw [h.history, h.calls]
        calls := by rw [h.calls]
        mutex := hmove hp Iff.rfl
        phase := phase_update rfl fun u _ => h.phase u
        begun := begun_update (.of_not_inside (by simp)) fun u hu => (h.begun u).later hrel
          (Function.update_of_ne hu _ _) (List.append_nil _).symm (hrel.refl _) (.nil _) (by simp)
        state := fun hno => h.state (outside_of_update (by simp [hp]) hno) }⟩
  | @free op f r s hp hm hf =>
    rw [hp] at hphase
    obtain ⟨sa, hfa, hphases, hstate⟩ := h.free_step hm hf
    have hspec : Spec method a.state op r sa := by
      rw [Spec, hm]
      exact hfa
    obtain ⟨r', sa', hret, hinv⟩ := hs.returns op a.state h.inv
    obtain ⟨rfl, rfl⟩ := Prod.mk.inj (Except.ok.inj (hspec.symm.trans hret))
    have hforward := hrel.step op
    rw [hm] at hforward
    exact ⟨_, .single (.effect t hphase hspec),
      { h with
        legal := h.legal.append (.single hspec)
        begun := begun_update (.of_not_inside (by simp)) fun u _ => (h.begun u).later hrel rfl rfl
          (hforward _ _ _ hf) (.single hspec) (by simp [hm, Method.Locks])
        mutex := hmove hp Iff.rfl
        phase := phase_update rfl fun u _ => hphases u
        state := fun hno => hstate (outside_of_update (by simp [hp]) hno)
        inv := hinv }⟩
  | @acquire op X f k hp hm hfree =>
    rw [hp] at hphase
    have hsame : Function.update a.phase t (.called op) = a.phase := by
      rw [← hphase, Function.update_eq_self]
    refine ⟨a, .refl,
      { h with
        mutex := h.mutex.move ?_
        phase := ?_
        begun := hrest (by simp)
        state := fun hno => h.state (outside_of_update (by simp [hp]) hno) }⟩
    · rw [hfree]
      exact .acquire trivial
    · rw [← hsame]
      exact phase_update ⟨rfl, by rw [hm]; exact trivial⟩ fun u _ => h.phase u
  | @first op X f k x' s hp hm hf =>
    rw [hp] at hphase
    have houtside : ∀ u, u ≠ t → ∀ op b, x.pc u ≠ .inside op b := h.not_inside hp trivial
    have hstate : a.state = x.state := h.state fun u op' b hu => by
      by_cases ht : u = t
      · subst ht
        rw [hp] at hu
        cases hu
      · exact houtside u ht op' b hu
    obtain ⟨r, sa, hret, hinv⟩ := hs.returns op a.state h.inv
    have hrun' : (k x').run s = .ok (r, sa) := by
      have hrun := hret
      simp only [hm, Method.run, Critical.run, hstate, hf, ok_bind] at hrun
      exact hrun
    have htol : ∀ op' f', method op' = .free f' → (k x').Tolerates f' := by
      intro op' f' hm'
      have hlocked := hs.tolerates op' f' hm' op
      rw [hm] at hlocked
      exact hlocked x'
    have hforward := hrel.step op
    rw [hm] at hforward
    refine ⟨_, .single (.effect t hphase.1 hret),
      { h with
        legal := h.legal.append (.single hret)
        begun := begun_update ⟨hforward.2 x', a.points, r, [], a.state, by rw [h.calls], h.legal,
          .single hret, hstate ▸ hforward.1 _ _ _ hf, by simp⟩ fun u hu => .of_not_inside (houtside u hu)
        mutex := hmove hp Iff.rfl
        phase := phase_update ⟨r, rfl, hrun', htol⟩ fun u hu => (h.phase u).congr (houtside u hu)
        state := fun hno => absurd (Function.update_self t _ x.pc) (hno t op (k x'))
        inv := hinv }⟩
  | @next op X f k x' s hp hf =>
    have hbegun := h.begun t
    rw [hp] at hphase hbegun
    obtain ⟨r, hdone, hrun, htol⟩ := hphase
    obtain ⟨hforward, before, r', after, u, hpoints, hbefore, hsince, hu, hafter⟩ := hbegun
    have hrun' : (k x').run s = .ok (r, a.state) := by
      simp only [Critical.run, hf, ok_bind] at hrun
      exact hrun
    have hsame : Function.update a.phase t (.done op r) = a.phase := by
      rw [← hdone, Function.update_eq_self]
    refine ⟨a, .refl,
      { h with
        mutex := hmove hp Iff.rfl
        phase := ?_
        begun := begun_update ⟨hforward.2 x', before, r', after, u, hpoints, hbefore, hsince,
          hrel.trans hu (hforward.1 _ _ _ hf), hafter⟩
          fun v hv => .of_not_inside (h.not_inside hp trivial v hv)
        state := fun hno => absurd (Function.update_self t _ x.pc) (hno t op (k x')) }⟩
    rw [← hsame]
    exact phase_update ⟨r, rfl, hrun', fun op' f' hm' => (htol op' f' hm').2 x'⟩
      fun u hu => (h.phase u).congr (h.not_inside hp trivial u hu)
  | @release op r hp =>
    rw [hp] at hphase
    obtain ⟨r', hdone, hrun, -⟩ := hphase
    obtain ⟨rfl, hstate⟩ := Prod.mk.inj (Except.ok.inj hrun)
    have hsame : Function.update a.phase t (.done op r) = a.phase := by
      rw [← hdone, Function.update_eq_self]
    refine ⟨a, .refl,
      { h with
        mutex := h.mutex.move (.release (by rw [hp]; exact trivial) id)
        phase := ?_
        begun := hrest (by simp)
        state := fun _ => hstate.symm }⟩
    rw [← hsame]
    exact phase_update rfl fun u _ => h.phase u
  | @ret op r hp =>
    rw [hp] at hphase
    exact ⟨_, .single (.ret t hphase),
      { h with
        history := by rw [h.history, h.calls]
        mutex := hmove hp Iff.rfl
        phase := phase_update rfl fun u _ => h.phase u
        begun := hrest (by simp)
        state := fun hno => h.state (outside_of_update (by simp [hp]) hno) }⟩

/-- **The threads go on.** If a thread is in a call, one of those in a call can take a step. -/
theorem Matches.goes_on (hs : Sound method inv) (h : Matches method inv rel s₀ x a) (ht : x.pc t ≠ .idle) :
    ∃ u y, x.pc u ≠ .idle ∧ Step method x u y := by
  cases howner : x.owner with
  | some u =>
    -- the thread that has the lock
    have hholds := (h.mutex u).mp howner
    have hphase := h.phase u
    cases hp : x.pc u with
    | entered op =>
      have hstate : a.state = x.state := h.state fun v op' b hv => by
        by_cases hvu : v = u
        · subst hvu
          rw [hp] at hv
          cases hv
        · exact h.not_inside hp trivial v hvu op' b hv
      rw [hp] at hphase
      obtain ⟨r, s', hret, -⟩ := hs.returns op a.state h.inv
      cases hm : method op with
      | free f =>
        have hlocks := hphase.2
        rw [hm] at hlocks
        exact hlocks.elim
      | locked f k =>
        rw [hm, hstate] at hret
        obtain ⟨z, hz, -⟩ := exists_of_bind_eq_ok hret
        exact ⟨u, _, by simp [hp], .first hp hm hz⟩
    | inside op b =>
      rw [hp] at hphase
      obtain ⟨r, -, hrun, -⟩ := hphase
      cases b with
      | done r' => exact ⟨u, _, by simp [hp], .release hp⟩
      | step f k =>
        obtain ⟨z, hz, -⟩ := exists_of_bind_eq_ok hrun
        exact ⟨u, _, by simp [hp], .next hp hz⟩
    | idle | called op | left op r =>
      rw [hp] at hholds
      exact hholds.elim
  | none =>
    have houtside := h.outside howner
    cases hp : x.pc t with
    | idle => exact absurd hp ht
    | called op =>
      obtain ⟨r, s', hret, -⟩ := hs.returns op a.state h.inv
      cases hm : method op with
      | free f =>
        rw [hm, h.state houtside] at hret
        exact ⟨t, _, by simp [hp], .free hp hm hret⟩
      | locked f k => exact ⟨t, _, by simp [hp], .acquire hp hm howner⟩
    | entered op =>
      refine absurd ?_ ((howner ▸ h.mutex).not_holds_of_free (t := t))
      rw [hp]
      exact trivial
    | inside op b => exact absurd hp (houtside t op b)
    | left op r => exact ⟨t, _, by simp [hp], .ret hp⟩

/-- The object before any call. -/
def start (s₀ : σ) : Monitored T O σ ε R where
  state := s₀

/-- A call that has returned is one that its thread has left. -/
theorem returned_le {ts : List T} (hrun : Run (Step method) (start s₀) ts x) (t : T) (n : ℕ) (r : R)
    (hret : .ret t n r ∈ x.history) : n ≤ x.calls t ∧ (n = x.calls t → x.pc t = .idle) := by
  suffices h : ∀ t n r, .ret t n r ∈ x.history → n ≤ x.calls t ∧ (n = x.calls t → x.pc t = .idle) from
    h t n r hret
  refine hrun.invariant (P := fun x => ∀ t n r, .ret t n r ∈ x.history →
    n ≤ x.calls t ∧ (n = x.calls t → x.pc t = .idle)) ?_ fun t n r hr => absurd hr List.not_mem_nil
  intro x u y hx hstep t n r hr
  -- a step of `u` inside of its call, after which it is at `p`
  have hinside : ∀ p, x.pc u ≠ .idle → .ret t n r ∈ x.history →
      n ≤ x.calls t ∧ (n = x.calls t → Function.update x.pc u p t = .idle) := by
    intro p hp hold
    obtain ⟨hle, hidle⟩ := hx t n r hold
    refine ⟨hle, fun hn => ?_⟩
    have htu : t ≠ u := by
      rintro rfl
      exact hp (hidle hn)
    rw [Function.update_of_ne htu]
    exact hidle hn
  cases hstep with
  | call op hp =>
    have hold : .ret t n r ∈ x.history := by simpa using hr
    obtain ⟨hle, hidle⟩ := hx t n r hold
    by_cases htu : t = u
    · subst htu
      simp only [Function.update_self]
      exact ⟨by omega, fun hn => absurd hn (by omega)⟩
    · simp only [Function.update_of_ne htu]
      exact ⟨hle, hidle⟩
  | free hp | acquire hp | first hp | next hp | release hp => exact hinside _ (by rw [hp]; simp) hr
  | ret hp =>
    rcases List.mem_append.mp hr with hold | hnew
    · exact hinside _ (by rw [hp]; simp) hold
    · obtain ⟨rfl, rfl, rfl⟩ : t = u ∧ n = x.calls u ∧ r = _ := by simpa using hnew
      exact ⟨le_rfl, fun _ => Function.update_self ..⟩

/-- **An object whose threads may stop anywhere.** The calls can be put in a sequence of calls that take one
step each, and the last of them with the lock, if it has not returned, is the only one of which the state
may have less than all. -/
theorem interrupted (hs : Sound method inv) (hrel : Onward method rel) (hinv : inv s₀) {ts : List T}
    (hrun : Run (Step method) (start s₀) ts x) :
    ∃ s before after u, Linearizes (Spec method) s₀ s x.history (before ++ after) ∧
      Legal method s₀ before u ∧ Legal method u after s ∧ rel u x.state ∧ rel x.state s ∧
      (x.owner = none → x.state = s) ∧
      (∀ p ∈ after, (method p.op).Locks → p.call = x.calls p.thread ∧ ∃ b, x.pc p.thread = .inside p.op b) ∧
      ∀ t, x.pc t ≠ .idle → ∃ u y, x.pc u ≠ .idle ∧ Step method x u y := by
  have hfollows : Atomic.Follows (Spec method) (Step method) (Matches (T := T) method inv rel s₀) :=
    fun _ _ _ _ hm hstep => hm.step hs hrel hstep
  have hstart : Matches method inv rel s₀ (start s₀) (Atomic.start T O R s₀) :=
    { history := rfl, calls := rfl, legal := .nil _, phase := fun _ => rfl, begun := fun _ => trivial
      state := fun _ => rfl, inv := hinv
      mutex := fun t => ⟨fun hno => (by cases hno), fun hno => hno.elim⟩ }
  obtain ⟨a, ha, hlin⟩ := hfollows.linearizes hrun hstart
  obtain ⟨before, after, u, hpoints, hbefore, hsince, hu, hs', hafter⟩ := ha.between hrel
  rw [ha.history, hpoints] at hlin
  exact ⟨a.state, before, after, u, hlin, hbefore, hsince, hu, hs',
    fun howner => (ha.state (ha.outside howner)).symm, hafter, fun t ht => ha.goes_on hs ht⟩

/-- **An object behind a lock is linearizable.** While nobody has the lock, the state is the one that the
sequence of calls leads to. -/
theorem linearizes (hs : Sound method inv) (hinv : inv s₀) {ts : List T}
    (hrun : Run (Step method) (start s₀) ts x) :
    ∃ s lin, Linearizes (Spec method) s₀ s x.history lin ∧
      (x.owner = none → x.state = s) ∧
      ∀ t, x.pc t ≠ .idle → ∃ u y, x.pc u ≠ .idle ∧ Step method x u y := by
  obtain ⟨s, before, after, -, hlin, -, -, -, -, hstate, -, hgo⟩ :=
    interrupted hs (.trivial method) hinv hrun
  exact ⟨s, before ++ after, hlin, hstate, hgo⟩

end Monitored

end Librocks
