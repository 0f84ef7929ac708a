import Librocks.Common.Run
import Mathlib.Logic.Function.Basic
import Mathlib.Logic.Relation

/-!
# Linearizability

An object is shared by threads. A client sees when a call begins and when it returns, and nothing in
between; such a sequence of events is a history. An operation has a sequential specification
`spec s op r s'`: from the state `s` it may answer `r` and leave `s'`.

`Linearizes` says that a history could be one of calls that take no time: the calls can be put in a
sequence that the specification allows, and wherever the history is cut, the sequence can be cut so
that what had returned is before the cut and what is before the cut had been called.

To prove it of an implementation, let the implementation follow the *atomic object* `Atomic`, whose
calls take effect in one step of their own, somewhere between their first and their last event.
Histories of the atomic object are linearizable (`Atomic.linearizes`), so those of what follows it are
(`Atomic.Follows.linearizes`).
-/

namespace Librocks

variable {T O R S σ ι : Type*}

/-- What a client sees of the call number `n` of a thread. -/
inductive Visible (T O R : Type*)
  | call (t : T) (n : ℕ) (op : O)
  | ret (t : T) (n : ℕ) (r : R)
  deriving DecidableEq

/-- A call that took effect, and its result. -/
structure Point (T O R : Type*) where
  thread : T
  call : ℕ
  op : O
  result : R
  deriving DecidableEq

/-- The points `lin` are a sequential run of the specification from `s₀` to `s` that explains the
history `h`. -/
structure Linearizes (spec : S → O → R → S → Prop) (s₀ s : S) (h : List (Visible T O R))
    (lin : List (Point T O R)) : Prop where
  legal : Run (fun s p s' => spec s p.op p.result s') s₀ lin s
  /-- No call takes effect twice. -/
  once : (lin.map fun p => (p.thread, p.call)).Nodup
  /-- No other calls than those that were made. -/
  called : ∀ p ∈ lin, .call p.thread p.call p.op ∈ h
  /-- What returned before a cut precedes what was called after it. -/
  cuts : ∀ h₁ h₂, h = h₁ ++ h₂ → ∃ l₁ l₂, lin = l₁ ++ l₂ ∧
    (∀ t n r, .ret t n r ∈ h₁ → ∃ p ∈ l₁, p.thread = t ∧ p.call = n ∧ p.result = r) ∧
    ∀ p ∈ l₁, .call p.thread p.call p.op ∈ h₁

theorem Linearizes.mono {spec spec' : S → O → R → S → Prop} {s₀ s : S} {h : List (Visible T O R)}
    {lin : List (Point T O R)} (hsub : ∀ s op r s', spec s op r s' → spec' s op r s')
    (hlin : Linearizes spec s₀ s h lin) : Linearizes spec' s₀ s h lin :=
  { hlin with legal := hlin.legal.mono fun _ _ _ => hsub _ _ _ _ }

/-! ## The atomic object -/

/-- How far a thread is: between two calls, in a call that has not taken effect, or in one that has. -/
inductive Phase (O R : Type*)
  | idle
  | called (op : O)
  | done (op : O) (r : R)
  deriving DecidableEq

/-- The object, its threads, and what happened. -/
structure Atomic (T O R S : Type*) where
  state : S
  calls : T → ℕ
  phase : T → Phase O R
  history : List (Visible T O R) := []
  points : List (Point T O R) := []

namespace Atomic

variable [DecidableEq T] {spec : S → O → R → S → Prop}

/-- The steps of the atomic object. -/
inductive Step (spec : S → O → R → S → Prop) (x : Atomic T O R S) : Atomic T O R S → Prop
  | call (t : T) (op : O) (h : x.phase t = .idle) :
      Step spec x { x with
        calls := Function.update x.calls t (x.calls t + 1)
        phase := Function.update x.phase t (.called op)
        history := x.history ++ [.call t (x.calls t + 1) op] }
  | effect (t : T) {op : O} {r : R} {s : S} (h : x.phase t = .called op)
      (hspec : spec x.state op r s) :
      Step spec x { x with
        state := s
        phase := Function.update x.phase t (.done op r)
        points := x.points ++ [⟨t, x.calls t, op, r⟩] }
  | ret (t : T) {op : O} {r : R} (h : x.phase t = .done op r) :
      Step spec x { x with
        phase := Function.update x.phase t .idle
        history := x.history ++ [.ret t (x.calls t) r] }

/-- The object before any call. -/
def start (T O R : Type*) (s₀ : S) : Atomic T O R S where
  state := s₀
  calls := fun _ => 0
  phase := fun _ => .idle

/-- What is known of a thread in each phase. -/
def Known (x : Atomic T O R S) (t : T) : Phase O R → Prop
  | .idle => True
  | .called op => .call t (x.calls t) op ∈ x.history ∧
      ∀ p ∈ x.points, p.thread = t → p.call < x.calls t
  | .done op r => ⟨t, x.calls t, op, r⟩ ∈ x.points

/-- The invariant of the atomic object. -/
structure Inv (spec : S → O → R → S → Prop) (s₀ : S) (x : Atomic T O R S) : Prop
    extends Linearizes spec s₀ x.state x.history x.points where
  returned : ∀ t n r, .ret t n r ∈ x.history →
    ∃ p ∈ x.points, p.thread = t ∧ p.call = n ∧ p.result = r
  calls : ∀ p ∈ x.points, p.call ≤ x.calls p.thread
  known : ∀ t, x.Known t (x.phase t)

variable {s₀ : S} {x y : Atomic T O R S}

omit [DecidableEq T] in
theorem Inv.start : Inv spec s₀ (start T O R s₀) where
  legal := .nil _
  once := List.nodup_nil
  cuts h₁ h₂ h := by
    obtain ⟨rfl, rfl⟩ := List.append_eq_nil_iff.mp h.symm
    exact ⟨[], [], rfl, fun _ _ _ hr => absurd hr List.not_mem_nil,
      fun _ hp => absurd hp List.not_mem_nil⟩
  called _ hp := absurd hp List.not_mem_nil
  returned _ _ _ hr := absurd hr List.not_mem_nil
  calls _ hp := absurd hp List.not_mem_nil
  known _ := trivial

omit [DecidableEq T] in
/-- One more event: the last cut has all points before it. -/
theorem Inv.cuts_concat (h : Inv spec s₀ x) (e : Visible T O R)
    (he : ∀ t n r, e = .ret t n r → ∃ p ∈ x.points, p.thread = t ∧ p.call = n ∧ p.result = r)
    (h₁ h₂ : List (Visible T O R)) (heq : x.history ++ [e] = h₁ ++ h₂) :
    ∃ l₁ l₂, x.points = l₁ ++ l₂ ∧
      (∀ t n r, .ret t n r ∈ h₁ → ∃ p ∈ l₁, p.thread = t ∧ p.call = n ∧ p.result = r) ∧
      ∀ p ∈ l₁, .call p.thread p.call p.op ∈ h₁ := by
  rcases List.eq_nil_or_concat h₂ with rfl | ⟨h₂', e', rfl⟩
  · rw [List.append_nil] at heq
    subst heq
    refine ⟨x.points, [], (List.append_nil _).symm, fun t n r hr => ?_, fun p hp => ?_⟩
    · rcases List.mem_append.mp hr with hold | hnew
      · exact h.returned t n r hold
      · exact he t n r (List.mem_singleton.mp hnew).symm
    · exact List.mem_append_left _ (h.called p hp)
  · rw [List.concat_eq_append, ← List.append_assoc] at heq
    exact h.cuts h₁ h₂' (List.append_inj_left' heq rfl)

omit [DecidableEq T] in
/-- The phases of the other threads survive a step. -/
theorem Known.mono {t : T} {ph : Phase O R} (h : x.Known t ph) (hcalls : y.calls t = x.calls t)
    (hhistory : ∀ e ∈ x.history, e ∈ y.history) (hpoints : ∀ p ∈ x.points, p ∈ y.points)
    (hnew : ∀ p ∈ y.points, p.thread = t → p ∈ x.points) : y.Known t ph := by
  cases ph with
  | idle => trivial
  | called op =>
    refine ⟨?_, fun p hp ht => ?_⟩
    · rw [hcalls]
      exact hhistory _ h.1
    · rw [hcalls]
      exact h.2 p (hnew p hp ht) ht
  | done op r =>
    have hpoint : ⟨t, x.calls t, op, r⟩ ∈ x.points := h
    show ⟨t, y.calls t, op, r⟩ ∈ y.points
    rw [hcalls]
    exact hpoints _ hpoint

/-- **One step.** -/
theorem Inv.step (h : Inv spec s₀ x) (hs : Step spec x y) : Inv spec s₀ y := by
  cases hs with
  | call t op hidle =>
    have hmem : ∀ e ∈ x.history, e ∈ x.history ++ [.call t (x.calls t + 1) op] :=
      fun _ he => List.mem_append_left _ he
    refine { legal := h.legal, once := h.once, cuts := h.cuts_concat _ fun _ _ _ hno => ?_,
             returned := fun u n r hr => ?_, called := fun p hp => hmem _ (h.called p hp),
             calls := fun p hp => ?_, known := fun u => ?_ }
    · cases hno
    · rcases List.mem_append.mp hr with hold | hnew
      · exact h.returned u n r hold
      · cases List.mem_singleton.mp hnew
    · refine (h.calls p hp).trans ?_
      show x.calls p.thread ≤ Function.update x.calls t (x.calls t + 1) p.thread
      by_cases hp' : p.thread = t
      · rw [hp', Function.update_self]
        exact Nat.le_succ _
      · rw [Function.update_of_ne hp']
    · show Known _ u (Function.update x.phase t (.called op) u)
      by_cases hu : u = t
      · subst hu
        rw [Function.update_self]
        refine ⟨?_, fun p hp hp' => ?_⟩
        · simp
        · have := h.calls p hp
          rw [hp'] at this
          simpa using Nat.lt_succ_of_le this
      · rw [Function.update_of_ne hu]
        exact (h.known u).mono (Function.update_of_ne hu _ _) hmem (fun _ hp => hp) fun _ hp _ => hp
  | effect t hcalled hspec =>
    rename_i op r s
    have hknown := h.known t
    rw [hcalled] at hknown
    have hmem : ∀ p ∈ x.points, p ∈ x.points ++ [⟨t, x.calls t, op, r⟩] :=
      fun _ hp => List.mem_append_left _ hp
    refine { legal := h.legal.append (.single hspec), once := ?_, called := fun p hp => ?_,
             cuts := fun h₁ h₂ heq => ?_, returned := fun u n r' hr => ?_, calls := fun p hp => ?_,
             known := fun u => ?_ }
    · rw [List.map_append, List.nodup_append]
      refine ⟨h.once, List.nodup_singleton _, fun a ha b hb => ?_⟩
      obtain ⟨p, hp, rfl⟩ := List.mem_map.mp ha
      obtain rfl := List.mem_singleton.mp hb
      intro heq
      obtain ⟨ht, hn⟩ := Prod.mk.inj heq
      exact absurd hn (Nat.ne_of_lt (hknown.2 p hp ht))
    · rcases List.mem_append.mp hp with hold | hnew
      · exact h.called p hold
      · obtain rfl := List.mem_singleton.mp hnew
        exact hknown.1
    · obtain ⟨l₁, l₂, hl, hret, hcall⟩ := h.cuts h₁ h₂ heq
      exact ⟨l₁, l₂ ++ [⟨t, x.calls t, op, r⟩], by rw [hl, List.append_assoc], hret, hcall⟩
    · obtain ⟨p, hp, hpt⟩ := h.returned u n r' hr
      exact ⟨p, hmem p hp, hpt⟩
    · rcases List.mem_append.mp hp with hold | hnew
      · exact h.calls p hold
      · obtain rfl := List.mem_singleton.mp hnew
        exact le_rfl
    · show Known _ u (Function.update x.phase t (.done op r) u)
      by_cases hu : u = t
      · subst hu
        rw [Function.update_self]
        exact List.mem_append_right _ (List.mem_singleton_self _)
      · rw [Function.update_of_ne hu]
        refine (h.known u).mono rfl (fun _ he => he) hmem fun p hp hpu => ?_
        rcases List.mem_append.mp hp with hold | hnew
        · exact hold
        · obtain rfl := List.mem_singleton.mp hnew
          exact absurd hpu.symm hu
  | ret t hdone =>
    rename_i op r
    have hknown := h.known t
    rw [hdone] at hknown
    have hlast : ∃ p ∈ x.points, p.thread = t ∧ p.call = x.calls t ∧ p.result = r :=
      ⟨_, hknown, rfl, rfl, rfl⟩
    have hmem : ∀ e ∈ x.history, e ∈ x.history ++ [.ret t (x.calls t) r] :=
      fun _ he => List.mem_append_left _ he
    refine { legal := h.legal, once := h.once, cuts := h.cuts_concat _ fun u n r' heq => ?_,
             returned := fun u n r' hr => ?_, called := fun p hp => hmem _ (h.called p hp),
             calls := h.calls, known := fun u => ?_ }
    · cases heq
      exact hlast
    · rcases List.mem_append.mp hr with hold | hnew
      · exact h.returned u n r' hold
      · cases List.mem_singleton.mp hnew
        exact hlast
    · show Known _ u (Function.update x.phase t .idle u)
      by_cases hu : u = t
      · subst hu
        rw [Function.update_self]
        trivial
      · rw [Function.update_of_ne hu]
        exact (h.known u).mono rfl hmem (fun _ hp => hp) fun _ hp _ => hp

/-- **Histories of the atomic object are linearizable.** -/
theorem linearizes (h : Relation.ReflTransGen (Step spec) (start T O R s₀) x) :
    Linearizes spec s₀ x.state x.history x.points := by
  refine Inv.toLinearizes ?_
  induction h with
  | refl => exact .start
  | tail _ hs ih => exact ih.step hs

/-! ## Following the atomic object -/

/-- Every step of a system from related states is followed by some steps of the atomic object, or by
none. -/
def Follows (spec : S → O → R → S → Prop) (step : σ → ι → σ → Prop)
    (rel : σ → Atomic T O R S → Prop) : Prop :=
  ∀ c l d x, rel c x → step c l d → ∃ y, Relation.ReflTransGen (Step spec) x y ∧ rel d y

/-- **Linearizability by simulation.** What follows the atomic object has linearizable histories. -/
theorem Follows.linearizes {step : σ → ι → σ → Prop} {rel : σ → Atomic T O R S → Prop}
    (hrel : Follows spec step rel) {c d : σ} {ls : List ι} (hrun : Run step c ls d)
    (hstart : rel c (start T O R s₀)) :
    ∃ x, rel d x ∧ Linearizes spec s₀ x.state x.history x.points := by
  obtain ⟨x, hx, hd⟩ := hrun.invariant
    (P := fun d => ∃ x, Relation.ReflTransGen (Step spec) (start T O R s₀) x ∧ rel d x)
    (fun c l d hc hstep => by
      obtain ⟨x, hx, hcx⟩ := hc
      obtain ⟨y, hy, hdy⟩ := hrel c l d x hcx hstep
      exact ⟨y, hx.trans hy, hdy⟩)
    ⟨_, .refl, hstart⟩
  exact ⟨x, hd, Atomic.linearizes hx⟩

end Atomic

end Librocks
