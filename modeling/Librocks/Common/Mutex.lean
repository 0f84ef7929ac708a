import Mathlib.Algebra.BigOperators.Group.Finset.Basic
import Mathlib.Logic.Function.Basic
import Mathlib.Tactic

/-!
# Locks over control points

Every thread is at a control point, and the critical section of a lock is a set of control points. A
lock works as a mutex when its owner is exactly the thread in the critical section. `Mutex.Move` is
what one step of one thread may do to the owner, and `Mutex.move` says that such steps keep the mutex.

A quantity that is zero outside the critical section has at most one thread where it is not zero.
`atOwner` is its value there; a step changes it by what the moving thread gains or loses
(`Mutex.atOwner_move`), and so does the sum of a quantity over all threads (`sum_update`).
-/

namespace Librocks

variable {T P : Type*}

/-- The lock belongs to the thread whose control point is in the critical section. -/
def Mutex (holds : P → Prop) (owner : Option T) (pc : T → P) : Prop :=
  ∀ t, owner = some t ↔ holds (pc t)

/-- What a step of the thread `t` from `p` to `p'` may do to the owner of the lock. -/
inductive Mutex.Move (holds : P → Prop) (t : T) (p p' : P) : Option T → Option T → Prop
  | keep {owner : Option T} (h : holds p' ↔ holds p) : Mutex.Move holds t p p' owner owner
  | acquire (h : holds p') : Mutex.Move holds t p p' none (some t)
  | release {owner : Option T} (h : holds p) (h' : ¬ holds p') : Mutex.Move holds t p p' owner none

/-- The value of `f` at the control point of the owner. -/
def atOwner (f : P → ℕ) (owner : Option T) (pc : T → P) : ℕ :=
  match owner with
  | some t => f (pc t)
  | none => 0

namespace Mutex

variable {holds : P → Prop} {owner owner' : Option T} {pc : T → P} {t u : T} {p' : P} {f : P → ℕ}

theorem eq_of_holds (h : Mutex holds owner pc) (ht : holds (pc t)) (hu : holds (pc u)) : t = u :=
  Option.some.inj (((h t).mpr ht).symm.trans ((h u).mpr hu))

theorem not_holds_of_free (h : Mutex holds none pc) : ¬ holds (pc t) :=
  fun ht => nomatch (h t).mpr ht

theorem atOwner_eq (h : Mutex holds owner pc) (ht : holds (pc t)) : atOwner f owner pc = f (pc t) := by
  rw [(h t).mpr ht]
  rfl

/-- Somewhere the quantity is what it is at the owner, unless it is zero. -/
theorem exists_of_atOwner_ne_zero (hne : atOwner f owner pc ≠ 0) :
    ∃ t, f (pc t) = atOwner f owner pc := by
  cases owner with
  | none => exact absurd rfl hne
  | some t => exact ⟨t, rfl⟩

/-- A quantity that is zero outside the critical section is not zero only at the owner. -/
theorem atOwner_of_ne_zero (h : Mutex holds owner pc) (hf : ∀ p, ¬ holds p → f p = 0)
    (ht : f (pc t) ≠ 0) : atOwner f owner pc = f (pc t) :=
  h.atOwner_eq (by_contra fun hno => ht (hf _ hno))

variable [DecidableEq T]

/-- **Steps keep the mutex.** -/
theorem move (h : Mutex holds owner pc) (hmove : Move holds t (pc t) p' owner owner') :
    Mutex holds owner' (Function.update pc t p') := by
  intro u
  by_cases hu : u = t
  · subst hu
    rw [Function.update_self]
    cases hmove with
    | keep hiff => rw [h u, hiff]
    | acquire hp => exact ⟨fun _ => hp, fun _ => rfl⟩
    | release _ hp => exact ⟨fun hno => (nomatch hno), fun hp' => absurd hp' hp⟩
  · rw [Function.update_of_ne hu]
    cases hmove with
    | keep => exact h u
    | acquire =>
      exact ⟨fun ht => absurd (Option.some.inj ht).symm hu, fun hp => absurd hp h.not_holds_of_free⟩
    | release hp =>
      exact ⟨fun hno => (nomatch hno), fun hu' => absurd (h.eq_of_holds hu' hp) hu⟩

/-- **A step changes the quantity at the owner by what the moving thread gains and loses.** -/
theorem atOwner_move (h : Mutex holds owner pc) (hf : ∀ p, ¬ holds p → f p = 0)
    (hmove : Move holds t (pc t) p' owner owner') :
    atOwner f owner' (Function.update pc t p') + f (pc t) = atOwner f owner pc + f p' := by
  cases hmove with
  | acquire => simp [atOwner, hf _ h.not_holds_of_free]
  | release hp hp' => simp [atOwner, (h t).mpr hp, hf _ hp']
  | keep hiff =>
    by_cases hp : holds (pc t)
    · rw [(h t).mpr hp]
      simp [atOwner, Nat.add_comm]
    · -- the owner, if there is one, is another thread
      rw [hf _ hp, hf _ fun hp' => hp (hiff.mp hp')]
      cases howner : owner with
      | none => rfl
      | some u =>
        have hne : u ≠ t := fun hu => hp ((h t).mp (hu ▸ howner))
        simp [atOwner, Function.update_of_ne hne]

end Mutex

/-- A sum over all threads changes by what the moving thread gains or loses. -/
theorem sum_update {M : Type*} [AddCommMonoid M] [Fintype T] [DecidableEq T] (f : P → M) (pc : T → P)
    (t : T) (p' : P) : ∑ u, f (Function.update pc t p' u) + f (pc t) = ∑ u, f (pc u) + f p' := by
  have hrest : ∑ u ∈ Finset.univ.erase t, f (Function.update pc t p' u)
      = ∑ u ∈ Finset.univ.erase t, f (pc u) :=
    Finset.sum_congr rfl fun u hu => by rw [Function.update_of_ne (Finset.ne_of_mem_erase hu)]
  rw [← Finset.sum_erase_add _ _ (Finset.mem_univ t), ← Finset.sum_erase_add _ (fun u => f (pc u))
    (Finset.mem_univ t), hrest, Function.update_self]
  ac_rfl

end Librocks
