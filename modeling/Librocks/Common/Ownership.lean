import Mathlib.Logic.Equiv.Basic
import Mathlib.Logic.Function.Basic
import Mathlib.Tactic

/-!
# Owning pointers

Variables that own what they point to: every pointer leads to something that is allocated, no two
variables have the same pointer, and what is allocated belongs to some variable. `Owned` is kept by
an allocation for a variable without a pointer (`Owned.alloc`), by freeing what a variable owns
(`Owned.free`), and by any exchange of pointers (`Owned.swap`). A variable that owns nothing may
appear and disappear, since `ptr` is `none` for it either way.
-/

namespace Librocks

variable {V A B : Type*}

/-- Each allocated cell has exactly one owner, and each pointer leads to an allocated cell. -/
structure Owned (ptr : V → Option A) (heap : A → Option B) : Prop where
  held : ∀ {x a}, ptr x = some a → ∃ b, heap a = some b
  exclusive : ∀ {x y a}, ptr x = some a → ptr y = some a → x = y
  noLeak : ∀ {a b}, heap a = some b → ∃ x, ptr x = some a

namespace Owned

variable {ptr : V → Option A} {heap : A → Option B} {x y : V} {a : A}

/-- Nothing is allocated. -/
theorem empty : Owned (fun _ : V => (none : Option A)) (fun _ => (none : Option B)) where
  held h := absurd h (by simp)
  exclusive h := absurd h (by simp)
  noLeak h := absurd h (by simp)

variable [DecidableEq V]

theorem swap (h : Owned ptr heap) (x y : V) :
    Owned (Function.update (Function.update ptr x (ptr y)) y (ptr x)) heap := by
  rw [← Equiv.comp_swap_eq_update]
  refine ⟨fun hp => h.held hp, fun hp hq => ?_, fun hb => ?_⟩
  · exact (Equiv.swap y x).injective (h.exclusive hp hq)
  · obtain ⟨z, hz⟩ := h.noLeak hb
    refine ⟨Equiv.swap y x z, ?_⟩
    rw [Function.comp_apply, Equiv.swap_apply_self]
    exact hz

variable [DecidableEq A]

/-- A new cell for a variable that owns nothing. -/
theorem alloc (h : Owned ptr heap) (hx : ptr x = none) (ha : heap a = none) (b : B) :
    Owned (Function.update ptr x (some a)) (Function.update heap a (some b)) := by
  -- no variable has the new address
  have hnew : ∀ z, ptr z ≠ some a := by
    intro z hz
    obtain ⟨b', hb'⟩ := h.held hz
    rw [ha] at hb'
    cases hb'
  refine ⟨fun {z c} hz => ?_, fun {z w c} hz hw => ?_, fun {c b'} hc => ?_⟩
  · by_cases hca : c = a
    · exact ⟨b, by rw [hca, Function.update_self]⟩
    · rw [Function.update_of_ne hca]
      rw [Function.update_apply] at hz
      split_ifs at hz with hzx
      · exact absurd (Option.some.inj hz).symm hca
      · exact h.held hz
  · rw [Function.update_apply] at hz hw
    split_ifs at hz hw with hzx hwx hwx
    · rw [hzx, hwx]
    · exact absurd (hw.trans hz.symm) (hnew w)
    · exact absurd (hz.trans hw.symm) (hnew z)
    · exact h.exclusive hz hw
  · rw [Function.update_apply] at hc
    split_ifs at hc with hca
    · exact ⟨x, by rw [Function.update_self, hca]⟩
    · obtain ⟨z, hz⟩ := h.noLeak hc
      refine ⟨z, ?_⟩
      rw [Function.update_of_ne, hz]
      rintro rfl
      rw [hx] at hz
      cases hz

/-- The owner frees its cell. -/
theorem free (h : Owned ptr heap) (hx : ptr x = some a) :
    Owned (Function.update ptr x none) (Function.update heap a none) := by
  have hof : ∀ {z c}, Function.update ptr x none z = some c → ptr z = some c ∧ c ≠ a := by
    intro z c hz
    rw [Function.update_apply] at hz
    split_ifs at hz with hzx
    refine ⟨hz, ?_⟩
    rintro rfl
    exact hzx (h.exclusive hz hx)
  refine ⟨fun {z c} hz => ?_, fun {z w c} hz hw => ?_, fun {c b'} hc => ?_⟩
  · obtain ⟨hz, hne⟩ := hof hz
    rw [Function.update_of_ne hne]
    exact h.held hz
  · exact h.exclusive (hof hz).1 (hof hw).1
  · rw [Function.update_apply] at hc
    split_ifs at hc with hca
    obtain ⟨z, hz⟩ := h.noLeak hc
    refine ⟨z, ?_⟩
    rw [Function.update_of_ne, hz]
    rintro rfl
    exact hca (Option.some.inj (hz.symm.trans hx))

end Owned

end Librocks
