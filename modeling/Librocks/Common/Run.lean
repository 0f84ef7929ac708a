import Mathlib.Logic.Basic
import Mathlib.Tactic

/-!
# Labelled runs, invariants and simulations

A system is given by its step relation `step : σ → ι → σ → Prop`, where the label `ι` holds whatever
the environment chose and the system answered in that step. `Run step s ls t` is a finite run.

* `Run.invariant`: what every step preserves, every run preserves.
* `Run.simulates`: a relation that every step of one system can follow in another, label by label,
  turns runs of the first into runs of the second with the same labels.
* `Run.amortized`: runs are bounded by a potential that steps may have to pay for.
* `Run.exists_cut`: a measure that grows by at most one in a step takes every value on the way, and
  there is a last moment at which it has that value. `Run.exists_cut_covered` is about a log of which some
  part is safe.
* `guarded` cuts a system down to the steps that meet a condition on the state before them.
* `follow` evaluates a list of labels in a system whose steps can be computed.

The last section takes apart steps that are computations in `Except`.
-/

namespace Librocks

variable {σ τ ι : Type*}

/-- `Run step s ls t`: a run from `s` to `t` whose steps carry the labels `ls`, in order. -/
inductive Run (step : σ → ι → σ → Prop) : σ → List ι → σ → Prop
  | nil (s : σ) : Run step s [] s
  | cons {s t u : σ} {l : ι} {ls : List ι} :
      step s l t → Run step t ls u → Run step s (l :: ls) u

/-- The steps of a system that are taken with `ok` holding of the state before and the label. -/
def guarded (ok : σ → ι → Prop) (step : σ → ι → σ → Prop) (s : σ) (l : ι) (t : σ) : Prop :=
  ok s l ∧ step s l t

namespace Run

variable {step : σ → ι → σ → Prop}

theorem single {s t : σ} {l : ι} (h : step s l t) : Run step s [l] t := .cons h (.nil t)

theorem append {s t u : σ} {ls ms : List ι} (h₁ : Run step s ls t) (h₂ : Run step t ms u) :
    Run step s (ls ++ ms) u := by
  induction h₁ with
  | nil => exact h₂
  | cons hstep _ ih => exact .cons hstep (ih h₂)

/-- **Invariant rule.** A property of states that every step preserves holds along every run. -/
theorem invariant {P : σ → Prop} (hP : ∀ s l t, P s → step s l t → P t)
    {s t : σ} {ls : List ι} (h : Run step s ls t) (hs : P s) : P t := by
  induction h with
  | nil => exact hs
  | cons hstep _ ih => exact ih (hP _ _ _ hs hstep)

/-- **Simulation rule.** If related states can follow each other's steps with equal labels, every run
from a related state is matched, label by label, by a run of the other system. -/
theorem simulates {step' : τ → ι → τ → Prop} {R : σ → τ → Prop}
    (hR : ∀ s s' l t, R s s' → step s l t → ∃ t', step' s' l t' ∧ R t t')
    {s t : σ} {s' : τ} {ls : List ι} (h : Run step s ls t) (hs : R s s') :
    ∃ t', Run step' s' ls t' ∧ R t t' := by
  induction h generalizing s' with
  | nil => exact ⟨s', .nil s', hs⟩
  | cons hstep _ ih =>
    obtain ⟨u', hu, hR'⟩ := hR _ _ _ _ hs hstep
    obtain ⟨t', ht, hR''⟩ := ih hR'
    exact ⟨t', .cons hu ht, hR''⟩

/-- A run stays a run when its steps are allowed more. -/
theorem mono {step' : σ → ι → σ → Prop} (hsub : ∀ s l t, step s l t → step' s l t)
    {s t : σ} {ls : List ι} (h : Run step s ls t) : Run step' s ls t := by
  induction h with
  | nil => exact .nil _
  | cons hstep _ ih => exact .cons (hsub _ _ _ hstep) ih

/-- A run whose labels meet a condition is one of the guarded system. -/
theorem guard {ok : ι → Prop} {s t : σ} {ls : List ι} (h : Run step s ls t) (hok : ∀ l ∈ ls, ok l) :
    Run (guarded (fun _ l => ok l) step) s ls t := by
  induction h with
  | nil => exact .nil _
  | cons hstep _ ih =>
    exact .cons ⟨hok _ List.mem_cons_self, hstep⟩ (ih fun l hl => hok l (List.mem_cons_of_mem _ hl))

/-- A label of a run belongs to one of its steps. -/
theorem exists_of_mem {s t : σ} {ls : List ι} {l : ι} (h : Run step s ls t) (hl : l ∈ ls) :
    ∃ before after u v, Run step s before u ∧ step u l v ∧ Run step v after t := by
  induction h with
  | nil => cases hl
  | cons hfirst hrest ih =>
    rcases List.mem_cons.mp hl with rfl | hl
    · exact ⟨[], _, _, _, .nil _, hfirst, hrest⟩
    · obtain ⟨before, after, u, v, hbefore, hstep, hafter⟩ := ih hl
      exact ⟨_, after, u, v, .cons hfirst hbefore, hstep, hafter⟩

/-- **Cutting a run.** The run is cut after the last state with the given measure: the step after it, if
there is one, goes beyond. -/
theorem exists_cut {inv : σ → Prop} (measure : σ → ℕ) (hinv : ∀ s l t, inv s → step s l t → inv t)
    (hstep : ∀ s l t, inv s → step s l t → measure t ≤ measure s + 1) {s t : σ} {ls : List ι}
    (h : Run step s ls t) (hs : inv s) {n : ℕ} (hn : measure s ≤ n) (hn' : n ≤ measure t) :
    ∃ done undone u, ls = done ++ undone ∧ Run step s done u ∧ Run step u undone t ∧ measure u = n ∧
      (undone = [] ∨ ∃ l rest v, undone = l :: rest ∧ step u l v ∧ Run step v rest t ∧
        measure v = n + 1) := by
  induction h with
  | nil s => exact ⟨[], [], s, rfl, .nil s, .nil s, le_antisymm hn hn', .inl rfl⟩
  | @cons s v t l ls hfirst hrest ih =>
    have hone := hstep s l v hs hfirst
    by_cases hv : measure v ≤ n
    · obtain ⟨done, undone, u, rfl, hdone, hundone, hu, hlast⟩ := ih (hinv s l v hs hfirst) hv hn'
      exact ⟨l :: done, undone, u, rfl, .cons hfirst hdone, hundone, hu, hlast⟩
    · exact ⟨[], l :: ls, s, rfl, .nil s, .cons hfirst hrest, by omega,
        .inr ⟨l, ls, v, rfl, hfirst, hrest, by omega⟩⟩

/-- **Cutting a run where nothing is lost.** `logged` and `covered` grow along the run, and a label in
`sync` is of a step that covers all that is logged. The run is cut where `n` is logged; if that is all that
is covered in the end, no such step comes after the cut. -/
theorem exists_cut_covered {inv : σ → Prop} (logged covered : σ → ℕ) {sync : ι → Prop}
    (hinv : ∀ s l t, inv s → step s l t → inv t)
    (hlogged : ∀ s l t, inv s → step s l t → logged s ≤ logged t ∧ logged t ≤ logged s + 1)
    (hcovered : ∀ s l t, inv s → step s l t → covered s ≤ covered t)
    (hsync : ∀ s l t, inv s → step s l t → sync l → logged t = logged s ∧ covered t = logged t)
    {s t : σ} {ls : List ι} (h : Run step s ls t) (hs : inv s) {n : ℕ} (hn : logged s ≤ n)
    (hn' : n ≤ logged t) (hc : covered t ≤ n) :
    ∃ done undone u, ls = done ++ undone ∧ Run step s done u ∧ Run step u undone t ∧ logged u = n ∧
      ∀ l ∈ undone, ¬ sync l := by
  have hmono : ∀ {s t : σ} {ls : List ι}, Run step s ls t → inv s →
      logged s ≤ logged t ∧ covered s ≤ covered t := by
    intro s t ls h hs
    have hlater := h.invariant (P := fun t => inv t ∧ logged s ≤ logged t ∧ covered s ≤ covered t)
      (fun u l v hu hstep => ⟨hinv u l v hu.1 hstep, hu.2.1.trans (hlogged u l v hu.1 hstep).1,
        hu.2.2.trans (hcovered u l v hu.1 hstep)⟩) ⟨hs, le_rfl, le_rfl⟩
    exact hlater.2
  obtain ⟨done, undone, u, rfl, hdone, hundone, hu, hlast⟩ :=
    h.exists_cut logged hinv (fun s l t hs hstep => (hlogged s l t hs hstep).2) hs hn hn'
  refine ⟨done, undone, u, rfl, hdone, hundone, hu, fun l hl hsyncs => ?_⟩
  have hinvu := hdone.invariant hinv hs
  rcases hlast with rfl | ⟨c, rest, v, rfl, hstep, hrest, hv⟩
  · cases hl
  rcases List.mem_cons.mp hl with rfl | hl
  · -- the first step after the cut logs something
    have := (hsync u l v hinvu hstep hsyncs).1
    omega
  · -- that would be covered by a later step of this kind
    have hinvv := hinv u c v hinvu hstep
    obtain ⟨before, after, w, w', hbefore, hone, hafter⟩ := hrest.exists_of_mem hl
    have hinvw := hbefore.invariant hinv hinvv
    have hinvw' := hinv w l w' hinvw hone
    obtain ⟨hsame, hall⟩ := hsync w l w' hinvw hone hsyncs
    have := (hmono hbefore hinvv).1
    have := (hmono hafter hinvw').2
    omega

/-- **Amortized cost.** If every step that lowers a potential by less than one pays the difference, a run
is no longer than what it had at the start and paid on the way. -/
theorem amortized {inv : σ → Prop} (potential : σ → ℤ) (price : ι → ℕ)
    (hinv : ∀ s l t, inv s → step s l t → inv t)
    (hstep : ∀ s l t, inv s → step s l t → potential t + 1 ≤ potential s + price l)
    {s t : σ} {ls : List ι} (h : Run step s ls t) (hs : inv s) :
    ls.length + potential t ≤ potential s + (ls.map price).sum := by
  induction h with
  | nil => simp
  | cons hfirst _ ih =>
    have hrest := ih (hinv _ _ _ hs hfirst)
    have hone := hstep _ _ _ hs hfirst
    simp only [List.length_cons, List.map_cons, List.sum_cons, Nat.cast_add, Nat.cast_one]
    omega

end Run

/-- The state after the steps `ls`, if `next` allows all of them and each passes the test `ok`. -/
def follow (next : σ → ι → Option σ) (ok : σ → ι → Bool) (s : σ) : List ι → Option σ
  | [] => some s
  | l :: ls => if ok s l then (next s l).bind fun t => follow next ok t ls else none

/-- A list of labels that can be followed is a run. -/
theorem Run.of_follow {next : σ → ι → Option σ} {ok : σ → ι → Bool} {step : σ → ι → σ → Prop}
    (hstep : ∀ s l t, ok s l = true → next s l = some t → step s l t) {ls : List ι} {s t : σ}
    (h : follow next ok s ls = some t) : Run step s ls t := by
  induction ls generalizing s with
  | nil =>
    cases h
    exact .nil _
  | cons l ls ih =>
    simp only [follow] at h
    split_ifs at h with hl
    obtain ⟨u, hu, hrest⟩ := Option.bind_eq_some_iff.mp h
    exact .cons (hstep s l u hl hu) (ih hrest)

theorem Run.guarded_of_follow {next : σ → ι → Option σ} {ok : σ → ι → Bool} {g : σ → ι → Prop}
    (hok : ∀ s l, ok s l = true → g s l) {ls : List ι} {s t : σ} (h : follow next ok s ls = some t) :
    Run (guarded g fun s l t => next s l = some t) s ls t :=
  .of_follow (fun s l _ hl hnext => ⟨hok s l hl, hnext⟩) h

/-! ## Steps that may fail -/

/-- Sequencing after a call that returned. -/
@[simp] theorem ok_bind {ε α β : Type} (x : α) (f : α → Except ε β) :
    (Except.ok x >>= f) = f x := rfl

/-- A mapped result is a result. -/
theorem exists_of_map_eq_ok {ε α β : Type} {x : Except ε α} {f : α → β} {y : β}
    (h : x.map f = .ok y) : ∃ z, x = .ok z ∧ f z = y := by
  cases x with
  | error e => cases h
  | ok z => exact ⟨z, rfl, Except.ok.inj h⟩

theorem exists_of_bind_eq_ok {ε α β : Type} {x : Except ε α} {f : α → Except ε β} {y : β}
    (h : (x >>= f) = .ok y) : ∃ z, x = .ok z ∧ f z = .ok y := by
  cases x with
  | error e => cases h
  | ok z => exact ⟨z, rfl, h⟩

end Librocks
