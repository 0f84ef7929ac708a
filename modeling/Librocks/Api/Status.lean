import Mathlib.Data.Int.Basic

/-!
# Status codes

Reference: `include/api/StatusCode.h`, `include/impl/utils.h`.

A status is a C `int`. Every operation reports through an `int*` that may be null, so a status
argument is an `Option ℤ`: `none` is the null pointer and `some c` a variable that holds `c`.
-/

namespace Librocks

namespace Status

def invalid : ℤ := -5
def noIterator : ℤ := -4
def alreadyExists : ℤ := -3
def noTransaction : ℤ := -2
def closed : ℤ := -1
def ok : ℤ := 0
def notFound : ℤ := 1
def corruption : ℤ := 2
def notSupported : ℤ := 3
def invalidArgument : ℤ := 4
def ioError : ℤ := 5
def mergeInProgress : ℤ := 6
def incomplete : ℤ := 7
def shutdownInProgress : ℤ := 8
def timedOut : ℤ := 9
def aborted : ℤ := 10
def busy : ℤ := 11
def expired : ℤ := 12
def tryAgain : ℤ := 13
def compactionTooLarge : ℤ := 14
def columnFamilyDropped : ℤ := 15
def unknown : ℤ := 16

end Status

/-- `utils.h::assign`: write a code through a status pointer, if there is a variable behind it. -/
def assign (code : ℤ) (status : Option ℤ) : Option ℤ :=
  status.map fun _ => code

@[simp] theorem assign_none (code : ℤ) : assign code none = none := rfl

@[simp] theorem assign_some (code c : ℤ) : assign code (some c) = some code := rfl

@[simp] theorem assign_assign (code code' : ℤ) (status : Option ℤ) :
    assign code (assign code' status) = assign code status := by
  cases status <;> rfl

/-- How a caller that passed `status` and finds `status'` there reads the result of a call: Ok says
that it was done, any other code that it was not. With a null pointer the caller cannot tell the two
apart, but there is no third possibility. -/
def Reports (status status' : Option ℤ) (done undone : Prop) : Prop :=
  match status with
  | some _ => ∃ c, status' = some c ∧ (c = Status.ok → done) ∧ (c ≠ Status.ok → undone)
  | none => status' = none ∧ (done ∨ undone)

theorem Reports.of_done {status status' : Option ℤ} {done undone : Prop}
    (hr : status' = assign Status.ok status) (h : done) : Reports status status' done undone := by
  subst hr
  cases status with
  | none => exact ⟨rfl, .inl h⟩
  | some _ => exact ⟨Status.ok, rfl, fun _ => h, fun hc => absurd rfl hc⟩

theorem Reports.of_undone {status status' : Option ℤ} {done undone : Prop} {c : ℤ}
    (hc : c ≠ Status.ok) (hr : status' = assign c status) (h : undone) :
    Reports status status' done undone := by
  subst hr
  cases status with
  | none => exact ⟨rfl, .inr h⟩
  | some _ => exact ⟨c, rfl, fun hok => absurd hok hc, fun _ => h⟩

theorem Reports.done_or_undone {status status' : Option ℤ} {done undone : Prop}
    (h : Reports status status' done undone) : done ∨ undone := by
  cases status with
  | none => exact h.2
  | some _ =>
    obtain ⟨c, -, hdone, hundone⟩ := h
    by_cases hc : c = Status.ok
    · exact .inl (hdone hc)
    · exact .inr (hundone hc)

/-! ## Pointers that are only written

A call that takes a status pointer is a function of what the pointer is and points to. `Decides` says
that it settles on one code by itself and writes that; `Passes` that it writes a code or nothing. The
second is what the steps inside a call do, after the call has written Ok. -/

variable {ε α β : Type}

/-- The call assigns one code, which does not depend on the pointer, and neither does the rest. -/
def Decides (f : Option ℤ → Except ε (Option ℤ × β)) : Prop :=
  ∃ g : Except ε (ℤ × β), ∀ status, f status = g.map fun x => (assign x.1 status, x.2)

/-- The call assigns one code or leaves the status as it is. -/
def Passes (f : Option ℤ → Except ε (Option ℤ × β)) : Prop :=
  ∃ g : Except ε (Option ℤ × β), ∀ status, f status =
    g.map fun x => (x.1.elim status fun c => assign c status, x.2)

theorem Decides.ok (c : ℤ) (x : β) :
    Decides fun status => (.ok (assign c status, x) : Except ε (Option ℤ × β)) :=
  ⟨.ok (c, x), fun _ => rfl⟩

theorem Passes.keep (x : β) : Passes fun status => (.ok (status, x) : Except ε (Option ℤ × β)) :=
  ⟨.ok (none, x), fun _ => rfl⟩

theorem Passes.error (e : ε) : Passes fun _ => (.error e : Except ε (Option ℤ × β)) :=
  ⟨.error e, fun _ => rfl⟩

theorem Decides.passes {f : Option ℤ → Except ε (Option ℤ × β)} (h : Decides f) : Passes f := by
  obtain ⟨g, hg⟩ := h
  refine ⟨g.map fun x => (some x.1, x.2), fun status => ?_⟩
  rw [hg]
  cases g <;> rfl

/-- A step that may leave the status, after a code was written. -/
theorem Passes.decides {f : Option ℤ → Except ε (Option ℤ × β)} (h : Passes f) (c : ℤ) :
    Decides fun status => f (assign c status) := by
  obtain ⟨g, hg⟩ := h
  refine ⟨g.map fun x => (x.1.getD c, x.2), fun status => ?_⟩
  simp only [hg]
  cases g with
  | error e => rfl
  | ok x =>
    obtain ⟨c', x⟩ := x
    cases c' with
    | none => rfl
    | some c' => exact congrArg (fun st => Except.ok (st, x)) (assign_assign c' c status)

theorem Decides.map {f : Option ℤ → Except ε (Option ℤ × β)} (h : Decides f) (φ : β → α) :
    Decides fun status => (f status).map fun x => (x.1, φ x.2) := by
  obtain ⟨g, hg⟩ := h
  refine ⟨g.map fun x => (x.1, φ x.2), fun status => ?_⟩
  simp only [hg]
  cases g <;> rfl

/-- The content of the status before the call never matters, a null pointer makes no other difference,
and after the call the status is Ok exactly when the call succeeded. -/
structure StatusBlind (f : Option ℤ → Except ε (Option ℤ × β)) (succeeded : β → Prop) : Prop where
  same : ∀ v w, f (some v) = f (some w)
  null : ∀ v, (f none).map Prod.snd = (f (some v)).map Prod.snd
  describes : ∀ v st x, f (some v) = .ok (st, x) → ∃ c, st = some c ∧ (c = Status.ok ↔ succeeded x)

/-- A call that settles on its code is blind, if Ok describes success. -/
theorem Decides.statusBlind {f : Option ℤ → Except ε (Option ℤ × β)} {succeeded : β → Prop}
    (h : Decides f)
    (hok : ∀ x, ∀ c, f (some Status.ok) = .ok (some c, x) → (c = Status.ok ↔ succeeded x)) :
    StatusBlind f succeeded := by
  obtain ⟨g, hg⟩ := h
  have hsome : ∀ v, f (some v) = g.map fun x => (some x.1, x.2) := fun v => hg (some v)
  refine ⟨fun v w => (hsome v).trans (hsome w).symm, fun v => ?_, fun v st x hrun => ?_⟩
  · rw [hg, hsome]
    cases g <;> rfl
  · rw [hsome] at hrun
    cases g with
    | error e => cases hrun
    | ok y =>
      cases hrun
      exact ⟨y.1, rfl, hok y.2 y.1 (hsome Status.ok)⟩

theorem StatusBlind.of_ok {f : Option ℤ → Except ε (Option ℤ × β)} {succeeded : β → Prop} {code : ℤ}
    {x : β} (h : ∀ status, f status = .ok (assign code status, x))
    (hok : code = Status.ok ↔ succeeded x) : StatusBlind f succeeded := by
  refine Decides.statusBlind ⟨.ok (code, x), h⟩ fun y c hrun => ?_
  rw [h] at hrun
  cases hrun
  exact hok

/-- A call that does not return reports nothing. -/
theorem StatusBlind.of_error {f : Option ℤ → Except ε (Option ℤ × β)} {succeeded : β → Prop} {e : ε}
    (h : ∀ status, f status = .error e) : StatusBlind f succeeded := by
  refine Decides.statusBlind ⟨.error e, h⟩ fun y c hrun => ?_
  rw [h] at hrun
  cases hrun

/-- A call that always reports Ok has to succeed. -/
theorem statusBlind_iff_of_ok {f : Option ℤ → Except ε (Option ℤ × β)} {succeeded : β → Prop} {x : β}
    (h : ∀ status, f status = .ok (assign Status.ok status, x)) :
    StatusBlind f succeeded ↔ succeeded x := by
  constructor
  · intro hb
    obtain ⟨c, hc, hiff⟩ := hb.describes 0 _ _ (h (some 0))
    exact hiff.mp (Option.some.inj hc).symm
  · intro hx
    exact .of_ok h (iff_of_true rfl hx)

end Librocks
