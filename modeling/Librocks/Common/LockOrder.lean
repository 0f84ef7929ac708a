import Librocks.Common.Run
import Mathlib.Order.WellFounded

/-!
# Lock programs and lock orders

A `LockProg` is what is left of an operation when everything but its locking is dropped: it acquires
and releases mutexes, waits on condition variables, branches and loops. Mutexes are not recursive. A
wait gives its mutex back, sleeps, and acquires the mutex again when it is woken, for whatever reason.

`LockProg.check` runs a program on the list of held mutexes. It accepts an `acquire` only above
everything that is held, and a wait only when nothing but its own mutex is held. A system of threads
that run accepted programs never deadlocks (`Disciplined.not_circular`), whatever the threads do.
-/

namespace Librocks

/-- The locking of an operation. -/
inductive LockProg (L : Type*)
  | skip
  | acquire (l : L)
  | release (l : L)
  | wait (l : L)
  /-- Inside `wait`: blocked until woken. -/
  | asleep (l : L)
  | seq (p q : LockProg L)
  | choice (p q : LockProg L)
  | loop (p : LockProg L)

namespace LockProg

/-- `std::lock_guard`: the mutex is held for the whole body. -/
def guard {L : Type*} (l : L) (body : LockProg L) : LockProg L :=
  .seq (.acquire l) (.seq body (.release l))

/-- A test, and what follows it when it is passed. -/
def optional {L : Type*} (p : LockProg L) : LockProg L := .choice .skip p

/-- What one step of a program does to the mutexes. -/
inductive Act (L : Type*)
  | tau
  | acquire (l : L)
  | release (l : L)
  | sleep (l : L)
  | wake

variable {L : Type*}

/-- One step of a program. -/
inductive Step : LockProg L → Act L → LockProg L → Prop
  | acquire (l : L) : Step (.acquire l) (.acquire l) .skip
  | release (l : L) : Step (.release l) (.release l) .skip
  | wait (l : L) : Step (.wait l) (.sleep l) (.asleep l)
  | wake (l : L) : Step (.asleep l) .wake (.acquire l)
  | seq {p p' q : LockProg L} {a : Act L} : Step p a p' → Step (.seq p q) a (.seq p' q)
  | next (q : LockProg L) : Step (.seq .skip q) .tau q
  | left (p q : LockProg L) : Step (.choice p q) .tau p
  | right (p q : LockProg L) : Step (.choice p q) .tau q
  | leave (p : LockProg L) : Step (.loop p) .tau .skip
  | turn (p : LockProg L) : Step (.loop p) .tau (.seq p (.loop p))

variable [DecidableEq L]

/-- The mutexes held after a step. -/
def Act.after (held : List L) : Act L → List L
  | .tau | .wake => held
  | .acquire l => l :: held
  | .release l | .sleep l => held.erase l

variable {R : Type*} [LT R] [DecidableLT R] {rank : L → R}

/-- Run a program on the mutexes that are held: what is held at the end, if the program keeps to the
order and every branch and every turn of a loop ends the same way. -/
def check (rank : L → R) : List L → LockProg L → Option (List L)
  | held, .skip => some held
  | held, .acquire l => if ∀ h ∈ held, rank h < rank l then some (l :: held) else none
  | held, .release l => if l ∈ held then some (held.erase l) else none
  | held, .wait l => if held = [l] then some [l] else none
  | held, .asleep l => if held = [] then some [l] else none
  | held, .seq p q => (check rank held p).bind fun held => check rank held q
  | held, .choice p q => if check rank held p = check rank held q then check rank held p else none
  | held, .loop p => if check rank held p = some held then some held else none

section Check

variable {held : List L} {p q : LockProg L}

/-- A guarded body is accepted above everything that is held. -/
theorem check_guard {l : L} (hlt : ∀ h ∈ held, rank h < rank l)
    (hp : check rank (l :: held) p = some (l :: held)) : check rank held (guard l p) = some held := by
  simp only [guard, check, if_pos hlt, Option.bind_some, hp, List.mem_cons_self, if_true,
    List.erase_cons_head]

theorem check_optional (hp : check rank held p = some held) :
    check rank held (optional p) = some held := by
  simp only [optional, check, hp, if_true]

theorem check_seq (hp : check rank held p = some held) (hq : check rank held q = some held) :
    check rank held (.seq p q) = some held := by
  simp only [check, hp, Option.bind_some, hq]

theorem check_loop (hp : check rank held p = some held) : check rank held (.loop p) = some held := by
  simp only [check, hp, if_true]

end Check

/-- **A step keeps a program accepted**, with the mutexes that the step leaves. -/
theorem check_step {p p' : LockProg L} {a : Act L} {held held' : List L} (hstep : Step p a p')
    (hc : check rank held p = some held') : check rank (a.after held) p' = some held' := by
  induction hstep generalizing held held' with
  | acquire l =>
    simp only [check, Option.ite_none_right_eq_some] at hc
    exact hc.2
  | release l =>
    simp only [check, Option.ite_none_right_eq_some] at hc
    exact hc.2
  | wait l =>
    simp only [check, Option.ite_none_right_eq_some] at hc
    obtain ⟨rfl, hc⟩ := hc
    simpa [check, Act.after] using hc
  | wake l =>
    simp only [check, Option.ite_none_right_eq_some] at hc
    obtain ⟨rfl, hc⟩ := hc
    simpa [check, Act.after] using hc
  | seq _ ih =>
    simp only [check, Option.bind_eq_some_iff] at hc ⊢
    obtain ⟨mid, hp, hq⟩ := hc
    exact ⟨mid, ih hp, hq⟩
  | next q => exact hc
  | left p q =>
    simp only [check, Option.ite_none_right_eq_some] at hc
    exact hc.2
  | right p q =>
    simp only [check, Option.ite_none_right_eq_some] at hc
    exact hc.1.symm.trans hc.2
  | leave p =>
    simp only [check, Option.ite_none_right_eq_some] at hc
    exact hc.2
  | turn p =>
    simp only [check, Option.ite_none_right_eq_some] at hc
    obtain ⟨hp, hsame⟩ := hc
    simp only [check, Act.after, hp, Option.bind_some, if_true]
    exact hsame

/-- An accepted program acquires above everything it holds. -/
theorem rank_lt_of_acquire {p p' : LockProg L} {l : L} {held held' : List L}
    (hstep : Step p (.acquire l) p') (hc : check rank held p = some held') :
    ∀ h ∈ held, rank h < rank l := by
  generalize ha : Act.acquire l = a at hstep
  induction hstep generalizing held' with
  | acquire l' =>
    cases ha
    simp only [check, Option.ite_none_right_eq_some] at hc
    exact hc.1
  | seq _ ih =>
    simp only [check, Option.bind_eq_some_iff] at hc
    obtain ⟨mid, hp, -⟩ := hc
    exact ih hp ha
  | _ => cases ha

/-- An accepted program that sleeps holds nothing. -/
theorem held_eq_nil_of_wake {p p' : LockProg L} {held held' : List L} (hstep : Step p .wake p')
    (hc : check rank held p = some held') : held = [] := by
  generalize ha : (Act.wake : Act L) = a at hstep
  induction hstep generalizing held' with
  | wake l =>
    simp only [check, Option.ite_none_right_eq_some] at hc
    exact hc.1
  | seq _ ih =>
    simp only [check, Option.bind_eq_some_iff] at hc
    obtain ⟨mid, hp, -⟩ := hc
    exact ih hp ha
  | _ => cases ha

end LockProg

/-! ## Threads -/

/-- A thread: what is left of its operation, and the mutexes it holds. -/
structure LockThread (L : Type*) where
  prog : LockProg L := .skip
  held : List L := []

namespace LockThread

variable {T L : Type*} [DecidableEq L]

/-- One step of one thread: it begins an operation, or it goes on with the one it is in. A mutex that
some thread holds cannot be acquired. -/
inductive Step [DecidableEq T] (ops : Set (LockProg L)) (s : T → LockThread L) (t : T) :
    (T → LockThread L) → Prop
  | begin {p : LockProg L} (hdone : (s t).prog = .skip) (hp : p ∈ ops) :
      Step ops s t (Function.update s t ⟨p, (s t).held⟩)
  | go {a : LockProg.Act L} {p : LockProg L} (hstep : (s t).prog.Step a p)
      (hfree : ∀ l, a = .acquire l → ∀ u, l ∉ (s u).held) :
      Step ops s t (Function.update s t ⟨p, a.after (s t).held⟩)

/-- The thread is about to acquire the mutex. -/
def Wants (x : LockThread L) (l : L) : Prop := ∃ p, x.prog.Step (.acquire l) p

/-- The thread is blocked in a wait. -/
def Asleep (x : LockThread L) : Prop := ∃ p, x.prog.Step .wake p

variable {R : Type*} [Preorder R] [DecidableLT R]

/-- The invariant: every thread is in an accepted program that ends with nothing held, and no mutex is
held twice. -/
structure Disciplined (rank : L → R) (s : T → LockThread L) : Prop where
  accepted : ∀ t, (s t).prog.check rank (s t).held = some []
  nodup : ∀ t, (s t).held.Nodup
  exclusive : ∀ t u l, l ∈ (s t).held → l ∈ (s u).held → t = u

variable {rank : L → R} {s s' : T → LockThread L} {t : T} {ops : Set (LockProg L)}

/-- Only an acquisition has to wait for a mutex to be free. -/
theorem Step.of_not_acquire [DecidableEq T] {a : LockProg.Act L} {p : LockProg L}
    (hstep : (s t).prog.Step a p) (ha : ∀ l, a ≠ .acquire l) :
    Step ops s t (Function.update s t ⟨p, a.after (s t).held⟩) := by
  apply Step.go hstep
  intro l hl
  exact absurd hl (ha l)

/-- All threads idle. -/
theorem disciplined_idle : Disciplined rank (fun _ : T => ({} : LockThread L)) where
  accepted _ := rfl
  nodup _ := List.nodup_nil
  exclusive _ _ _ h := absurd h List.not_mem_nil

namespace Disciplined

theorem step [DecidableEq T] (h : Disciplined rank s) (hops : ∀ p ∈ ops, p.check rank [] = some [])
    (hstep : Step ops s t s') : Disciplined rank s' := by
  cases hstep with
  | @begin p hdone hp =>
    have hheld : (s t).held = [] := by
      have hc := h.accepted t
      rw [hdone] at hc
      exact Option.some.inj hc
    refine ⟨fun u => ?_, fun u => ?_, fun u v l => ?_⟩
    · by_cases hu : u = t
      · subst hu
        rw [Function.update_self, hheld]
        exact hops p hp
      · rw [Function.update_of_ne hu]
        exact h.accepted u
    · by_cases hu : u = t
      · subst hu
        rw [Function.update_self]
        exact h.nodup u
      · rw [Function.update_of_ne hu]
        exact h.nodup u
    · have hsame : ∀ w, (Function.update s t ⟨p, (s t).held⟩ w).held = (s w).held := by
        intro w
        by_cases hw : w = t
        · subst hw
          rw [Function.update_self]
        · rw [Function.update_of_ne hw]
      rw [hsame, hsame]
      exact h.exclusive u v l
  | @go a p hgo hfree =>
    -- a step only adds a mutex that was free
    have hnew : ∀ l ∈ a.after (s t).held, l ∈ (s t).held ∨ a = .acquire l := by
      intro l hl
      cases a with
      | tau | wake => exact .inl hl
      | acquire l' =>
        rcases List.mem_cons.mp hl with rfl | hl
        · exact .inr rfl
        · exact .inl hl
      | release l' | sleep l' => exact .inl (List.mem_of_mem_erase hl)
    have hmem : ∀ w l, l ∈ (Function.update s t ⟨p, a.after (s t).held⟩ w).held →
        l ∈ (s w).held ∨ (w = t ∧ a = .acquire l) := by
      intro w l hl
      by_cases hw : w = t
      · subst hw
        rw [Function.update_self] at hl
        exact (hnew l hl).imp id fun ha => ⟨rfl, ha⟩
      · rw [Function.update_of_ne hw] at hl
        exact .inl hl
    refine ⟨fun u => ?_, fun u => ?_, fun u v l hu hv => ?_⟩
    · by_cases hu : u = t
      · subst hu
        rw [Function.update_self]
        exact LockProg.check_step hgo (h.accepted u)
      · rw [Function.update_of_ne hu]
        exact h.accepted u
    · by_cases hu : u = t
      · subst hu
        rw [Function.update_self]
        cases a with
        | tau | wake => exact h.nodup u
        | acquire l => exact List.nodup_cons.mpr ⟨hfree l rfl u, h.nodup u⟩
        | release l | sleep l => exact (h.nodup u).erase l
      · rw [Function.update_of_ne hu]
        exact h.nodup u
    · rcases hmem u l hu with hold | ⟨hut, ha⟩
      · rcases hmem v l hv with hold' | ⟨-, ha⟩
        · exact h.exclusive u v l hold hold'
        · exact absurd hold (hfree l ha u)
      · rcases hmem v l hv with hold' | ⟨hvt, -⟩
        · exact absurd hold' (hfree l ha v)
        · exact hut.trans hvt.symm

/-- Nobody acquires a mutex that it holds. -/
theorem not_held_of_wants (h : Disciplined rank s) {l : L} (hw : (s t).Wants l) : l ∉ (s t).held := by
  intro hl
  obtain ⟨p, hstep⟩ := hw
  exact lt_irrefl _ (LockProg.rank_lt_of_acquire hstep (h.accepted t) l hl)

/-- Nobody sleeps with a mutex. -/
theorem held_eq_nil_of_asleep (h : Disciplined rank s) (hs : (s t).Asleep) : (s t).held = [] := by
  obtain ⟨p, hstep⟩ := hs
  exact LockProg.held_eq_nil_of_wake hstep (h.accepted t)

/-- **There is no circular wait.** In a set of threads each of which wants a mutex that one of them
holds, the ranks of the wanted mutexes would climb for ever. -/
theorem not_circular [WellFoundedGT R] (h : Disciplined rank s) (S : Set T) (hne : S.Nonempty) :
    ¬ ∀ t ∈ S, ∃ l, (s t).Wants l ∧ ∃ u ∈ S, l ∈ (s u).held := by
  intro hall
  -- the ranks that are wanted in the set have a maximal element
  let wanted : Set R := {r | ∃ t ∈ S, ∃ l, (s t).Wants l ∧ (∃ u ∈ S, l ∈ (s u).held) ∧ rank l = r}
  obtain ⟨t₀, ht₀⟩ := hne
  obtain ⟨l₀, hw₀, hh₀⟩ := hall t₀ ht₀
  obtain ⟨r, ⟨t, ht, l, hw, ⟨u, hu, hl⟩, rfl⟩, hmax⟩ :=
    (wellFounded_gt (α := R)).has_min wanted ⟨rank l₀, t₀, ht₀, l₀, hw₀, hh₀, rfl⟩
  -- the holder of that mutex wants a higher one
  obtain ⟨l', ⟨p, hstep⟩, hh'⟩ := hall u hu
  have hlt := LockProg.rank_lt_of_acquire hstep (h.accepted u) l hl
  exact hmax (rank l') ⟨u, hu, l', ⟨p, hstep⟩, hh', rfl⟩ hlt

theorem run [DecidableEq T] (h : Disciplined rank s) (hops : ∀ p ∈ ops, p.check rank [] = some [])
    {ts : List T} (hrun : Run (Step ops) s ts s') : Disciplined rank s' :=
  hrun.invariant (fun _ _ _ hd hstep => hd.step hops hstep) h

end Disciplined

end LockThread

end Librocks
