import Mathlib.Data.Finmap
import Mathlib.Data.Finset.Max
import Mathlib.Data.Set.Function
import Mathlib.Order.Interval.Set.Defs
import Mathlib.Tactic

/-!
# Finite maps, and the segments a numbered queue stores in them

`FMap κ ν` is Mathlib's `Finmap` at a constant family. This module adds the restriction of a map to a
decidable set of keys, its least and its greatest key, and *segments*: `segment code lo vs` is the map
that stores the list `vs` under the consecutive numbers `lo, lo + 1, …` through a key code.

A segment is how a first-in first-out queue lies in an ordered map. Appending at the top, removing at
the bottom and reading the extreme keys are the lemmas `segment_concat`, `segment_erase_head`,
`segment_firstKey` and `segment_lastKey`; each asks only that the code be injective (or strictly
monotone) on the numbers in use.
-/

namespace Librocks

/-- Finite maps from keys `κ` to values `ν`. -/
abbrev FMap (κ ν : Type*) := Finmap (fun _ : κ => ν)

namespace FMap

variable {κ ν : Type*}

section Order

variable [LinearOrder κ]

/-- The least key of a map, if it has one. -/
def firstKey (m : FMap κ ν) : Option κ :=
  if h : m.keys.Nonempty then some (m.keys.min' h) else none

/-- The greatest key of a map, if it has one. -/
def lastKey (m : FMap κ ν) : Option κ :=
  if h : m.keys.Nonempty then some (m.keys.max' h) else none

theorem firstKey_eq_some_iff {m : FMap κ ν} {k : κ} :
    firstKey m = some k ↔ k ∈ m ∧ ∀ x ∈ m, k ≤ x := by
  unfold firstKey
  split
  · next h =>
    rw [Option.some.injEq]
    constructor
    · rintro rfl
      exact ⟨Finmap.mem_keys.mp (Finset.min'_mem _ h),
        fun x hx => Finset.min'_le _ _ (Finmap.mem_keys.mpr hx)⟩
    · rintro ⟨hk, hle⟩
      exact le_antisymm (Finset.min'_le _ _ (Finmap.mem_keys.mpr hk))
        (hle _ (Finmap.mem_keys.mp (Finset.min'_mem _ h)))
  · next h =>
    constructor
    · intro hk; cases hk
    · rintro ⟨hk, _⟩
      exact absurd ⟨k, Finmap.mem_keys.mpr hk⟩ h

theorem lastKey_eq_some_iff {m : FMap κ ν} {k : κ} :
    lastKey m = some k ↔ k ∈ m ∧ ∀ x ∈ m, x ≤ k := by
  unfold lastKey
  split
  · next h =>
    rw [Option.some.injEq]
    constructor
    · rintro rfl
      exact ⟨Finmap.mem_keys.mp (Finset.max'_mem _ h),
        fun x hx => Finset.le_max' _ _ (Finmap.mem_keys.mpr hx)⟩
    · rintro ⟨hk, hle⟩
      exact le_antisymm (hle _ (Finmap.mem_keys.mp (Finset.max'_mem _ h)))
        (Finset.le_max' _ _ (Finmap.mem_keys.mpr hk))
  · next h =>
    constructor
    · intro hk; cases hk
    · rintro ⟨hk, _⟩
      exact absurd ⟨k, Finmap.mem_keys.mpr hk⟩ h

theorem exists_firstKey {m : FMap κ ν} {k : κ} (h : k ∈ m) : ∃ x, firstKey m = some x :=
  ⟨_, dif_pos ⟨k, Finmap.mem_keys.mpr h⟩⟩

theorem exists_lastKey {m : FMap κ ν} {k : κ} (h : k ∈ m) : ∃ x, lastKey m = some x :=
  ⟨_, dif_pos ⟨k, Finmap.mem_keys.mpr h⟩⟩

@[simp] theorem firstKey_empty : firstKey (∅ : FMap κ ν) = none := by
  simp [firstKey]

@[simp] theorem lastKey_empty : lastKey (∅ : FMap κ ν) = none := by
  simp [lastKey]

end Order

variable [DecidableEq κ]

theorem eq_empty_or_exists_mem (m : FMap κ ν) : m = ∅ ∨ ∃ k, k ∈ m := by
  by_cases h : ∃ k, k ∈ m
  · exact .inr h
  · refine .inl (Finmap.ext_lookup fun k => ?_)
    rw [Finmap.lookup_empty, Finmap.lookup_eq_none]
    exact fun hk => h ⟨k, hk⟩

/-- The entries of `m` whose keys satisfy `p`. -/
def filter (p : κ → Prop) [DecidablePred p] (m : FMap κ ν) : FMap κ ν where
  entries := m.entries.filter fun e => p e.1
  nodupKeys := by
    have hkeys : m.entries.keys.Nodup := Multiset.nodup_keys.mpr m.nodupKeys
    exact Multiset.nodup_keys.mp
      (Multiset.nodup_of_le (Multiset.map_le_map (Multiset.filter_le _ _)) hkeys)

theorem erase_of_notMem {m : FMap κ ν} {k : κ} (hk : k ∉ m) : m.erase k = m := by
  refine Finmap.ext_lookup fun x => ?_
  by_cases hx : x = k
  · subst hx
    rw [Finmap.lookup_erase, Finmap.lookup_eq_none.mpr hk]
  · rw [Finmap.lookup_erase_ne hx]

/-- Erasing a freshly inserted key undoes the insertion. -/
theorem erase_insert {m : FMap κ ν} {k : κ} (v : ν) (hk : k ∉ m) :
    (m.insert k v).erase k = m := by
  apply Finmap.ext_lookup
  intro x
  by_cases hx : x = k
  · subst hx
    rw [Finmap.lookup_erase, Finmap.lookup_eq_none.mpr hk]
  · rw [Finmap.lookup_erase_ne hx, Finmap.lookup_insert_of_ne _ hx]

theorem keys_insert (m : FMap κ ν) (k : κ) (v : ν) :
    Finmap.keys (m.insert k v) = insert k m.keys := by
  ext x
  simp [Finmap.mem_keys, Finmap.mem_insert]

/-! ## Segments -/

/-- The map that stores `vs` under the codes of the consecutive numbers from `lo` on. -/
def segment (code : ℕ → κ) : ℕ → List ν → FMap κ ν
  | _, [] => ∅
  | lo, v :: vs => (segment code (lo + 1) vs).insert (code lo) v

variable {code : ℕ → κ}

@[simp] theorem segment_nil (lo : ℕ) : segment code lo ([] : List ν) = ∅ := rfl

theorem segment_cons (lo : ℕ) (v : ν) (vs : List ν) :
    segment code lo (v :: vs) = (segment code (lo + 1) vs).insert (code lo) v := rfl

/-- The keys of a segment are the codes of the numbers in use. -/
theorem mem_segment {lo : ℕ} {vs : List ν} {k : κ} :
    k ∈ segment code lo vs ↔ ∃ i, lo ≤ i ∧ i < lo + vs.length ∧ code i = k := by
  induction vs generalizing lo with
  | nil =>
    simp only [segment_nil, Finmap.notMem_empty, List.length_nil, Nat.add_zero, false_iff]
    rintro ⟨i, h₁, h₂, -⟩
    omega
  | cons v vs ih =>
    rw [segment_cons, Finmap.mem_insert, ih, List.length_cons]
    constructor
    · rintro (rfl | ⟨i, h₁, h₂, h⟩)
      · exact ⟨lo, le_rfl, by omega, rfl⟩
      · exact ⟨i, by omega, by omega, h⟩
    · rintro ⟨i, h₁, h₂, rfl⟩
      rcases Nat.eq_or_lt_of_le h₁ with rfl | hlt
      · exact Or.inl rfl
      · exact Or.inr ⟨i, hlt, by omega, rfl⟩

/-- A number outside the segment, inside a range on which the code is injective, has no entry. -/
theorem notMem_segment {lo n : ℕ} {vs : List ν} {I : Set ℕ} (hinj : Set.InjOn code I)
    (hseg : ∀ i, lo ≤ i → i < lo + vs.length → i ∈ I) (hn : n ∈ I)
    (hout : n < lo ∨ lo + vs.length ≤ n) : code n ∉ segment code lo vs := by
  rw [mem_segment]
  rintro ⟨i, h₁, h₂, h⟩
  have hin : i = n := hinj (hseg i h₁ h₂) hn h
  omega

/-- The entry of the `i`-th number of a segment is the `i`-th value. -/
theorem lookup_segment {lo : ℕ} {vs : List ν}
    (hinj : Set.InjOn code (Set.Ico lo (lo + vs.length))) {i : ℕ} (hi : i < vs.length) :
    (segment code lo vs).lookup (code (lo + i)) = vs[i]? := by
  induction vs generalizing lo i with
  | nil => simp at hi
  | cons v vs ih =>
    rw [segment_cons]
    cases i with
    | zero => simp
    | succ i =>
      have hi' : i < vs.length := by simpa using hi
      have hne : code (lo + (i + 1)) ≠ code lo := by
        intro h
        have heq : lo + (i + 1) = lo := hinj ⟨by omega, by simp only [List.length_cons]; omega⟩
          ⟨le_rfl, by simp only [List.length_cons]; omega⟩ h
        omega
      have hinj' : Set.InjOn code (Set.Ico (lo + 1) (lo + 1 + vs.length)) := by
        refine hinj.mono fun x hx => ?_
        simp only [Set.mem_Ico, List.length_cons] at hx ⊢
        omega
      rw [Finmap.lookup_insert_of_ne _ hne, show lo + (i + 1) = lo + 1 + i by omega,
        ih hinj' hi']
      simp

/-- The oldest entry of a non-empty segment. -/
theorem lookup_segment_head (lo : ℕ) (v : ν) (vs : List ν) :
    (segment code lo (v :: vs)).lookup (code lo) = some v := by
  rw [segment_cons, Finmap.lookup_insert]

/-- Removing the oldest entry leaves the segment of the others, one number further. -/
theorem segment_erase_head {lo : ℕ} {v : ν} {vs : List ν}
    (hinj : Set.InjOn code (Set.Ico lo (lo + (v :: vs).length))) :
    (segment code lo (v :: vs)).erase (code lo) = segment code (lo + 1) vs := by
  rw [segment_cons, erase_insert]
  refine notMem_segment hinj (fun i h₁ h₂ => ?_) ?_ (Or.inl (Nat.lt_succ_self lo)) <;>
    simp only [Set.mem_Ico, List.length_cons] <;> omega

/-- Writing at the first free number appends. -/
theorem segment_concat {lo : ℕ} {vs : List ν} (v : ν)
    (hinj : Set.InjOn code (Set.Icc lo (lo + vs.length))) :
    segment code lo (vs ++ [v]) = (segment code lo vs).insert (code (lo + vs.length)) v := by
  induction vs generalizing lo with
  | nil => rfl
  | cons w ws ih =>
    have hinj' : Set.InjOn code (Set.Icc (lo + 1) (lo + 1 + ws.length)) := by
      refine hinj.mono fun x hx => ?_
      simp only [Set.mem_Icc, List.length_cons] at hx ⊢
      omega
    have hne : code (lo + 1 + ws.length) ≠ code lo := by
      intro h
      have heq : lo + 1 + ws.length = lo :=
        hinj (by simp only [Set.mem_Icc, List.length_cons]; omega)
          (by simp only [Set.mem_Icc, List.length_cons]; omega) h
      omega
    rw [List.cons_append, segment_cons, ih hinj', segment_cons, List.length_cons,
      show lo + (ws.length + 1) = lo + 1 + ws.length by omega,
      Finmap.insert_insert_of_ne _ hne]

/-- A segment has as many entries as values. -/
theorem card_keys_segment {lo : ℕ} {vs : List ν}
    (hinj : Set.InjOn code (Set.Ico lo (lo + vs.length))) :
    (segment code lo vs).keys.card = vs.length := by
  induction vs generalizing lo with
  | nil => simp
  | cons v vs ih =>
    have hinj' : Set.InjOn code (Set.Ico (lo + 1) (lo + 1 + vs.length)) := by
      refine hinj.mono fun x hx => ?_
      simp only [Set.mem_Ico, List.length_cons] at hx ⊢
      omega
    have hnew : code lo ∉ (segment code (lo + 1) vs).keys := by
      rw [Finmap.mem_keys]
      refine notMem_segment hinj (fun i h₁ h₂ => ?_) ?_ (Or.inl (Nat.lt_succ_self lo)) <;>
        simp only [Set.mem_Ico, List.length_cons] <;> omega
    rw [segment_cons, keys_insert, Finset.card_insert_of_notMem hnew, ih hinj', List.length_cons]

/-- A map whose keys are the codes of a run of consecutive numbers is a segment. -/
theorem exists_segment_of_mem_iff {m : FMap κ ν} {lo n : ℕ}
    (hinj : Set.InjOn code (Set.Ico lo (lo + n)))
    (hm : ∀ k, k ∈ m ↔ ∃ i, lo ≤ i ∧ i < lo + n ∧ code i = k) :
    ∃ vs : List ν, vs.length = n ∧ m = segment code lo vs := by
  induction n generalizing m lo with
  | zero =>
    refine ⟨[], rfl, Finmap.ext_lookup fun k => ?_⟩
    have hk : k ∉ m := by
      rw [hm]
      rintro ⟨i, h₁, h₂, -⟩
      omega
    rw [Finmap.lookup_eq_none.mpr hk, segment_nil, Finmap.lookup_empty]
  | succ n ih =>
    obtain ⟨v, hv⟩ := Finmap.mem_iff.mp ((hm (code lo)).mpr ⟨lo, le_rfl, by omega, rfl⟩)
    have hinj' : Set.InjOn code (Set.Ico (lo + 1) (lo + 1 + n)) := by
      refine hinj.mono fun x hx => ?_
      simp only [Set.mem_Ico] at hx ⊢
      omega
    obtain ⟨vs, hlen, hvs⟩ := ih (m := m.erase (code lo)) hinj' (by
      intro k
      rw [Finmap.mem_erase, hm]
      constructor
      · rintro ⟨hne, i, h₁, h₂, rfl⟩
        have hi : i ≠ lo := fun h => hne (by rw [h])
        exact ⟨i, by omega, by omega, rfl⟩
      · rintro ⟨i, h₁, h₂, rfl⟩
        refine ⟨fun h => ?_, i, by omega, by omega, rfl⟩
        have heq : i = lo := hinj ⟨by omega, by omega⟩ ⟨le_rfl, by omega⟩ h
        omega)
    refine ⟨v :: vs, by simp [hlen], Finmap.ext_lookup fun k => ?_⟩
    rw [segment_cons, ← hvs]
    by_cases hk : k = code lo
    · subst hk
      rw [hv, Finmap.lookup_insert]
    · rw [Finmap.lookup_insert_of_ne _ hk, Finmap.lookup_erase_ne hk]

section Order

variable [LinearOrder κ]

theorem segment_firstKey {lo : ℕ} {vs : List ν}
    (hmono : StrictMonoOn code (Set.Ico lo (lo + vs.length))) (hne : vs ≠ []) :
    firstKey (segment code lo vs) = some (code lo) := by
  have hpos := List.length_pos_of_ne_nil hne
  rw [firstKey_eq_some_iff]
  refine ⟨mem_segment.mpr ⟨lo, le_rfl, by omega, rfl⟩, fun x hx => ?_⟩
  obtain ⟨i, h₁, h₂, rfl⟩ := mem_segment.mp hx
  exact (hmono.le_iff_le ⟨le_rfl, by omega⟩ ⟨h₁, h₂⟩).mpr h₁

theorem segment_lastKey {lo : ℕ} {vs : List ν}
    (hmono : StrictMonoOn code (Set.Ico lo (lo + vs.length))) (hne : vs ≠ []) :
    lastKey (segment code lo vs) = some (code (lo + vs.length - 1)) := by
  have hpos := List.length_pos_of_ne_nil hne
  rw [lastKey_eq_some_iff]
  refine ⟨mem_segment.mpr ⟨lo + vs.length - 1, by omega, by omega, rfl⟩, fun x hx => ?_⟩
  obtain ⟨i, h₁, h₂, rfl⟩ := mem_segment.mp hx
  exact (hmono.le_iff_le ⟨h₁, h₂⟩ ⟨by omega, by omega⟩).mpr (by omega)

end Order

end FMap

end Librocks
