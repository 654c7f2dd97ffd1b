import FiniteAutomata.Proofs.Acceptance

/-!
# The subsets of the subset construction

The search for subsets finds the start, never leaves what it has found
(`contains_subsets_step`), and finds exactly the configurations that words
lead to, the empty one apart (`exists_word_of_mem_subsets`,
`exists_subset_of_configuration`).
-/

namespace FiniteAutomata

theorem sameSet_canonicalSubset (qs : List Value) : SameSet (canonicalSubset qs) qs :=
  (sameSet_canonicalOrder _).trans (sameSet_distinct qs)

namespace Automaton

variable {A : Automaton}

/-! ## One step -/

theorem image_congr {s s' : Subset} {a a' : Value} (hs : (s == s') = true) (ha : (a == a') = true) :
    A.image s a = A.image s' a' := by
  have h : s.flatMap (A.successors · a) = s'.flatMap (A.successors · a') := by
    induction s generalizing s' with
    | nil =>
      cases s' with
      | nil => rfl
      | cons _ _ => cases hs
    | cons q s ih =>
      cases s' with
      | nil => cases hs
      | cons q' s' =>
        obtain ⟨hq, hs⟩ := list_beq_cons_iff.mp hs
        rw [List.flatMap_cons, List.flatMap_cons, ih hs, A.successors_congr hq ha]
  unfold image
  rw [h]

theorem step_congr {s s' : Subset} {a a' : Value} (hs : (s == s') = true) (ha : (a == a') = true) :
    A.step s a = A.step s' a' := by
  unfold step
  rw [image_congr hs ha]

theorem subsetStep?_eq (s : Subset) (a : Value) :
    A.subsetStep? s a = if (A.step s a).isEmpty then none else some (canonicalSubset (A.step s a)) := by
  unfold subsetStep? step
  simp only [closure_isEmpty]

theorem contains_alphabet_of_step {qs : List Value} {a : Value} (h : (A.step qs a).isEmpty = false) :
    A.alphabet.contains a = true := by
  rw [step, closure_isEmpty, isEmpty_eq_false_iff_exists_contains] at h
  obtain ⟨r, hr⟩ := h
  obtain ⟨q, _, hr⟩ := A.contains_image_iff.mp hr
  obtain ⟨t, ht, he, _, ha, _⟩ := A.contains_successors_iff.mp hr
  unfold alphabet
  rw [contains_distinct]
  exact contains_of_beq (A.wellFormed.contains_symbol ht he) ha

/-! ## The search -/

def nextSubsets (A : Automaton) (s : Subset) : List Subset := A.symbols.filterMap (A.subsetStep? s)

theorem mem_nextSubsets {s t : Subset} : t ∈ A.nextSubsets s ↔
    ∃ a ∈ A.alphabet, (A.step s a).isEmpty = false ∧ t = canonicalSubset (A.step s a) := by
  unfold nextSubsets
  rw [funext (subsetStep?_eq s)]
  exact mem_filterMap_symbols

theorem isStateSet_of_mem_nextSubsets {s t : Subset} (h : t ∈ A.nextSubsets s) : A.IsStateSet t := by
  obtain ⟨a, _, _, rfl⟩ := mem_nextSubsets.mp h
  exact (isStateSet_step s a).canonicalSubset

/-- The search never leaves the lists over the supply, which are few enough
for its bound. -/
theorem contains_listsUpTo_of_mem_nextSubsets {s t : Subset} (ht : t ∈ A.nextSubsets s) :
    (listsUpTo A.stateLabels A.labelCount).contains t = true :=
  contains_listsUpTo_stateLabels (isStateSet_of_mem_nextSubsets ht)

theorem contains_listsUpTo_startSubset :
    ∀ s ∈ [A.startSubset], (listsUpTo A.stateLabels A.labelCount).contains s = true := by
  intro s hs
  rw [List.mem_singleton.mp hs]
  exact contains_listsUpTo_stateLabels isStateSet_initialConfiguration.canonicalSubset

theorem subsets_closed : A.subsets.contains A.startSubset = true ∧
    ∀ s ∈ A.subsets, ∀ t ∈ A.nextSubsets s, A.subsets.contains t = true := by
  obtain ⟨hfound, hclosed⟩ := explore_closed (fun _ _ _ => contains_listsUpTo_of_mem_nextSubsets)
    contains_listsUpTo_startSubset length_listsUpTo_stateLabels
  exact ⟨hfound _ (List.mem_singleton.mpr rfl), hclosed⟩

theorem explore_nextSubsets {bound : Nat} (h : listsBound A.labelCount ≤ bound) :
    explore A.nextSubsets bound [A.startSubset] = A.subsets :=
  explore_eq_of_le (fun _ _ _ => contains_listsUpTo_of_mem_nextSubsets) contains_listsUpTo_startSubset
    length_listsUpTo_stateLabels h

theorem reaches_of_mem_subsets {s : Subset} (h : s ∈ A.subsets) : Reaches A.nextSubsets [A.startSubset] s :=
  reaches_of_mem_explore h

theorem exists_encoded_of_mem_subsets {s : Subset} (h : s ∈ A.subsets) :
    ∃ qs, A.IsStateSet qs ∧ s = canonicalSubset qs := by
  cases reaches_of_mem_subsets h with
  | start hs => exact ⟨_, isStateSet_initialConfiguration, List.mem_singleton.mp hs⟩
  | @step s _ _ hs =>
    obtain ⟨a, _, _, heq⟩ := mem_nextSubsets.mp hs
    exact ⟨_, isStateSet_step s a, heq⟩

theorem isStateSet_of_mem_subsets {s : Subset} (h : s ∈ A.subsets) : A.IsStateSet s := by
  obtain ⟨qs, hqs, rfl⟩ := exists_encoded_of_mem_subsets h
  exact hqs.canonicalSubset

theorem contains_subsets_step {s : Subset} {a : Value} (hs : A.subsets.contains s = true)
    (hne : (A.step s a).isEmpty = false) : A.subsets.contains (canonicalSubset (A.step s a)) = true := by
  obtain ⟨s', hs', heq⟩ := List.contains_iff_exists_mem_beq.mp hs
  obtain ⟨a', ha', haa⟩ := List.contains_iff_exists_mem_beq.mp (contains_alphabet_of_step hne)
  rw [step_congr heq haa] at hne ⊢
  exact subsets_closed.2 s' hs' _ (mem_nextSubsets.mpr ⟨a', ha', hne, rfl⟩)

/-! ## Subsets and words -/

theorem exists_word_of_reaches {s : Subset} (h : Reaches A.nextSubsets [A.startSubset] s) :
    ∃ w, A.IsOverAlphabet w ∧ (A.configuration w).isEmpty = false ∧ SameSet s (A.configuration w) := by
  induction h with
  | start hs =>
    rw [List.mem_singleton.mp hs]
    exact ⟨[], isOverAlphabet_nil, isEmpty_initialConfiguration, sameSet_canonicalSubset _⟩
  | @step s t _ ht ih =>
    obtain ⟨w, hw, _, hsame⟩ := ih
    obtain ⟨a, ha, hne, rfl⟩ := mem_nextSubsets.mp ht
    have hstep : SameSet (A.step s a) (A.configuration (w ++ [a])) := by
      rw [configuration_append]
      exact sameSet_step hsame BEq.rfl
    refine ⟨w ++ [a], hw.concat ha, ?_, (sameSet_canonicalSubset _).trans hstep⟩
    rw [← hstep.isEmpty_eq]; exact hne

theorem exists_word_of_mem_subsets {s : Subset} (h : s ∈ A.subsets) :
    ∃ w, A.IsOverAlphabet w ∧ (A.configuration w).isEmpty = false ∧ SameSet s (A.configuration w) :=
  exists_word_of_reaches (reaches_of_mem_subsets h)

theorem exists_subset_of_foldl_step {w qs : List Value} {s : Subset} (hs : A.subsets.contains s = true)
    (hsame : SameSet s qs) (hne : (w.foldl A.step qs).isEmpty = false) :
    ∃ t, A.subsets.contains t = true ∧ SameSet t (w.foldl A.step qs) := by
  induction w generalizing qs s with
  | nil => exact ⟨s, hs, hsame⟩
  | cons a w ih =>
    have hstep : SameSet (A.step s a) (A.step qs a) := sameSet_step hsame BEq.rfl
    have hlive : (A.step s a).isEmpty = false := by
      rw [hstep.isEmpty_eq]
      exact isEmpty_step_of_foldl hne
    exact ih (contains_subsets_step hs hlive) ((sameSet_canonicalSubset _).trans hstep) hne

theorem exists_subset_of_configuration {w : List Value} (hne : (A.configuration w).isEmpty = false) :
    ∃ s ∈ A.subsets, SameSet s (A.configuration w) := by
  obtain ⟨t, ht, hsame⟩ := exists_subset_of_foldl_step subsets_closed.1 (sameSet_canonicalSubset _) hne
  obtain ⟨s, hs, heq⟩ := List.contains_iff_exists_mem_beq.mp ht
  exact ⟨s, hs, (sameSet_of_beq heq).symm.trans hsame⟩

theorem exists_meets_subset_iff : (∃ s ∈ A.subsets, meets s A.finals = true) ↔ ∃ w, A.Accepts w := by
  rw [exists_accepts_iff]
  constructor
  · intro ⟨s, hs, hm⟩
    obtain ⟨w, hw, _, hsame⟩ := exists_word_of_mem_subsets hs
    exact ⟨w, hw, by rw [← hsame.meets_eq]; exact hm⟩
  · intro ⟨w, _, hm⟩
    obtain ⟨s, hs, hsame⟩ := exists_subset_of_configuration (isEmpty_eq_false_of_meets hm)
    exact ⟨s, hs, by rw [hsame.meets_eq]; exact hm⟩

end Automaton

end FiniteAutomata
