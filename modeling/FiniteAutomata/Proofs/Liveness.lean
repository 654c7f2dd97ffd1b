import FiniteAutomata.Proofs.Acceptance

/-!
# Live states

The states that the reachability check knows to be live are the states of the
configurations after words over the alphabet. It tells that no final state is
reachable exactly when no word is accepted
(`exists_noFinalStateReachable_iff`).
-/

namespace FiniteAutomata

namespace Draft

variable {d : Draft}

/-- The declared states that some walk from the initial state leads to. -/
def live (d : Draft) : List Value := (reachableBy d.transitions d.initial).filter d.states.contains

theorem live?_eq_of_declared (h : d.states.contains d.initial = true) : d.live? = some d.live := by
  unfold live?
  rw [if_pos h]; rfl

theorem WellFormed.live?_eq (h : d.WellFormed) : d.live? = some d.live := live?_eq_of_declared h.initial

theorem contains_live_iff {q : Value} :
    d.live.contains q = true ↔ (reachableBy d.transitions d.initial).contains q = true ∧ d.states.contains q = true :=
  contains_filter_iff fun _ _ => contains_congr

theorem WellFormed.contains_states_of_walk (h : d.WellFormed) {p q : Value} {es : List Transition}
    (hes : Walk d.transitions p es q) (hp : d.states.contains p = true) : d.states.contains q = true := by
  induction hes with
  | stay hpq => exact contains_of_beq hp hpq
  | go ht _ _ ih => exact ih (h.target _ ht)

theorem WellFormed.contains_live_iff_walk (h : d.WellFormed) {q : Value} :
    d.live.contains q = true ↔ ∃ es, Walk d.transitions d.initial es q := by
  rw [contains_live_iff, contains_reachableBy_iff_walk, and_iff_left_iff_imp]
  intro ⟨es, hes⟩
  exact h.contains_states_of_walk hes h.initial

/-! ## Issues of a sound draft -/

theorem WellFormed.findings_eq (h : d.WellFormed) (strict : Bool) :
    d.findings strict = d.unreachableStates d.live strict ++ d.unreachableFinals d.live strict := by
  have hs := isSound_iff_wellFormed.mpr h
  unfold isSound at hs
  simp only [Bool.and_eq_true, List.isEmpty_iff] at hs
  obtain ⟨⟨hr, hu⟩, ha⟩ := hs
  rw [findings_eq_append]
  rw [h.live?_eq, hr, hu, ha]
  simp [whenKnown]

theorem exists_mem_unreachableFinals_iff {live : List Value} (strict : Bool) :
    (∃ i ∈ d.unreachableFinals live strict, i.code = .noFinalStateReachable) ↔ meets d.finals live = false := by
  unfold unreachableFinals
  by_cases hm : meets d.finals live = true
  · rw [if_pos hm, hm]
    constructor
    · intro ⟨i, hi, hc⟩
      obtain ⟨⟨q, n⟩, _, hi⟩ := List.mem_filterMap.mp hi
      dsimp only at hi
      split at hi
      · cases hi
      · cases hi; cases hc
    · intro h; cases h
  · rw [if_neg hm]
    simp [finding, hm]

end Draft

namespace Automaton

variable {A : Automaton}

theorem exists_noFinalStateReachable_iff_meets :
    (∃ i ∈ A.issues, i.code = .noFinalStateReachable) ↔ meets A.draft.finals A.draft.live = false := by
  rw [← Draft.exists_mem_unreachableFinals_iff false]
  unfold issues
  rw [A.wellFormed.findings_eq]
  constructor
  · intro ⟨i, hi, hc⟩
    obtain ⟨j, hj, rfl⟩ := List.mem_map.mp hi
    rcases List.mem_append.mp hj with hj | hj
    · have := (Draft.isTold_of_mem_unreachableStates hj).code
      rw [show (Issue.about A.id j).code = j.code from rfl, this] at hc
      cases hc
    · exact ⟨j, hj, hc⟩
  · intro ⟨i, hi, hc⟩
    exact ⟨Issue.about A.id i, List.mem_map_of_mem (List.mem_append_right _ hi), hc⟩

theorem contains_live_iff {q : Value} :
    A.draft.live.contains q = true ↔ ∃ w, A.IsOverAlphabet w ∧ (A.configuration w).contains q = true := by
  rw [A.wellFormed.contains_live_iff_walk, ← contains_reachableBy_iff_walk, contains_reachableBy_iff]

theorem exists_noFinalStateReachable_iff :
    (∃ i ∈ A.issues, i.code = .noFinalStateReachable) ↔ ∀ w, ¬ A.Accepts w := by
  rw [exists_noFinalStateReachable_iff_meets, ← not_exists, exists_accepts_iff, ← Bool.not_eq_true]
  apply not_congr
  rw [meets_iff_exists_contains]
  constructor
  · intro ⟨q, hf, hq⟩
    obtain ⟨w, hw, hq⟩ := contains_live_iff.mp hq
    refine ⟨w, hw, meets_iff_exists_contains.mpr ⟨q, hq, ?_⟩⟩
    unfold finals
    rw [contains_distinct]; exact hf
  · intro ⟨w, hw, hm⟩
    obtain ⟨q, hq, hf⟩ := meets_iff_exists_contains.mp hm
    unfold finals at hf
    rw [contains_distinct] at hf
    exact ⟨q, hf, contains_live_iff.mpr ⟨w, hw, hq⟩⟩

end Automaton

end FiniteAutomata
