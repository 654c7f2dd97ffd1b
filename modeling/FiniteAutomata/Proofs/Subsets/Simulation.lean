import FiniteAutomata.Proofs.Subsets.Determinized

/-!
# The deterministic run simulates the nondeterministic one

A state of the determinized automaton stands for a configuration when it is a
tuple of the same states. Reading a symbol keeps that (`move_of_subset`), so
both runs end alike on every word (`determinize_preserves_runs`).
-/

namespace FiniteAutomata

/-- The outcome of a run over tuples of states stands for the outcome of a run
over configurations. -/
structure Outcome.StandsFor (o o' : Outcome) : Prop where
  verdict : o.verdict = o'.verdict
  consumed : o.consumed = o'.consumed
  finalStates : (o.finalStates = [] ∧ o'.finalStates = []) ∨
    ∃ t, o.finalStates = [.tuple t] ∧ SameSet t o'.finalStates

namespace Automaton

variable {A D : Automaton}

theorem length_successors_le_one (hk : D.kind = .dfa) (q a : Value) : (D.successors q a).length ≤ 1 := by
  unfold successors
  rw [D.moves_eq]
  apply Draft.targets_length_le_one_iff.mpr
  intro t ht u hu _ _ hs ha
  exact D.wellFormed.deterministic hk t ht u hu hs ha

theorem successorsOf_eq_ok {q a : Value} (hq : q.isHashable = true) (ha : a.isHashable = true) :
    D.successorsOf q a = .ok (D.successors q a) := by
  have h : checkHashes [q, a] = .ok () := by
    rw [checkHashes_eq_ok_iff]
    simp [hq, ha]
  simp [successorsOf, checkLookup, h, Except.map]

theorem successorsOf_eq_error {q a : Value} {e : Fault} (hq : q.isHashable = true) (ha : a.checkHash = .error e) :
    D.successorsOf q a = .error e := by
  simp [successorsOf, checkLookup, checkHashes, Value.checkHash_eq_ok hq, ha, Except.map]

theorem isEmpty_of_contains_subsets {s : Subset} (hs : A.subsets.contains s = true) : s.isEmpty = false := by
  obtain ⟨s', hs', heq⟩ := List.contains_iff_exists_mem_beq.mp hs
  obtain ⟨w, _, hne, hsame⟩ := exists_word_of_mem_subsets hs'
  rw [(sameSet_of_beq heq).isEmpty_eq, hsame.isEmpty_eq]
  exact hne

section
variable (hD : D.draft = A.subsetDraft)
include hD

theorem kind_of_draft_eq : D.kind = .dfa := by
  unfold kind
  rw [hD]; rfl

/-- A subset has no successor where the configuration dies, and otherwise the
one subset that the configuration goes on to. -/
theorem successors_of_subset {s : Subset} (hs : A.subsets.contains s = true) (a : Value) :
    D.successors (.tuple s) a =
      if (A.step s a).isEmpty then [] else [.tuple (canonicalSubset (A.step s a))] := by
  have hlen := length_successors_le_one (kind_of_draft_eq hD) (.tuple s) a
  have hmem : ∀ r ∈ D.successors (.tuple s) a,
      (A.step s a).isEmpty = false ∧ r = .tuple (canonicalSubset (A.step s a)) := by
    intro r hr
    obtain ⟨t, ht, _, hsource, hsymbol, rfl⟩ := mem_successors hr
    rw [hD] at ht
    exact target_of_edge ht hsource hsymbol
  by_cases hd : (A.step s a).isEmpty = true
  · rw [if_pos hd]
    apply List.eq_nil_iff_forall_not_mem.mpr
    intro r hr
    have := (hmem r hr).1
    rw [hd] at this; cases this
  · rw [if_neg hd]
    rw [Bool.not_eq_true] at hd
    obtain ⟨t, ht, hsource, hsymbol, htarget⟩ := exists_edge hs hd
    have he := isEpsilon_of_mem_subsetDraft ht
    have hc : (D.successors (.tuple s) a).contains t.target = true :=
      D.contains_successors_iff.mpr ⟨t, by rw [hD]; exact ht, he, hsource, hsymbol, BEq.rfl⟩
    obtain ⟨r, hr, _⟩ := List.contains_iff_exists_mem_beq.mp hc
    obtain ⟨r', hr'⟩ := List.length_eq_one_iff.mp (Nat.le_antisymm hlen (List.length_pos_of_mem hr))
    rw [hr', List.mem_singleton] at hr
    rw [hr', ← hr, (hmem r (by rw [hr', hr]; exact List.mem_cons_self)).2]

theorem finals_contains_tuple {s qs : List Value} (hs : A.subsets.contains s = true) (hsame : SameSet s qs) :
    D.finals.contains (.tuple s) = meets qs A.finals := by
  have hfinals : D.finals = distinct A.subsetDraft.finals := by rw [← hD]; rfl
  rw [hfinals, contains_distinct, contains_finals_subsetDraft hs, hsame.meets_eq]

/-- Both runs, from a subset and from the configuration it stands for, end
alike, or fail on the same symbol. -/
theorem runDfaFrom_standsFor_or_fails {w qs : List Value} {s : Subset} {n : Nat} (hs : A.subsets.contains s = true)
    (hset : A.IsStateSet s) (hqs : A.IsStateSet qs) (hsame : SameSet s qs) :
    (∃ o o', (D.runDfaFrom (.tuple s) n w).outcome = .ok o ∧ (A.runNfaFrom qs n w).outcome = .ok o' ∧
      o.StandsFor o') ∨
    ∃ a ∈ w, a.isHashable = false ∧ ∃ e, (D.runDfaFrom (.tuple s) n w).outcome = .error e ∧
      (A.runNfaFrom qs n w).outcome = .error e := by
  induction w generalizing qs s n with
  | nil =>
    refine Or.inl ⟨_, _, rfl, rfl, ?_, rfl, Or.inr ⟨s, rfl, hsame⟩⟩
    show Verdict.ofBool (D.finals.contains (.tuple s)) = Verdict.ofBool (meets qs A.finals)
    rw [finals_contains_tuple hD hs hsame]
  | cons a w ih =>
    have hstep : SameSet (A.step s a) (A.step qs a) := sameSet_step hsame BEq.rfl
    have htuple : (Value.tuple s).isHashable = true := isHashable_tuple_iff.mpr hset.isHashable
    unfold runDfaFrom runNfaFrom
    -- both runs look up the same symbol, so both go on or both fail
    rcases a.checkHash_cases with ⟨ha, _⟩ | ⟨name, ha, hfault⟩
    · rw [stepOn_eq_ok hqs.isHashable ha, successorsOf_eq_ok htuple ha, successors_of_subset hD hs, hstep.isEmpty_eq]
      by_cases hd : (A.step qs a).isEmpty = true
      · simp only [hd, if_true]
        exact Or.inl ⟨_, _, rfl, rfl, rfl, rfl, Or.inl ⟨rfl, rfl⟩⟩
      · simp only [hd]
        have hlive : (A.step s a).isEmpty = false := by
          rw [hstep.isEmpty_eq]
          simpa using hd
        rcases ih (n := n + 1) (contains_subsets_step hs hlive) (isStateSet_step s a).canonicalSubset
          (isStateSet_step qs a) ((sameSet_canonicalSubset _).trans hstep) with hends | ⟨b, hb, hfails⟩
        · exact Or.inl hends
        · exact Or.inr ⟨b, List.mem_cons_of_mem _ hb, hfails⟩
    · have hne : qs.isEmpty = false := by
        rw [← hsame.isEmpty_eq]
        exact isEmpty_of_contains_subsets hs
      rw [stepOn_eq_error hne hqs.isHashable hfault, successorsOf_eq_error htuple hfault]
      exact Or.inr ⟨a, List.mem_cons_self, ha, _, rfl, rfl⟩

theorem runDfa_standsFor_or_fails (w : List Value) :
    (∃ o o', (D.runDfa w).outcome = .ok o ∧ (A.runNfa w).outcome = .ok o' ∧ o.StandsFor o') ∨
    ∃ a ∈ w, a.isHashable = false ∧ ∃ e, (D.runDfa w).outcome = .error e ∧ (A.runNfa w).outcome = .error e := by
  have hstart : D.initial = .tuple A.startSubset := by
    unfold initial
    rw [hD]; rfl
  unfold runDfa checkDfa runNfa
  rw [kind_of_draft_eq hD, if_pos rfl, hstart]
  exact runDfaFrom_standsFor_or_fails hD subsets_closed.1 isStateSet_initialConfiguration.canonicalSubset
    isStateSet_initialConfiguration (sameSet_canonicalSubset _)

end

/-- Determinization preserves runs: on every word of hashable symbols, the
deterministic run of the result and the nondeterministic run both end, with
the same verdict after the same number of symbols, and either both end in no
state or the first ends in a tuple of the states that the second ends in. -/
theorem determinize_preserves_runs (A : Automaton) : ∃ D : Automaton, A.determinize = .ok D ∧
    ∀ w : List Value, (∀ a ∈ w, a.isHashable = true) →
      ∃ o o', (D.runDfa w).outcome = .ok o ∧ (A.runNfa w).outcome = .ok o' ∧ o.StandsFor o' := by
  obtain ⟨D, hD, hdet, _⟩ := determinize_eq_ok A
  refine ⟨D, hdet, fun w hw => ?_⟩
  rcases runDfa_standsFor_or_fails hD w with hends | ⟨a, ha, hnot, _⟩
  · exact hends
  · rw [hw a ha] at hnot
    cases hnot

theorem determinize_preserves_runs_silentLoop : (∀ a ∈ [Value.text "a", epsilon], a.isHashable = true) ∧
    ∃ D, silentLoop.determinize = .ok D ∧ ∃ o o', (D.runDfa [.text "a", epsilon]).outcome = .ok o ∧
      (silentLoop.runNfa [.text "a", epsilon]).outcome = .ok o' ∧ o.StandsFor o' := by
  have hw : ∀ a ∈ [Value.text "a", epsilon], a.isHashable = true := by decide
  obtain ⟨D, hD, hruns⟩ := determinize_preserves_runs silentLoop
  exact ⟨hw, D, hD, hruns _ hw⟩

end Automaton

end FiniteAutomata
