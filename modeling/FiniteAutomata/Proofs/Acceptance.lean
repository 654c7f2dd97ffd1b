import FiniteAutomata.Proofs.NfaRuns

/-!
# Accepted words

A word of hashable symbols is accepted when the configuration after it has a
final state, and whatever some word leads to, a word over the alphabet leads
to as well. The states that a draft leads to by any walk are those of its
configurations (`contains_reachableBy_iff`).
-/

namespace FiniteAutomata

theorem exists_representatives {xs ws : List Value} (h : ∀ a ∈ ws, xs.contains a = true) :
    ∃ ws', (∀ a ∈ ws', a ∈ xs) ∧ (ws == ws') = true := by
  induction ws with
  | nil => exact ⟨[], List.forall_mem_nil _, rfl⟩
  | cons a ws ih =>
    obtain ⟨ha, hws⟩ := List.forall_mem_cons.mp h
    obtain ⟨ws', hmem, hbeq⟩ := ih hws
    obtain ⟨a', ha', haa⟩ := List.contains_iff_exists_mem_beq.mp ha
    exact ⟨a' :: ws', List.forall_mem_cons.mpr ⟨ha', hmem⟩, list_beq_cons_iff.mpr ⟨haa, hbeq⟩⟩

namespace Automaton

/-- The nondeterministic run on the word ends, and it accepts. -/
def Accepts (A : Automaton) (w : List Value) : Prop :=
  ∃ o, (A.runNfa w).outcome = .ok o ∧ o.verdict = .accepted

def IsOverAlphabet (A : Automaton) (w : List Value) : Prop := ∀ a ∈ w, a ∈ A.alphabet

variable {A : Automaton}

theorem IsOverAlphabet.isHashable {w : List Value} (h : A.IsOverAlphabet w) : ∀ a ∈ w, a.isHashable = true := by
  intro a ha
  have hmem := mem_of_mem_distinct (h a ha)
  apply isHashable_of_mem_labels (A := A)
  simp [Draft.labels, hmem]

theorem isOverAlphabet_nil : A.IsOverAlphabet [] := List.forall_mem_nil _

theorem IsOverAlphabet.concat {w : List Value} {a : Value} (h : A.IsOverAlphabet w) (ha : a ∈ A.alphabet) :
    A.IsOverAlphabet (w ++ [a]) := by
  intro b hb
  rcases List.mem_append.mp hb with hb | hb
  · exact h b hb
  · rw [List.mem_singleton.mp hb]; exact ha

theorem meets_of_runNfaFrom_accepts {w qs : List Value} {n : Nat} {o : Outcome}
    (ho : (A.runNfaFrom qs n w).outcome = .ok o) (hv : o.verdict = .accepted) :
    meets (w.foldl A.step qs) A.finals = true := by
  induction w generalizing qs n with
  | nil =>
    cases ho
    exact Verdict.ofBool_eq_accepted_iff.mp hv
  | cons a w ih =>
    unfold runNfaFrom at ho
    cases hs : A.stepOn qs a with
    | error e => rw [hs] at ho; cases ho
    | ok following =>
      rw [hs] at ho
      rw [eq_step_of_stepOn hs] at ho
      by_cases hd : (A.step qs a).isEmpty = true
      · simp only [hd, if_true] at ho
        cases ho; cases hv
      · simp only [hd] at ho
        exact ih ho

theorem accepts_iff {w : List Value} (hw : ∀ a ∈ w, a.isHashable = true) :
    A.Accepts w ↔ meets (A.configuration w) A.finals = true := by
  constructor
  · intro ⟨o, ho, hv⟩
    exact meets_of_runNfaFrom_accepts ho hv
  · intro hm
    obtain ⟨o, ho, hends⟩ := A.runNfa_ends hw
    refine ⟨o, ho, ?_⟩
    cases hends with
    | survived _ => exact Verdict.ofBool_eq_accepted_iff.mpr hm
    | died _ ha =>
      -- a dead run leaves no state that could be final
      rw [configuration_of_died ha] at hm
      cases hm

/-! ## Words over the alphabet -/

theorem contains_alphabet_of_mem_spelled {p q a : Value} {es : List Transition}
    (h : Walk A.draft.transitions p es q) (ha : a ∈ spelled es) : A.alphabet.contains a = true := by
  obtain ⟨t, ht, he, rfl⟩ := mem_spelled ha
  unfold alphabet
  rw [contains_distinct]
  exact A.wellFormed.contains_symbol (h.mem t ht) he

theorem exists_isOverAlphabet_of_leads {w : List Value} {q : Value} (h : A.draft.Leads w q) :
    ∃ w', A.IsOverAlphabet w' ∧ (w == w') = true ∧ (A.configuration w').contains q = true := by
  obtain ⟨es, hes, hw⟩ := h
  obtain ⟨w', hmem, hbeq⟩ := exists_representatives fun a ha => contains_alphabet_of_mem_spelled hes ha
  exact ⟨w', hmem, BEq.trans (BEq.symm hw) hbeq, contains_configuration_iff.mpr ⟨es, hes, hbeq⟩⟩

theorem contains_reachableBy_iff {q : Value} : (reachableBy A.draft.transitions A.draft.initial).contains q = true ↔
    ∃ w, A.IsOverAlphabet w ∧ (A.configuration w).contains q = true := by
  rw [contains_reachableBy_iff_walk]
  constructor
  · intro ⟨es, hes⟩
    obtain ⟨w, hw, _, hq⟩ := exists_isOverAlphabet_of_leads ⟨es, hes, BEq.rfl⟩
    exact ⟨w, hw, hq⟩
  · intro ⟨w, _, hq⟩
    obtain ⟨es, hes, _⟩ := contains_configuration_iff.mp hq
    exact ⟨es, hes⟩

/-- Symbols outside the alphabet lead nowhere, so an accepted word equals one
over the alphabet. -/
theorem exists_isOverAlphabet_of_accepts {w : List Value} (h : A.Accepts w) :
    ∃ w', A.IsOverAlphabet w' ∧ (w == w') = true ∧ meets (A.configuration w') A.finals = true := by
  obtain ⟨o, ho, hv⟩ := h
  have hm : meets (A.configuration w) A.finals = true := meets_of_runNfaFrom_accepts ho hv
  obtain ⟨q, hq, hf⟩ := meets_iff_exists_contains.mp hm
  obtain ⟨w', hw', hbeq, hq'⟩ := exists_isOverAlphabet_of_leads (contains_configuration_iff.mp hq)
  exact ⟨w', hw', hbeq, meets_iff_exists_contains.mpr ⟨q, hq', hf⟩⟩

theorem exists_accepts_iff :
    (∃ w, A.Accepts w) ↔ ∃ w, A.IsOverAlphabet w ∧ meets (A.configuration w) A.finals = true := by
  constructor
  · intro ⟨w, hw⟩
    obtain ⟨w', hw', _, hm⟩ := exists_isOverAlphabet_of_accepts hw
    exact ⟨w', hw', hm⟩
  · intro ⟨w, hw, hm⟩
    exact ⟨w, (accepts_iff hw.isHashable).mpr hm⟩

theorem foldlM_stepOn {w qs : List Value} (hqs : A.IsStateSet qs) (hw : ∀ a ∈ w, a.isHashable = true) :
    w.foldlM A.stepOn qs = .ok (w.foldl A.step qs) := by
  induction w generalizing qs with
  | nil => rfl
  | cons a w ih =>
    obtain ⟨ha, hw⟩ := List.forall_mem_cons.mp hw
    rw [List.foldlM_cons, stepOn_eq_ok hqs.isHashable ha, List.foldl_cons]
    exact ih (isStateSet_step qs a) hw

end Automaton

end FiniteAutomata
