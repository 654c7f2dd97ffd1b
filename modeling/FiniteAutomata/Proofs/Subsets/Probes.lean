import FiniteAutomata.Proofs.DefinedOrder
import FiniteAutomata.Proofs.Draws
import FiniteAutomata.Proofs.ShortestWords
import FiniteAutomata.Proofs.Subsets.Drafts

/-!
# Probes of the determinized automaton

After every word the determinized automaton is in one tuple of the states that
the other one is in, or both are in none (`Encodes`). The two searches for an
accepted word go through different configurations, and yet both give the least
word. So everything that probes are made from is the same, and so are the
probes and the draws they take (`determinize_preserves_probes`).
-/

namespace FiniteAutomata

namespace Automaton

variable {A D : Automaton}

/-! ## Configurations -/

/-- No states on both sides, or one tuple of the same states. -/
inductive Encodes (A : Automaton) : List Value → List Value → Prop
  | dead : A.Encodes [] []
  | alive {s qs : List Value} : A.subsets.contains s = true → SameSet s qs → A.Encodes [.tuple s] qs

theorem Encodes.isEmpty_eq {ps qs : List Value} (h : A.Encodes ps qs) : ps.isEmpty = qs.isEmpty := by
  cases h with
  | dead => rfl
  | alive hs hsame =>
    rw [← hsame.isEmpty_eq, isEmpty_of_contains_subsets hs]; rfl

theorem step_nil (A : Automaton) (a : Value) : A.step [] a = [] := by
  unfold step
  rw [image_nil, closure_nil]

section
variable (hD : D.draft = A.subsetDraft)
include hD

theorem Encodes.step {ps qs : List Value} (h : A.Encodes ps qs) (a : Value) : A.Encodes (D.step ps a) (A.step qs a) := by
  cases h with
  | dead =>
    rw [step_nil, step_nil]
    exact .dead
  | @alive s _ hs hsame =>
    have hstep : SameSet (A.step s a) (A.step qs a) := sameSet_step hsame BEq.rfl
    rw [(isDeterministic_of_dfa (kind_of_draft_eq hD)).step_singleton, successors_of_subset hD hs]
    by_cases hd : (A.step s a).isEmpty = true
    · rw [if_pos hd]
      rw [hstep.isEmpty_eq, List.isEmpty_iff] at hd
      rw [hd]
      exact .dead
    · rw [if_neg hd]
      exact .alive (contains_subsets_step hs (by simpa using hd)) ((sameSet_canonicalSubset _).trans hstep)

theorem encodes_configuration (w : List Value) : A.Encodes (D.configuration w) (A.configuration w) := by
  have hfold : ∀ (w ps qs : List Value), A.Encodes ps qs → A.Encodes (w.foldl D.step ps) (w.foldl A.step qs) := by
    intro w
    induction w with
    | nil => exact fun ps qs h => h
    | cons a w ih => exact fun ps qs h => ih _ _ (h.step hD a)
  have hstart : D.initialConfiguration = [.tuple A.startSubset] := by
    rw [initialConfiguration_of_dfa (kind_of_draft_eq hD)]
    unfold initial
    rw [hD]; rfl
  unfold configuration
  rw [hstart]
  exact hfold w _ _ (.alive subsets_closed.1 (sameSet_canonicalSubset _))

theorem Encodes.meets_eq {ps qs : List Value} (h : A.Encodes ps qs) : meets ps D.finals = meets qs A.finals := by
  cases h with
  | dead => rfl
  | @alive s _ hs hsame =>
    rw [← finals_contains_tuple hD hs hsame]
    unfold meets
    simp

/-! ## Verdicts -/

theorem verdict_eq_of_draft_eq (w : List Value) : D.verdict w = A.verdict w := by
  have h := verdict_runDfa_eq hD w
  unfold Run.verdict at h
  rw [outcome_runDfa_eq (kind_of_draft_eq hD)] at h
  unfold verdict
  cases hd : (D.runNfa w).outcome with
  | error e =>
    cases ha : (A.runNfa w).outcome with
    | error e' => rfl
    | ok o' => rw [hd, ha] at h; cases h
  | ok o =>
    cases ha : (A.runNfa w).outcome with
    | error e' => rw [hd, ha] at h; cases h
    | ok o' =>
      rw [hd, ha] at h
      exact Except.ok.inj h

/-! ## The shortest accepted word -/

theorem alphabet_eq_of_draft_eq : D.alphabet = A.symbols := by
  unfold alphabet
  rw [hD]
  exact A.isDistinct_symbols.distinct_eq

theorem isOverAlphabet_iff_of_draft_eq {w : List Value} : D.IsOverAlphabet w ↔ A.IsOverAlphabet w := by
  unfold IsOverAlphabet
  rw [alphabet_eq_of_draft_eq hD]
  simp only [symbols, mem_canonicalOrder]

theorem accepts_iff_of_draft_eq {w : List Value} (hw : A.IsOverAlphabet w) : D.Accepts w ↔ A.Accepts w := by
  rw [accepts_iff hw.isHashable, accepts_iff hw.isHashable, (encodes_configuration hD w).meets_eq hD]

variable (hdefined : ∀ a ∈ A.alphabet, a.isUndefined = false)
include hdefined

theorem symbols_eq_of_draft_eq : D.symbols = A.symbols := by
  rw [symbols, alphabet_eq_of_draft_eq hD]
  exact Value.canonicalOrder_canonicalOrder hdefined

theorem earlier_iff_of_draft_eq {v w : List Value} : D.Earlier v w ↔ A.Earlier v w := by
  unfold Earlier positions
  rw [symbols_eq_of_draft_eq hD hdefined]

theorem isLeastAccepted_iff_of_draft_eq {w : List Value} : D.IsLeastAccepted w ↔ A.IsLeastAccepted w := by
  constructor
  · intro h
    have hw := (isOverAlphabet_iff_of_draft_eq hD).mp h.overAlphabet
    refine ⟨hw, (accepts_iff_of_draft_eq hD hw).mp h.accepts, fun v hv haccepts => ?_⟩
    rw [← earlier_iff_of_draft_eq hD hdefined]
    exact h.least v ((isOverAlphabet_iff_of_draft_eq hD).mpr hv) ((accepts_iff_of_draft_eq hD hv).mpr haccepts)
  · intro h
    refine ⟨(isOverAlphabet_iff_of_draft_eq hD).mpr h.overAlphabet,
      (accepts_iff_of_draft_eq hD h.overAlphabet).mpr h.accepts, fun v hv haccepts => ?_⟩
    have hv := (isOverAlphabet_iff_of_draft_eq hD).mp hv
    rw [earlier_iff_of_draft_eq hD hdefined]
    exact h.least v hv ((accepts_iff_of_draft_eq hD hv).mp haccepts)

theorem shortestAccepted?_eq_of_draft_eq : D.shortestAccepted? = A.shortestAccepted? := by
  apply Option.ext
  intro w
  rw [shortestAccepted?_eq_some_iff, shortestAccepted?_eq_some_iff, isLeastAccepted_iff_of_draft_eq hD hdefined]

/-! ## Probes -/

theorem deadSymbol?_eq_of_draft_eq (w : List Value) : D.deadSymbol? w = A.deadSymbol? w := by
  have hdead (a : Value) : (D.step (D.configuration w) a).isEmpty = (A.step (A.configuration w) a).isEmpty :=
    ((encodes_configuration hD w).step hD a).isEmpty_eq
  unfold deadSymbol?
  simp only [symbols_eq_of_draft_eq hD hdefined, hdead]

theorem randomWord_eq_of_draft_eq (n : Nat) : D.randomWord n = A.randomWord n := by
  induction n with
  | zero => rfl
  | succ n ih => rw [randomWord, randomWord, symbols_eq_of_draft_eq hD hdefined, ih]

theorem randomWords_eq_of_draft_eq (maxLength count : Nat) :
    D.randomWords maxLength count = A.randomWords maxLength count := by
  induction count with
  | zero => rfl
  | succ count ih =>
    rw [randomWords, randomWords, ih]
    simp only [randomWord_eq_of_draft_eq hD hdefined]

theorem probes_eq_of_draft_eq (maxLength count : Int) : D.probes maxLength count = A.probes maxLength count := by
  have hsymbols := symbols_eq_of_draft_eq hD hdefined
  have hshortest := shortestAccepted?_eq_of_draft_eq hD hdefined
  have hadd (tag : Tag) (words : List Word) (probes : List Probe) :
      D.addProbes tag words probes = A.addProbes tag words probes := by
    unfold addProbes addProbe
    simp only [verdict_eq_of_draft_eq hD]
  have hcoverage : D.coverageWords = A.coverageWords := by
    unfold coverageWords
    rw [hsymbols]
  have hboundary : D.boundaryWords = A.boundaryWords := by
    unfold boundaryWords
    rw [hsymbols, hshortest]
  have hadversarial : D.adversarialWords = A.adversarialWords := by
    unfold adversarialWords
    simp only [hsymbols, hshortest, deadSymbol?_eq_of_draft_eq hD hdefined]
  have htypical : D.typicalWords maxLength.toNat count.toNat = A.typicalWords maxLength.toNat count.toNat := by
    unfold typicalWords
    rw [hsymbols, randomWords_eq_of_draft_eq hD hdefined]
  unfold probes
  simp only [hadd, hcoverage, hboundary, hadversarial, htypical]

end

/-- Where no symbol is an undefined number, an automaton and its
determinization have the same shortest accepted word. For every length that is
not negative both give the same probes and take the same draws, whatever is
drawn. -/
theorem determinize_preserves_probes (A : Automaton) (hdefined : ∀ a ∈ A.alphabet, a.isUndefined = false) :
    ∃ D : Automaton, A.determinize = .ok D ∧ D.shortestAccepted? = A.shortestAccepted? ∧
      ∀ (maxLength count : Int) (source : Source), 0 ≤ maxLength → ∃ probes rest,
        (A.probes maxLength count).run.run source = (.ok probes, rest) ∧
          (D.probes maxLength count).run.run source = (.ok probes, rest) := by
  obtain ⟨D, hD, hdet, _⟩ := determinize_eq_ok A
  refine ⟨D, hdet, shortestAccepted?_eq_of_draft_eq hD hdefined, fun maxLength count source h => ?_⟩
  obtain ⟨probes, rest, hprobes, _⟩ := A.gives_probes h count source
  rw [probes_eq_of_draft_eq hD hdefined]
  exact ⟨probes, rest, hprobes, hprobes⟩

theorem determinize_preserves_probes_silentLoop : (∀ a ∈ silentLoop.alphabet, a.isUndefined = false) ∧
    ∃ D, silentLoop.determinize = .ok D ∧ D.shortestAccepted? = silentLoop.shortestAccepted? ∧
      ∃ probes rest, (silentLoop.probes 2 3).run.run (.cyclic [5, 7]) = (.ok probes, rest) ∧
        (D.probes 2 3).run.run (.cyclic [5, 7]) = (.ok probes, rest) := by
  have hdefined : ∀ a ∈ silentLoop.alphabet, a.isUndefined = false := by decide +kernel
  obtain ⟨D, hdet, hshortest, hprobes⟩ := determinize_preserves_probes silentLoop hdefined
  exact ⟨hdefined, D, hdet, hshortest, hprobes 2 3 _ (by decide)⟩

end Automaton

end FiniteAutomata
