import FiniteAutomata.Proofs.Kinds
import FiniteAutomata.Proofs.Relisted.Issues
import FiniteAutomata.Proofs.Subsets.Invariance

/-!
# Checks and runs of relisted drafts

What is told about two drafts that list the same sets has the same subjects,
so both validate or neither does, and their automata have equal tables and go
through the same sets of states on every word (`validate_sees_sets`).
-/

namespace FiniteAutomata

/-- Equal outcomes, the final states as sets. -/
structure Outcome.Same (o o' : Outcome) : Prop where
  verdict : o.verdict = o'.verdict
  finalStates : SameSet o.finalStates o'.finalStates
  consumed : o.consumed = o'.consumed

/-- Two runs end with equal outcomes or in one fault. -/
inductive SameEnd : Except Fault Outcome → Except Fault Outcome → Prop
  | ended {o o' : Outcome} : o.Same o' → SameEnd (.ok o) (.ok o')
  | failed (e : Fault) : SameEnd (.error e) (.error e)

/-! ## Runs -/

namespace Automaton

variable {A B : Automaton} (h : A.draft.SameSets B.draft)
include h

theorem sameEnd_runNfaFrom {qs qs' : List Value} (hqs : A.IsStateSet qs) (hqs' : B.IsStateSet qs')
    (hne : qs.isEmpty = false) (hsame : SameSet qs qs') (n : Nat) (w : List Value) :
    SameEnd (A.runNfaFrom qs n w).outcome (B.runNfaFrom qs' n w).outcome := by
  induction w generalizing qs qs' n with
  | nil =>
    refine .ended ⟨?_, hsame, rfl⟩
    show Verdict.ofBool (meets qs A.finals) = Verdict.ofBool (meets qs' B.finals)
    rw [meets_finals_of_sameSets h, hsame.meets_eq]
  | cons a w ih =>
    have hstep : SameSet (A.step qs a) (B.step qs' a) :=
      (sameSet_step_of_sameSets h qs a).trans (sameSet_step hsame BEq.rfl)
    have hne' : qs'.isEmpty = false := by
      rw [← hsame.isEmpty_eq]
      exact hne
    unfold runNfaFrom
    rcases a.checkHash_cases with ⟨ha, _⟩ | ⟨name, _, hfault⟩
    · rw [stepOn_eq_ok hqs.isHashable ha, stepOn_eq_ok hqs'.isHashable ha]
      dsimp only
      rw [← hstep.isEmpty_eq]
      by_cases hd : (A.step qs a).isEmpty = true
      · rw [if_pos hd, if_pos hd]
        exact .ended ⟨rfl, SameSet.refl [], rfl⟩
      · rw [if_neg hd, if_neg hd]
        exact ih (isStateSet_step qs a) (isStateSet_step qs' a) (by simpa using hd) hstep (n + 1)
    · rw [stepOn_eq_error hne hqs.isHashable hfault, stepOn_eq_error hne' hqs'.isHashable hfault]
      exact .failed _

theorem sameEnd_runNfa (w : List Value) : SameEnd (A.runNfa w).outcome (B.runNfa w).outcome :=
  sameEnd_runNfaFrom h isStateSet_initialConfiguration isStateSet_initialConfiguration A.isEmpty_initialConfiguration
    (sameSet_initialConfiguration h) 0 w

end Automaton

/-! ## Checks -/

theorem forall_not_isError_of_sameSet {is is' : List Issue}
    (h : SameSet (is.map Issue.subject) (is'.map Issue.subject)) (hnone : ∀ i ∈ is', i.isError = false) :
    ∀ i ∈ is, i.isError = false := by
  intro i hi
  have hc := (h.iff i.subject).mp (contains_of_mem (List.mem_map_of_mem hi))
  obtain ⟨s, hs, heq⟩ := List.contains_iff_exists_mem_beq.mp hc
  obtain ⟨j, hj, rfl⟩ := List.mem_map.mp hs
  have hseverity : i.severity = j.severity := eq_of_beq (prod_beq_iff.mp (prod_beq_iff.mp heq).1).2
  have hj := hnone j hj
  unfold Issue.isError at hj ⊢
  rw [hseverity]
  exact hj

namespace Draft

variable {d d' : Draft} {counted : Bool}

theorem subjects_report (is : List Issue) : (d.report is).issues.map Issue.subject = is.map Issue.subject := by
  show (is.map (Issue.about d.id)).map Issue.subject = _
  rw [List.map_map]; rfl

theorem Relisted.sameSets (h : d.Relisted counted d') : d.SameSets d' :=
  ⟨h.initial, h.alphabet.set, h.finals.set, h.transitions.set⟩

/-- A check sees what a draft declares as sets: two drafts of hashable labels
with the same initial state and the same sets validate alike under any kind
and any rules. The issues of the two are about the same, as often if every
declaration is made equally often, and their automata have equal tables and
equal runs. -/
theorem validate_sees_sets (h : d.isHashable = true) (h' : d'.isHashable = true) (hsets : d.Relisted counted d')
    (kind? : Option Kind) (strict : Bool) : ∃ r r', (d.withKind kind?).validate strict false = .ok r ∧
      (d'.withKind kind?).validate strict false = .ok r' ∧ (r.ok = true ↔ r'.ok = true) ∧
      Alike counted (r.issues.map Issue.subject) (r'.issues.map Issue.subject) ∧
      ∀ A B, r.automaton? = some A → r'.automaton? = some B →
        A.moves.SameTable B.moves ∧ A.silent.SameTable B.silent ∧
          ∀ w, SameEnd (A.runNfa w).outcome (B.runNfa w).outcome := by
  replace h : (d.withKind kind?).isHashable = true := h
  replace h' : (d'.withKind kind?).isHashable = true := h'
  replace hsets := hsets.withKind kind?
  generalize d.withKind kind? = d at h hsets
  generalize d'.withKind kind? = d' at h' hsets
  have hsubjects := hsets.alike_findings strict
  refine ⟨_, _, validate_of_isHashable h strict, validate_of_isHashable h' strict, ?_, ?_, fun A B hA hB => ?_⟩
  · rw [ok_report_iff h, ok_report_iff h']
    exact ⟨forall_not_isError_of_sameSet hsubjects.set.symm, forall_not_isError_of_sameSet hsubjects.set⟩
  · rw [subjects_report, subjects_report]
    exact hsubjects
  · obtain ⟨hA, _⟩ := draft_of_report hA
    obtain ⟨hB, _⟩ := draft_of_report hB
    rw [← hA, ← hB] at hsets
    rw [A.moves_eq, B.moves_eq, A.silent_eq, B.silent_eq]
    exact ⟨sameTable_moves hsets.transitions.set, sameTable_silentMoves hsets.transitions.set,
      Automaton.sameEnd_runNfa hsets.sameSets⟩

/-- The draft `bridge` in another order, with the state 0 under three names,
and nothing but names of the state 1 as its final states. -/
def renamed : Draft :=
  ⟨.epsilonNfa, [.bool true, .bool false, .float (.finite 0), .int 1], [.text "a", .text "a"], .float (.finite 0),
    [.bool true, .int 1], [⟨.int 0, .text "a", .int 1⟩, ⟨.int 0, .text "a", .float (.finite 1)⟩]⟩

theorem validate_sees_sets_renamed : bridge.isHashable = true ∧ renamed.isHashable = true ∧
    bridge.Relisted false renamed ∧ ∃ r r' A B, (bridge.withKind (some .dfa)).validate true false = .ok r ∧
      (renamed.withKind (some .dfa)).validate true false = .ok r' ∧ r.automaton? = some A ∧ r'.automaton? = some B ∧
      SameSet (r.issues.map Issue.subject) (r'.issues.map Issue.subject) ∧ A.moves.SameTable B.moves ∧
      SameEnd (A.runNfa [.text "a"]).outcome (B.runNfa [.text "a"]).outcome := by
  have h : bridge.isHashable = true := by decide
  have h' : renamed.isHashable = true := by decide
  have hsets : bridge.Relisted false renamed :=
    { kind := rfl
      initial := by decide +kernel
      states := ⟨sameMembers_iff.mp (by decide +kernel), fun hc => by cases hc⟩
      alphabet := ⟨sameMembers_iff.mp (by decide +kernel), fun hc => by cases hc⟩
      finals := ⟨sameMembers_iff.mp (by decide +kernel), fun hc => by cases hc⟩
      transitions := ⟨sameMembers_iff.mp (by decide +kernel), fun hc => by cases hc⟩ }
  obtain ⟨A, r, hr, hA⟩ : ∃ A, (bridge.withKind (some .dfa)).Yields true false A :=
    exists_yields_iff.mpr ⟨h, isSound_iff_wellFormed.mp (by decide +kernel), fun _ => ⟨by decide, by decide +kernel⟩⟩
  obtain ⟨B, r', hr', hB⟩ : ∃ B, (renamed.withKind (some .dfa)).Yields true false B :=
    exists_yields_iff.mpr ⟨h', isSound_iff_wellFormed.mp (by decide +kernel), fun _ => ⟨by decide, by decide +kernel⟩⟩
  obtain ⟨s, s', hs, hs', -, hsubjects, htables⟩ := validate_sees_sets h h' hsets (some .dfa) true
  obtain rfl := Except.ok.inj (hr.symm.trans hs)
  obtain rfl := Except.ok.inj (hr'.symm.trans hs')
  obtain ⟨hmoves, -, hruns⟩ := htables A B hA hB
  exact ⟨h, h', hsets, r, r', A, B, hr, hr', hA, hB, hsubjects.set, hmoves, hruns _⟩

end Draft

end FiniteAutomata
