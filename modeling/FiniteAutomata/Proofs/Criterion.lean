import FiniteAutomata.Proofs.Liveness
import FiniteAutomata.Proofs.Reports

/-!
# Which drafts validate

A draft validates when nothing told about it is an error, whether or not the
check ends early (`validate_ok_iff`). A draft that is not well formed never
validates; under strict rules its states must also be reachable, and some of
them final (`WellFormed.forall_not_isError_strict_iff`). Together they say
which drafts give an automaton (`validate_yields_iff`).
-/

namespace FiniteAutomata

namespace Draft

variable {d : Draft}

/-! ## Reports with an automaton -/

theorem validate_ok_iff (h : d.isHashable = true) (strict failFast : Bool) :
    ∃ r, d.validate strict failFast = .ok r ∧ (∀ A, r.automaton? = some A → A.draft = d) ∧
      (r.ok = true ↔ ∀ i ∈ d.findings strict, i.isError = false) := by
  refine ⟨_, validate_eq h strict failFast, fun A hA => (draft_of_report hA).1, ?_⟩
  unfold Report.ok
  rw [automaton?_told]
  exact ok_report_iff h

/-! ## Strict rules -/

theorem unreachableStates_eq_nil_iff {live : List Value} {strict : Bool} : d.unreachableStates live strict = [] ↔
    ∀ q ∈ d.states, live.contains q = true ∨ d.finals.contains q = true := by
  unfold unreachableStates
  rw [List.filterMap_eq_nil_iff]
  simp only [ite_eq_left_iff, reduceCtorEq, imp_false, Decidable.not_not, Bool.or_eq_true]
  exact forall_mem_zipIdx_iff (P := fun q => live.contains q = true ∨ d.finals.contains q = true)

theorem WellFormed.unreachableFinals_eq_nil_iff (h : d.WellFormed) {live : List Value} {strict : Bool} :
    d.unreachableFinals live strict = [] ↔ d.finals ≠ [] ∧ ∀ q ∈ d.finals, live.contains q = true := by
  have hlist : (∀ q ∈ d.finals, (live.contains q || !d.states.contains q) = true) ↔
      ∀ q ∈ d.finals, live.contains q = true := by
    apply forall_congr'; intro q
    apply imp_congr_right; intro hq
    rw [h.finals q hq]; simp
  unfold unreachableFinals
  by_cases hm : meets d.finals live = true
  · rw [if_pos hm, List.filterMap_eq_nil_iff]
    simp only [ite_eq_left_iff, reduceCtorEq, imp_false, Decidable.not_not]
    rw [forall_mem_zipIdx_iff (P := fun q => (live.contains q || !d.states.contains q) = true), hlist]
    obtain ⟨q, hq, _⟩ := meets_iff.mp hm
    have hne : d.finals ≠ [] := List.ne_nil_of_mem hq
    rw [and_iff_right hne]
  · rw [if_neg hm]
    constructor
    · intro hnil; cases hnil
    · intro ⟨hne, hlive⟩
      obtain ⟨q, hq⟩ := List.exists_mem_of_ne_nil _ hne
      exact absurd (meets_iff.mpr ⟨q, hq, hlive q hq⟩) hm

/-- The two lists about reachability leave out no declared state: one is about
the final states, which the other leaves out. -/
theorem WellFormed.forall_not_isError_strict_iff (h : d.WellFormed) :
    (∀ i ∈ d.findings true, i.isError = false) ↔
      d.finals ≠ [] ∧ ∀ q ∈ d.states, d.live.contains q = true := by
  rw [Draft.forall_not_isError_strict_iff, h.findings_eq, List.append_eq_nil_iff, unreachableStates_eq_nil_iff,
    h.unreachableFinals_eq_nil_iff]
  constructor
  · rintro ⟨hstates, hne, hfinals⟩
    refine ⟨hne, fun q hq => ?_⟩
    rcases hstates q hq with hlive | hfinal
    · exact hlive
    · obtain ⟨q', hq', heq⟩ := List.contains_iff_exists_mem_beq.mp hfinal
      exact contains_of_beq (hfinals q' hq') (BEq.symm heq)
  · rintro ⟨hne, hlive⟩
    refine ⟨fun q hq => Or.inl (hlive q hq), hne, fun q hq => ?_⟩
    obtain ⟨q', hq', heq⟩ := List.contains_iff_exists_mem_beq.mp (h.finals q hq)
    exact contains_of_beq (hlive q' hq') (BEq.symm heq)

/-! ## The criterion -/

/-- Whatever kind a draft of hashable labels is checked as, and whether or not
the check ends at the first error, the check reports. Under lenient rules
there is an automaton when the draft is well formed as that kind, under strict
rules when moreover there are final states and walks from the initial state to
every declared state. -/
theorem validate_yields_iff (d : Draft) (h : d.isHashable = true) (kind? : Option Kind) (failFast : Bool) :
    (∃ r, (d.withKind kind?).validate false failFast = .ok r ∧
      (∀ A, r.automaton? = some A → A.draft = d.withKind kind?) ∧
      (r.ok = true ↔ (d.withKind kind?).WellFormed)) ∧
    ∃ r, (d.withKind kind?).validate true failFast = .ok r ∧
      (∀ A, r.automaton? = some A → A.draft = d.withKind kind?) ∧
      (r.ok = true ↔ (d.withKind kind?).WellFormed ∧ d.finals ≠ [] ∧
        ∀ q ∈ d.states, ∃ es, Walk d.transitions d.initial es q) := by
  obtain ⟨r, hr, hdraft, hok⟩ := validate_ok_iff (d := d.withKind kind?) h false failFast
  obtain ⟨s, hs, hdraft', hok'⟩ := validate_ok_iff (d := d.withKind kind?) h true failFast
  refine ⟨⟨r, hr, hdraft, ?_⟩, s, hs, hdraft', ?_⟩
  · rw [hok, ← isSound_iff, isSound_iff_wellFormed]
  · rw [hok']
    constructor
    · intro hnone
      have hwf := isSound_iff_wellFormed.mp (isSound_of_forall_not_isError hnone)
      obtain ⟨hne, hlive⟩ := hwf.forall_not_isError_strict_iff.mp hnone
      exact ⟨hwf, hne, fun q hq => hwf.contains_live_iff_walk.mp (hlive q hq)⟩
    · intro ⟨hwf, hne, hwalk⟩
      exact hwf.forall_not_isError_strict_iff.mpr ⟨hne, fun q hq => hwf.contains_live_iff_walk.mpr (hwalk q hq)⟩

/-- The final state 2 is an island: nothing is wrong with it but that no walk
leads there. -/
def island : Draft :=
  ⟨.nfa, [.int 0, .int 1, .int 2], [.text "a"], .int 0, [.int 1, .int 2], [⟨.bool false, .text "a", .int 1⟩]⟩

theorem validate_yields_iff_island : island.isHashable = true ∧
    (∃ r, (island.withKind (some .dfa)).validate false true = .ok r ∧ r.ok = true) ∧
      ∃ r, (island.withKind (some .dfa)).validate true true = .ok r ∧ r.ok = false := by
  have hhash : island.isHashable = true := by decide
  obtain ⟨⟨r, hr, _, hok⟩, s, hs, _, hok'⟩ := validate_yields_iff island hhash (some .dfa) true
  refine ⟨hhash, ⟨r, hr, hok.mpr (isSound_iff_wellFormed.mp (by decide +kernel))⟩, s, hs, ?_⟩
  rw [Bool.eq_false_iff]
  intro hyes
  have hwalk := (hok'.mp hyes).2.2 (.int 2) (by simp [island])
  rw [← contains_reachableBy_iff_walk] at hwalk
  revert hwalk
  decide +kernel

end Draft

end FiniteAutomata
