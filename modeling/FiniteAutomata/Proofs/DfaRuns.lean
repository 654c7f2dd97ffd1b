import FiniteAutomata.Proofs.Subsets.Simulation

/-!
# Deterministic automata under both runs

An automaton of the deterministic kind has no silent moves and at most one
target under each key, so the configuration of its nondeterministic run is
always the one state that the deterministic run is in
(`runNfaFrom_singleton`). Both runs have one outcome on every word, or both
fail on the same symbol (`runDfa_agrees_with_runNfa`).
-/

namespace FiniteAutomata

namespace Automaton

variable {A : Automaton}

theorem silent_eq_nil_of_read (h : ∀ t ∈ A.draft.transitions, t.isEpsilon = false) : A.silent = [] := by
  rw [A.silent_eq, silentMoves, List.filter_eq_nil_iff.mpr]
  · rfl
  · simpa using h

theorem isEpsilon_of_kind (hk : A.kind ≠ .epsilonNfa) : ∀ t ∈ A.draft.transitions, t.isEpsilon = false :=
  fun t ht => (A.wellFormed.symbol t ht).isEpsilon_eq_false hk

theorem silent_eq_nil (h : A.kind ≠ .epsilonNfa) : A.silent = [] := silent_eq_nil_of_read (isEpsilon_of_kind h)

/-- No edge is silent, and under each key there is at most one target. -/
structure IsDeterministic (A : Automaton) : Prop where
  read : ∀ t ∈ A.draft.transitions, t.isEpsilon = false
  single : ∀ q a, (A.successors q a).length ≤ 1

/-! ## Configurations of one state -/

namespace IsDeterministic

variable (h : A.IsDeterministic)
include h

theorem closure_singleton (q : Value) : A.closure [q] = [q] := by
  unfold closure
  rw [silent_eq_nil_of_read h.read]; rfl

theorem initialConfiguration_eq : A.initialConfiguration = [A.initial] := h.closure_singleton _

theorem successors_cases (q a : Value) : A.successors q a = [] ∨ ∃ r, A.successors q a = [r] := by
  have hlen := h.single q a
  cases hs : A.successors q a with
  | nil => exact Or.inl rfl
  | cons r rs =>
    rw [hs] at hlen
    rw [List.eq_nil_of_length_eq_zero (Nat.le_zero.mp (Nat.le_of_succ_le_succ hlen))]
    exact Or.inr ⟨r, rfl⟩

theorem step_singleton (q a : Value) : A.step [q] a = A.successors q a := by
  unfold step image
  rw [List.flatMap_singleton]
  rcases h.successors_cases q a with hs | ⟨r, hs⟩
  · rw [hs]; exact closure_nil
  · rw [hs]; exact h.closure_singleton r

/-- The lookups of both runs fail alike as well. -/
theorem stepOn_singleton (q a : Value) : A.stepOn [q] a = A.successorsOf q a := by
  unfold stepOn successorsOf checkLookup
  rw [h.step_singleton]; rfl

theorem successorsOf_cases (q a : Value) : (∃ e, A.successorsOf q a = .error e) ∨ A.successorsOf q a = .ok [] ∨
    ∃ r, A.successorsOf q a = .ok [r] := by
  unfold successorsOf
  cases checkLookup q a with
  | error e => exact Or.inl ⟨e, rfl⟩
  | ok _ =>
    rcases h.successors_cases q a with hs | ⟨r, hs⟩
    · rw [hs]; exact Or.inr (Or.inl rfl)
    · rw [hs]; exact Or.inr (Or.inr ⟨r, rfl⟩)

end IsDeterministic

section
variable (hk : A.kind = .dfa)
include hk

theorem isDeterministic_of_dfa : A.IsDeterministic where
  read := isEpsilon_of_kind (by simp [hk])
  single := length_successors_le_one hk

theorem initialConfiguration_of_dfa : A.initialConfiguration = [A.initial] :=
  (isDeterministic_of_dfa hk).initialConfiguration_eq

/-! ## Runs -/

theorem runNfaFrom_singleton (q : Value) (n : Nat) (w : List Value) :
    (A.runNfaFrom [q] n w).outcome = (A.runDfaFrom q n w).outcome := by
  induction w generalizing q n with
  | nil =>
    unfold runNfaFrom runDfaFrom meets
    simp
  | cons a w ih =>
    unfold runNfaFrom runDfaFrom
    rw [(isDeterministic_of_dfa hk).stepOn_singleton]
    rcases (isDeterministic_of_dfa hk).successorsOf_cases q a with ⟨e, hs⟩ | hs | ⟨r, hs⟩
    · rw [hs]
    · rw [hs]; rfl
    · rw [hs]
      exact ih r (n + 1)

theorem outcome_runDfa_eq (w : List Value) : (A.runDfa w).outcome = (A.runNfa w).outcome := by
  unfold runDfa checkDfa runNfa
  rw [if_pos hk, initialConfiguration_of_dfa hk, runNfaFrom_singleton hk]

end

/-- On every word, both runs of an automaton of the deterministic kind have
the same outcome. They fail only on a symbol that cannot be looked up, and
exactly when the symbols before it leave a state to go on from. -/
theorem runDfa_agrees_with_runNfa (A : Automaton) (hk : A.kind = .dfa) (w : List Value) :
    (A.runDfa w).outcome = (A.runNfa w).outcome ∧
      ∀ e, (A.runDfa w).outcome = .error e ↔ ∃ u a v, w = u ++ a :: v ∧ (∀ b ∈ u, b.isHashable = true) ∧
        (A.configuration u).isEmpty = false ∧ a.checkHash = .error e := by
  refine ⟨outcome_runDfa_eq hk w, fun e => ?_⟩
  rw [outcome_runDfa_eq hk]
  exact runNfa_eq_error_iff

/-- A symbol leads from each state to the other, and one edge names both
states in another way. -/
def alternation : Automaton :=
  .ofDraft ⟨.dfa, [.int 0, .int 1], [.text "a"], .int 0, [.int 1],
    [⟨.int 0, .text "a", .int 1⟩, ⟨.bool false, .text "a", .bool true⟩, ⟨.bool true, .text "a", .int 0⟩]⟩
    (by decide +kernel) (by decide +kernel)

theorem runDfa_agrees_with_runNfa_alternation : alternation.kind = .dfa ∧
    (alternation.runDfa [.text "a", .list []]).outcome = (alternation.runNfa [.text "a", .list []]).outcome ∧
      ∃ typeName, (alternation.runDfa [.text "a", .list []]).outcome = .error (.unhashable typeName) := by
  have h := runDfa_agrees_with_runNfa alternation rfl [.text "a", .list []]
  refine ⟨rfl, h.1, "list", (h.2 _).mpr ⟨[.text "a"], .list [], [], rfl, by decide, by decide +kernel, rfl⟩⟩

end Automaton

end FiniteAutomata
