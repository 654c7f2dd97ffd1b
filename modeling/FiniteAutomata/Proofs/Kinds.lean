import FiniteAutomata.Proofs.Criterion
import FiniteAutomata.Proofs.Faithful

/-!
# One draft as several kinds

A kind asks less of a draft the later it stands among the deterministic one,
the nondeterministic one and the one with silent moves (`WellFormed.relax`),
and neither the tables nor the nondeterministic run look at the kind
(`runNfa_eq_of_tables`). So a draft that validates as one kind validates as
the later ones, and all its automata run alike (`validate_along_kinds`).
-/

namespace FiniteAutomata

namespace Draft

/-- The check of the draft gives the automaton. -/
def Yields (d : Draft) (strict failFast : Bool) (A : Automaton) : Prop :=
  ∃ r, d.validate strict failFast = .ok r ∧ r.automaton? = some A

variable {d : Draft} {strict failFast : Bool} {A : Automaton}

theorem Yields.draft_eq (h : d.Yields strict failFast A) : A.draft = d := by
  obtain ⟨r, hr, hA⟩ := h
  exact draft_of_validate hr hA

theorem Yields.isHashable (h : d.Yields strict failFast A) : d.isHashable = true := by
  rw [← h.draft_eq]
  exact A.hashable

/-! ## What a check asks for -/

/-- Strict rules also ask for final states and for walks to all states. -/
structure Passes (d : Draft) (strict : Bool) : Prop where
  hashable : d.isHashable = true
  wellFormed : d.WellFormed
  reached : strict = true → d.finals ≠ [] ∧ ∀ q ∈ d.states, d.live.contains q = true

theorem passes_iff (h : d.isHashable = true) : d.Passes strict ↔ ∀ i ∈ d.findings strict, i.isError = false := by
  cases strict with
  | false =>
    rw [← isSound_iff, isSound_iff_wellFormed]
    exact ⟨Passes.wellFormed, fun hwf => ⟨h, hwf, fun hs => by cases hs⟩⟩
  | true =>
    constructor
    · intro hp
      exact hp.wellFormed.forall_not_isError_strict_iff.mpr (hp.reached rfl)
    · intro hnone
      have hwf := isSound_iff_wellFormed.mp (isSound_of_forall_not_isError hnone)
      exact ⟨h, hwf, fun _ => hwf.forall_not_isError_strict_iff.mp hnone⟩

theorem exists_yields_iff : (∃ A, d.Yields strict failFast A) ↔ d.Passes strict := by
  constructor
  · intro ⟨A, hA⟩
    have h := hA.isHashable
    obtain ⟨r, hr, -, hok⟩ := validate_ok_iff h strict failFast
    obtain ⟨s, hs, hsA⟩ := hA
    rw [passes_iff h, ← hok, Except.ok.inj (hr.symm.trans hs), Report.ok, hsA, Option.isSome_some]
  · intro hp
    obtain ⟨r, hr, -, hok⟩ := validate_ok_iff hp.hashable strict failFast
    obtain ⟨A, hA⟩ := Option.isSome_iff_exists.mp (hok.mpr ((passes_iff hp.hashable).mp hp))
    exact ⟨A, r, hr, hA⟩

/-! ## Later kinds -/

section
variable {k k' : Kind} (hdfa : k' = .dfa → k = .dfa) (hsilent : k = .epsilonNfa → k' = .epsilonNfa)
include hsilent

theorem Allows.relax {t : Transition} (h : (d.withKind (some k)).Allows t) : (d.withKind (some k')).Allows t := by
  unfold Allows at h ⊢
  by_cases he : t.isEpsilon = true
  · rw [if_pos he] at h ⊢
    exact hsilent h
  · rw [if_neg he] at h ⊢
    exact h

include hdfa

theorem WellFormed.relax (h : (d.withKind (some k)).WellFormed) : (d.withKind (some k')).WellFormed where
  reserved := h.reserved
  initial := h.initial
  finals := h.finals
  source := h.source
  target := h.target
  symbol := fun t ht => (h.symbol t ht).relax hsilent
  deterministic := fun hk => h.deterministic (hdfa hk)

theorem exists_yields_relax (h : ∃ A, (d.withKind (some k)).Yields strict failFast A) :
    ∃ A, (d.withKind (some k')).Yields strict failFast A := by
  rw [exists_yields_iff] at h ⊢
  exact ⟨h.hashable, h.wellFormed.relax hdfa hsilent, h.reached⟩

end

end Draft

namespace Automaton

variable {A B : Automaton}

/-! ## Runs over the same tables -/

section
variable (hmoves : A.moves = B.moves) (hsilent : A.silent = B.silent)
include hmoves hsilent

theorem step_eq_of_tables (qs : List Value) (a : Value) : A.step qs a = B.step qs a := by
  unfold step image successors closure
  rw [hmoves, hsilent]

variable (hinitial : A.initial = B.initial) (hfinals : A.finals = B.finals)
include hfinals

theorem runNfaFrom_eq_of_tables (w qs : List Value) (n : Nat) : A.runNfaFrom qs n w = B.runNfaFrom qs n w := by
  induction w generalizing qs n with
  | nil =>
    unfold runNfaFrom
    rw [hfinals]
  | cons a w ih =>
    unfold runNfaFrom stepOn consumeStep
    rw [step_eq_of_tables hmoves hsilent]
    simp only [ih]

include hinitial

theorem runNfa_eq_of_tables (w : List Value) : A.runNfa w = B.runNfa w := by
  unfold runNfa initialConfiguration closure
  rw [hinitial, hsilent]
  exact runNfaFrom_eq_of_tables hmoves hsilent hfinals w _ 0

end

end Automaton

namespace Draft

variable {d : Draft} {A B : Automaton} {kind kind' : Option Kind}

theorem tables_eq_of_draft_eq (hA : A.draft = d.withKind kind) (hB : B.draft = d.withKind kind') :
    A.moves = B.moves ∧ A.silent = B.silent ∧ ∀ w, A.runNfa w = B.runNfa w := by
  have hmoves : A.moves = B.moves := by rw [A.moves_eq, B.moves_eq, hA, hB]; rfl
  have hsilent : A.silent = B.silent := by rw [A.silent_eq, B.silent_eq, hA, hB]; rfl
  refine ⟨hmoves, hsilent, Automaton.runNfa_eq_of_tables hmoves hsilent ?_ ?_⟩
  · unfold Automaton.initial
    rw [hA, hB]; rfl
  · unfold Automaton.finals
    rw [hA, hB]; rfl

/-- Under any rules, a draft that validates as deterministic validates as
nondeterministic, and one that validates as nondeterministic validates with
silent moves. Automata of one draft under any kinds have the same tables, and
the same nondeterministic run on every word. -/
theorem validate_along_kinds (d : Draft) (strict failFast : Bool) :
    ((∃ A, (d.withKind (some .dfa)).Yields strict failFast A) →
      ∃ A, (d.withKind (some .nfa)).Yields strict failFast A) ∧
    ((∃ A, (d.withKind (some .nfa)).Yields strict failFast A) →
      ∃ A, (d.withKind (some .epsilonNfa)).Yields strict failFast A) ∧
    ∀ (kind kind' : Option Kind) (A B : Automaton), (d.withKind kind).Yields strict failFast A →
      (d.withKind kind').Yields strict failFast B →
        A.moves = B.moves ∧ A.silent = B.silent ∧ ∀ w, A.runNfa w = B.runNfa w :=
  ⟨exists_yields_relax (by simp) (by simp), exists_yields_relax (by simp) (by simp),
    fun _ _ _ _ hA hB => tables_eq_of_draft_eq hA.draft_eq hB.draft_eq⟩

/-- Nothing is told about it as any kind. Its one edge names both states in
another way. -/
def bridge : Draft :=
  ⟨.epsilonNfa, [.int 0, .int 1], [.text "a"], .int 0, [.int 1], [⟨.bool false, .text "a", .bool true⟩]⟩

theorem validate_along_kinds_bridge : ∃ A B, (bridge.withKind (some .dfa)).Yields true false A ∧
    (bridge.withKind (some .epsilonNfa)).Yields true false B ∧ A.moves = B.moves ∧ A.silent = B.silent ∧
      A.runNfa [.text "a"] = B.runNfa [.text "a"] := by
  obtain ⟨hnfa, hsilent, htables⟩ := validate_along_kinds bridge true false
  obtain ⟨A, hA⟩ : ∃ A, (bridge.withKind (some .dfa)).Yields true false A :=
    exists_yields_iff.mpr ⟨by decide, isSound_iff_wellFormed.mp (by decide +kernel),
      fun _ => ⟨by decide, by decide +kernel⟩⟩
  obtain ⟨B, hB⟩ := hsilent (hnfa ⟨A, hA⟩)
  obtain ⟨hmoves, hsame, hruns⟩ := htables _ _ A B hA hB
  exact ⟨A, B, hA, hB, hmoves, hsame, hruns _⟩

end Draft

end FiniteAutomata
