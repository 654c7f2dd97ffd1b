import FiniteAutomata.Proofs.Multisets
import FiniteAutomata.Proofs.Relisted.Tables
import FiniteAutomata.Proofs.Reports
import Mathlib.Data.List.Basic

/-!
# What is told about a relisted draft

A stage of a check goes through a list of declarations and tells about each of
them what its labels and the sets of all labels decide. So when a draft is
listed in another way, what is told is the same up to order and repetition
(`Relisted.alike_findings`). The last stage goes through the rows of a table
instead, which hold each key once.
-/

namespace FiniteAutomata

/-- The code and the severity of an issue, and the state and the symbol that
it names. -/
abbrev Subject := (Issue.Code × Severity) × Value × Value

def Issue.subject (i : Issue) : Subject := ((i.code, i.severity), i.state, i.symbol)

/-- The same draft up to the order and, unless it counts, the repetition of
declarations. -/
structure Draft.Relisted (counted : Bool) (d d' : Draft) : Prop where
  kind : d.kind = d'.kind
  initial : (d.initial == d'.initial) = true
  states : Alike counted d.states d'.states
  alphabet : Alike counted d.alphabet d'.alphabet
  finals : Alike counted d.finals d'.finals
  transitions : Alike counted d.transitions d'.transitions

/-! ## Telling on a condition -/

def tellIf (c : Bool) (code : Issue.Code) (severity : Severity) (state symbol : Value) : List Subject :=
  if c then [((code, severity), state, symbol)] else []

theorem alike_tellIf {counted c c' : Bool} {q q' a a' : Value} (code : Issue.Code) (severity : Severity) (hc : c = c')
    (hq : (q == q') = true) (ha : (a == a') = true) :
    Alike counted (tellIf c code severity q a) (tellIf c' code severity q' a') := by
  unfold tellIf
  rw [hc]
  cases c' with
  | false => exact Alike.refl []
  | true => exact Alike.singleton (prod_beq_iff.mpr ⟨BEq.rfl, prod_beq_iff.mpr ⟨hq, ha⟩⟩)

section
variable {α β γ : Type}

theorem map_flatMap_zipIdx {told : α × Nat → List β} {subject : β → γ} {subjects : α → List γ}
    (h : ∀ x i, (told (x, i)).map subject = subjects x) (xs : List α) :
    (xs.zipIdx.flatMap told).map subject = xs.flatMap subjects := by
  have hfst : (fun p => (told p).map subject) = fun p => subjects p.1 := funext fun p => h p.1 p.2
  rw [List.map_flatMap, hfst, ← List.flatMap_map Prod.fst, List.zipIdx_map_fst]

theorem map_filterMap_zipIdx {told : α × Nat → Option β} {subject : β → γ} {subjects : α → List γ}
    (h : ∀ x i, ((told (x, i)).map subject).toList = subjects x) (xs : List α) :
    (xs.zipIdx.filterMap told).map subject = xs.flatMap subjects := by
  rw [List.filterMap_eq_flatMap_toList]
  refine map_flatMap_zipIdx (fun x i => ?_) xs
  rw [← h x i]
  cases told (x, i) with
  | none => rfl
  | some y => rfl

end

namespace Draft

variable (d : Draft)

theorem subject_finding (code : Issue.Code) (severity : Severity) (message : String) (location : Issue.Location)
    (state symbol : Value) :
    (finding code severity message location state symbol).subject = ((code, severity), state, symbol) := rfl

/-! ## The subjects of each stage -/

theorem subjects_reservedSymbols : d.reservedSymbols.map Issue.subject =
    d.alphabet.flatMap fun a => tellIf (a == epsilon) .reservedSymbol .error .null a := by
  refine map_filterMap_zipIdx (fun a i => ?_) d.alphabet
  unfold tellIf
  by_cases h : (a == epsilon) = true
  · simp [h, subject_finding]
  · simp [h]

theorem subjects_undeclaredState (q : Value) (location : Issue.Location) :
    (d.undeclaredState q location).map Issue.subject =
      tellIf (!d.states.contains q) .undeclaredReference .error q .null := by
  unfold undeclaredState tellIf
  by_cases h : d.states.contains q = true
  · simp [h]
  · simp [h, subject_finding]

theorem subjects_undeclaredSymbol (t : Transition) (i : Nat) : (d.undeclaredSymbol t i).map Issue.subject =
    tellIf (d.symbolProblem? t).isSome .undeclaredReference .error t.source t.symbol := by
  unfold undeclaredSymbol tellIf
  cases d.symbolProblem? t with
  | none => rfl
  | some message => rfl

def edgeSubjects (t : Transition) : List Subject :=
  tellIf (!d.states.contains t.source) .undeclaredReference .error t.source .null ++
    tellIf (!d.states.contains t.target) .undeclaredReference .error t.target .null ++
    tellIf (d.symbolProblem? t).isSome .undeclaredReference .error t.source t.symbol

theorem subjects_undeclared : d.undeclared.map Issue.subject =
    tellIf (!d.states.contains d.initial) .undeclaredReference .error d.initial .null ++
      d.finals.flatMap (fun q => tellIf (!d.states.contains q) .undeclaredReference .error q .null) ++
      d.transitions.flatMap d.edgeSubjects := by
  unfold undeclared
  rw [List.map_append, List.map_append, subjects_undeclaredState,
    map_flatMap_zipIdx fun q i => d.subjects_undeclaredState q (.final i), map_flatMap_zipIdx fun t i => ?_]
  unfold undeclaredInEdge edgeSubjects
  rw [List.map_append, List.map_append, subjects_undeclaredState, subjects_undeclaredState, subjects_undeclaredSymbol]

section
variable (live : List Value) (strict : Bool)

theorem subjects_unreachableStates : (d.unreachableStates live strict).map Issue.subject = d.states.flatMap fun q =>
    tellIf (!(live.contains q || d.finals.contains q)) .unreachableState (reachSeverity strict) q .null := by
  refine map_filterMap_zipIdx (fun q i => ?_) d.states
  dsimp only
  unfold tellIf
  cases live.contains q || d.finals.contains q with
  | true => rfl
  | false => rfl

theorem subjects_unreachableFinals : (d.unreachableFinals live strict).map Issue.subject =
    if meets d.finals live then d.finals.flatMap fun q =>
      tellIf (!(live.contains q || !d.states.contains q)) .unreachableFinalState (reachSeverity strict) q .null
    else tellIf true .noFinalStateReachable (reachSeverity strict) .null .null := by
  unfold unreachableFinals
  cases meets d.finals live with
  | false => rfl
  | true =>
    refine map_filterMap_zipIdx (fun q i => ?_) d.finals
    dsimp only
    unfold tellIf
    cases live.contains q || !d.states.contains q with
    | true => rfl
    | false => rfl

end

def ambiguousKeys : List (Value × Value) := (moves d.transitions).keysWhere fun ts => decide (1 < ts.length)

theorem subjects_ambiguousMoves : d.ambiguousMoves.map Issue.subject =
    if d.kind = .dfa then d.ambiguousKeys.flatMap fun k => tellIf true .nonDeterministic .error k.1 k.2 else [] := by
  unfold ambiguousMoves
  by_cases hk : d.kind = .dfa
  · rw [if_pos hk, if_pos hk]
    unfold ambiguousKeys Rows.keysWhere
    rw [List.flatMap_map]
    induction moves d.transitions with
    | nil => rfl
    | cons row rows ih =>
      by_cases hl : row.2.length ≤ 1
      · rw [List.filterMap_cons, List.filter_cons_of_neg (by simpa using hl)]
        dsimp only
        rw [if_pos hl]
        exact ih
      · rw [List.filterMap_cons, List.filter_cons_of_pos (by simpa using hl)]
        dsimp only
        rw [if_neg hl, List.map_cons, ih]; rfl
  · rw [if_neg hk, if_neg hk]; rfl

/-! ## Relisted drafts -/

namespace Relisted

variable {d}
variable {counted : Bool} {d' : Draft} (h : d.Relisted counted d')
include h

theorem withKind (kind? : Option Kind) : (d.withKind kind?).Relisted counted (d'.withKind kind?) where
  kind := by
    unfold Draft.withKind
    rw [h.kind]
  initial := h.initial
  states := h.states
  alphabet := h.alphabet
  finals := h.finals
  transitions := h.transitions

theorem contains_states_eq {q q' : Value} (hq : (q == q') = true) : d.states.contains q = d'.states.contains q' := by
  rw [h.states.set q, contains_congr hq]

theorem isSome_symbolProblem?_eq {t t' : Transition} (ht : (t == t') = true) :
    (d.symbolProblem? t).isSome = (d'.symbolProblem? t').isSome := by
  have hcontains : d.alphabet.contains t.symbol = d'.alphabet.contains t'.symbol := by
    rw [h.alphabet.set, contains_congr (Transition.beq_iff.mp ht).2.1]
  unfold symbolProblem?
  rw [Transition.isEpsilon_congr ht, hcontains, h.kind]
  by_cases he : t'.isEpsilon = true
  · rw [if_pos he, if_pos he]
  · rw [if_neg he, if_neg he]
    by_cases ha : d'.alphabet.contains t'.symbol = true
    · rw [if_pos ha, if_pos ha]
    · rw [if_neg ha, if_neg ha]; rfl

/-! ### Declarations -/

theorem alike_reservedSymbols :
    Alike counted (d.reservedSymbols.map Issue.subject) (d'.reservedSymbols.map Issue.subject) := by
  rw [subjects_reservedSymbols, subjects_reservedSymbols]
  exact h.alphabet.flatMap fun a a' ha => alike_tellIf _ _ (BEq.congr_left ha) BEq.rfl ha

theorem alike_undeclaredState {q q' : Value} (hq : (q == q') = true) :
    Alike counted (tellIf (!d.states.contains q) .undeclaredReference .error q .null)
      (tellIf (!d'.states.contains q') .undeclaredReference .error q' .null) :=
  alike_tellIf _ _ (congrArg _ (h.contains_states_eq hq)) hq BEq.rfl

theorem alike_undeclared : Alike counted (d.undeclared.map Issue.subject) (d'.undeclared.map Issue.subject) := by
  rw [subjects_undeclared, subjects_undeclared]
  refine ((h.alike_undeclaredState h.initial).append ?_).append ?_
  · exact h.finals.flatMap fun q q' hq => h.alike_undeclaredState hq
  · refine h.transitions.flatMap fun t t' ht => ?_
    obtain ⟨hsource, hsymbol, htarget⟩ := Transition.beq_iff.mp ht
    refine ((h.alike_undeclaredState hsource).append (h.alike_undeclaredState htarget)).append ?_
    exact alike_tellIf _ _ (h.isSome_symbolProblem?_eq ht) hsource hsymbol

/-! ### Reachability -/

theorem live?_cases : (d.live? = none ∧ d'.live? = none) ∨
    ∃ live live', d.live? = some live ∧ d'.live? = some live' ∧ SameSet live live' := by
  unfold live?
  rw [← h.contains_states_eq h.initial]
  by_cases hc : d.states.contains d.initial = true
  · rw [if_pos hc, if_pos hc]
    refine Or.inr ⟨_, _, rfl, rfl, .of_iff fun q => ?_⟩
    rw [contains_filter_iff fun _ _ => contains_congr, contains_filter_iff fun _ _ => contains_congr,
      sameSet_reachableBy h.transitions.set h.initial q, h.states.set q]
  · rw [if_neg hc, if_neg hc]
    exact Or.inl ⟨rfl, rfl⟩

theorem alike_whenKnown {told told' : List Value → List Issue}
    (htold : ∀ live live', SameSet live live' →
      Alike counted ((told live).map Issue.subject) ((told' live').map Issue.subject)) :
    Alike counted ((whenKnown d.live? told).map Issue.subject) ((whenKnown d'.live? told').map Issue.subject) := by
  rcases h.live?_cases with ⟨hd, hd'⟩ | ⟨live, live', hd, hd', hlive⟩
  · rw [hd, hd']
    exact Alike.refl []
  · rw [hd, hd']
    exact htold live live' hlive

section
variable {live live' : List Value} (hlive : SameSet live live') (strict : Bool)
include hlive

theorem alike_unreachableStates : Alike counted ((d.unreachableStates live strict).map Issue.subject)
    ((d'.unreachableStates live' strict).map Issue.subject) := by
  rw [subjects_unreachableStates, subjects_unreachableStates]
  refine h.states.flatMap fun q q' hq => alike_tellIf _ _ ?_ hq BEq.rfl
  rw [hlive q, h.finals.set q, contains_congr hq, contains_congr hq]

theorem alike_unreachableFinals : Alike counted ((d.unreachableFinals live strict).map Issue.subject)
    ((d'.unreachableFinals live' strict).map Issue.subject) := by
  have hmeets : meets d.finals live = meets d'.finals live' := by
    rw [h.finals.set.meets_eq]
    unfold meets
    rw [funext hlive]
  rw [subjects_unreachableFinals, subjects_unreachableFinals, hmeets]
  by_cases hm : meets d'.finals live' = true
  · rw [if_pos hm, if_pos hm]
    refine h.finals.flatMap fun q q' hq => alike_tellIf _ _ ?_ hq BEq.rfl
    rw [hlive q, contains_congr hq, h.contains_states_eq hq]
  · rw [if_neg hm, if_neg hm]
    exact Alike.refl _

end

/-! ### Determinism -/

/-- A key has a row of its own, so keys are counted alike as soon as they are
the same set. -/
theorem alike_ambiguousKeys : Alike counted d.ambiguousKeys d'.ambiguousKeys := by
  refine .of_isDistinct ((oneRowPerKey_moves _).keysWhere _) ((oneRowPerKey_moves _).keysWhere _) (.of_iff fun k => ?_)
  have hlength : ((moves d.transitions).targets k).length = ((moves d'.transitions).targets k).length := by
    have hsame := (sameTable_moves h.transitions.set).targets k
    refine Nat.le_antisymm ((isDistinct_targets_moves _ k).length_le fun q hq => ?_)
      ((isDistinct_targets_moves _ k).length_le fun q hq => ?_)
    · exact (hsame.iff q).mp (contains_of_mem hq)
    · exact (hsame.iff q).mpr (contains_of_mem hq)
  unfold ambiguousKeys
  rw [Rows.contains_keysWhere_iff (oneRowPerKey_moves _) rfl, Rows.contains_keysWhere_iff (oneRowPerKey_moves _) rfl,
    hlength]

theorem alike_ambiguousMoves :
    Alike counted (d.ambiguousMoves.map Issue.subject) (d'.ambiguousMoves.map Issue.subject) := by
  rw [subjects_ambiguousMoves, subjects_ambiguousMoves, h.kind]
  by_cases hk : d'.kind = .dfa
  · rw [if_pos hk, if_pos hk]
    refine h.alike_ambiguousKeys.flatMap fun k k' hkk => ?_
    obtain ⟨hq, ha⟩ := prod_beq_iff.mp hkk
    exact alike_tellIf _ _ rfl hq ha
  · rw [if_neg hk, if_neg hk]
    exact Alike.refl []

/-! ### All stages -/

theorem alike_findings (strict : Bool) :
    Alike counted ((d.findings strict).map Issue.subject) ((d'.findings strict).map Issue.subject) := by
  simp only [findings_eq_append, List.map_append]
  refine ((((h.alike_reservedSymbols).append h.alike_undeclared).append ?_).append ?_).append h.alike_ambiguousMoves
  · exact h.alike_whenKnown fun live live' hlive => h.alike_unreachableStates hlive strict
  · exact h.alike_whenKnown fun live live' hlive => h.alike_unreachableFinals hlive strict

end Relisted

end Draft

end FiniteAutomata
