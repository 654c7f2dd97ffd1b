import FiniteAutomata.Proofs.CanonicalOrder
import FiniteAutomata.Proofs.Relisted.Tables
import FiniteAutomata.Proofs.Subsets.Determinized

/-!
# The subset construction sees sets

Automata with the same initial state and the same sets of symbols, final
states and edges have steps that are the same sets. Where equal labels are the
same label, one subset encodes each of these sets, so the search, its edges
and the whole result are the same (`determinize_eq_of_sameSets`).
-/

namespace FiniteAutomata

open Value (Composed)

/-- The order and the repetition of declarations, the kind and the declared
states may differ. -/
structure Draft.SameSets (d d' : Draft) : Prop where
  initial : (d.initial == d'.initial) = true
  alphabet : SameSet d.alphabet d'.alphabet
  finals : SameSet d.finals d'.finals
  transitions : SameSet d.transitions d'.transitions

theorem Draft.SameSets.symm {d d' : Draft} (h : d.SameSets d') : d'.SameSets d :=
  ⟨BEq.symm h.initial, h.alphabet.symm, h.finals.symm, h.transitions.symm⟩

namespace Automaton

variable {A B : Automaton}

/-! ## Steps as sets -/

section
variable (h : A.draft.SameSets B.draft)
include h

theorem contains_successors_of_sameSets {q a r : Value} (hr : (A.successors q a).contains r = true) :
    (B.successors q a).contains r = true := by
  unfold successors at hr ⊢
  rw [A.moves_eq] at hr
  rw [B.moves_eq]
  exact contains_targets_moves_of_sameSet h.transitions hr

theorem contains_closure_of_sameSets {qs qs' : List Value} (hqs : SameSet qs qs') {q : Value}
    (hq : (A.closure qs).contains q = true) : (B.closure qs').contains q = true := by
  obtain ⟨p, hp, es, hes⟩ := A.contains_closure_iff.mp hq
  have hedges : ∀ t ∈ A.draft.transitions.filter Transition.isEpsilon,
      ∃ u ∈ B.draft.transitions.filter Transition.isEpsilon, (t == u) = true := by
    intro t ht
    obtain ⟨ht, he⟩ := List.mem_filter.mp ht
    obtain ⟨u, hu, heq⟩ := exists_edge_of_sameSet h.transitions ht
    rw [Transition.isEpsilon_congr heq] at he
    exact ⟨u, List.mem_filter.mpr ⟨hu, he⟩, heq⟩
  exact B.contains_closure_iff.mpr ⟨p, (hqs.iff p).mp hp, hes.exists_of_equal_edges hedges⟩

theorem sameSet_closure_of_sameSets {qs qs' : List Value} (hqs : SameSet qs qs') :
    SameSet (A.closure qs) (B.closure qs') :=
  .of_iff fun _ => ⟨contains_closure_of_sameSets h hqs, contains_closure_of_sameSets h.symm hqs.symm⟩

theorem sameSet_step_of_sameSets (s : Subset) (a : Value) : SameSet (A.step s a) (B.step s a) := by
  refine sameSet_closure_of_sameSets h (.of_iff fun r => ?_)
  rw [A.contains_image_iff, B.contains_image_iff]
  constructor
  · intro ⟨q, hq, hr⟩
    exact ⟨q, hq, contains_successors_of_sameSets h hr⟩
  · intro ⟨q, hq, hr⟩
    exact ⟨q, hq, contains_successors_of_sameSets h.symm hr⟩

theorem sameSet_initialConfiguration : SameSet A.initialConfiguration B.initialConfiguration := by
  refine sameSet_closure_of_sameSets h (sameSet_of_beq ?_)
  exact list_beq_cons_iff.mpr ⟨h.initial, rfl⟩

theorem meets_finals_of_sameSets (s : Subset) : meets s A.finals = meets s B.finals := by
  have hfinals : A.finals.contains = B.finals.contains := by
    funext q
    unfold finals
    rw [contains_distinct, contains_distinct, h.finals q]
  unfold meets
  rw [hfinals]

end

/-! ## Steps as subsets -/

section
variable (hL : Unaliased (A.draft.labels ++ B.draft.labels))
include hL

theorem canonicalSubset_eq_of_supply {qs qs' : List Value} (hqs : ∀ q ∈ qs, q ∈ A.stateLabels)
    (hqs' : ∀ q ∈ qs', q ∈ B.stateLabels) (hsame : SameSet qs qs') : canonicalSubset qs = canonicalSubset qs' :=
  hL.canonicalSubset_eq (fun q hq => List.mem_append_left _ (mem_labels_of_mem_stateLabels (hqs q hq)))
    (fun q hq => List.mem_append_right _ (mem_labels_of_mem_stateLabels (hqs' q hq))) hsame

variable (h : A.draft.SameSets B.draft)
include h

theorem symbols_eq_of_sameSets : A.symbols = B.symbols := by
  have hmem (d : Draft) : ∀ a ∈ d.alphabet, a ∈ d.labels :=
    (Draft.forall_labels (P := (· ∈ d.labels)).mp fun _ hv => hv).2.1
  exact hL.canonicalSubset_eq (fun a ha => List.mem_append_left _ (hmem A.draft a ha))
    (fun a ha => List.mem_append_right _ (hmem B.draft a ha)) h.alphabet

theorem startSubset_eq_of_sameSets : A.startSubset = B.startSubset :=
  canonicalSubset_eq_of_supply hL (fun _ => mem_stateLabels_of_mem_initialConfiguration)
    (fun _ => mem_stateLabels_of_mem_initialConfiguration) (sameSet_initialConfiguration h)

theorem subsetStep?_eq_of_sameSets (s : Subset) (a : Value) : A.subsetStep? s a = B.subsetStep? s a := by
  have hstep := sameSet_step_of_sameSets h s a
  rw [subsetStep?_eq, subsetStep?_eq, hstep.isEmpty_eq, canonicalSubset_eq_of_supply hL
    (fun _ => mem_stateLabels_of_mem_step) (fun _ => mem_stateLabels_of_mem_step) hstep]

theorem nextSubsets_eq_of_sameSets : A.nextSubsets = B.nextSubsets := by
  funext s
  unfold nextSubsets
  rw [symbols_eq_of_sameSets hL h, funext (subsetStep?_eq_of_sameSets hL h s)]

/-- The bounds of the two searches differ, but each is enough for its own, and
so is the larger one for both. -/
theorem subsets_eq_of_sameSets : A.subsets = B.subsets := by
  rw [← explore_nextSubsets (Nat.le_max_left (listsBound A.labelCount) (listsBound B.labelCount)),
    nextSubsets_eq_of_sameSets hL h, startSubset_eq_of_sameSets hL h, explore_nextSubsets (Nat.le_max_right _ _)]

theorem subsetEdges_eq_of_sameSets : A.subsetEdges = B.subsetEdges := by
  funext s
  unfold subsetEdges
  rw [symbols_eq_of_sameSets hL h, funext (subsetStep?_eq_of_sameSets hL h s)]

theorem subsetDraft_eq_of_sameSets : A.subsetDraft = B.subsetDraft := by
  unfold subsetDraft
  rw [symbols_eq_of_sameSets hL h, startSubset_eq_of_sameSets hL h, subsets_eq_of_sameSets hL h,
    subsetEdges_eq_of_sameSets hL h, funext (meets_finals_of_sameSets h)]

end

/-! ## The result -/

/-- One automaton is the result for both, with its lists in one order and with
one name. -/
theorem determinize_eq_of_sameSets (A B : Automaton) (hL : Unaliased (A.draft.labels ++ B.draft.labels))
    (h : A.draft.SameSets B.draft) : ∃ D : Automaton, A.determinize = .ok D ∧ B.determinize = .ok D := by
  obtain ⟨D, -, hD, -⟩ := A.determinize_eq_ok
  refine ⟨D, hD, ?_⟩
  unfold determinize at hD ⊢
  rw [← subsetDraft_eq_of_sameSets hL h]
  exact hD

/-- Labels of two types, two of which have the written form of a number in
them. -/
def listed : Automaton :=
  .ofDraft ⟨.nfa, [.int 10, .int 2, .text "2"], [.text "b", .tuple [.int 1]], .int 2, [.int 10],
    [⟨.int 2, .text "b", .int 10⟩, ⟨.int 2, .text "b", .int 2⟩, ⟨.int 10, .tuple [.int 1], .text "2"⟩]⟩
    (by decide +kernel) (by decide +kernel)

/-- The same sets in another order, with repetitions, one more state and
another kind. -/
def relisted : Automaton :=
  .ofDraft ⟨.epsilonNfa, [.text "2", .null, .int 2, .int 10], [.tuple [.int 1], .text "b", .tuple [.int 1]], .int 2,
    [.int 10, .int 10], [⟨.int 10, .tuple [.int 1], .text "2"⟩, ⟨.int 2, .text "b", .int 2⟩,
      ⟨.int 2, .text "b", .int 10⟩, ⟨.int 2, .text "b", .int 2⟩]⟩
    (by decide +kernel) (by decide +kernel)

theorem determinize_eq_of_sameSets_relisted : Unaliased (listed.draft.labels ++ relisted.draft.labels) ∧
    listed.draft.SameSets relisted.draft ∧
      ∃ D : Automaton, listed.determinize = .ok D ∧ relisted.determinize = .ok D := by
  have hcomposed : ∀ v ∈ listed.draft.labels ++ relisted.draft.labels, Composed false v := by decide +kernel
  have hspelling : ∀ v ∈ listed.draft.labels ++ relisted.draft.labels,
      ∀ w ∈ listed.draft.labels ++ relisted.draft.labels, (v == w) = true → v.spelling = w.spelling := by
    decide +kernel
  have hL : Unaliased (listed.draft.labels ++ relisted.draft.labels) :=
    ⟨hcomposed, fun v hv w hw heq =>
      Value.spelling_inj (hcomposed v hv) (hcomposed w hw) (hspelling v hv w hw heq)⟩
  have hsame : listed.draft.SameSets relisted.draft :=
    ⟨by decide +kernel, sameMembers_iff.mp (by decide +kernel), sameMembers_iff.mp (by decide +kernel),
      sameMembers_iff.mp (by decide +kernel)⟩
  exact ⟨hL, hsame, determinize_eq_of_sameSets listed relisted hL hsame⟩

end Automaton

end FiniteAutomata
