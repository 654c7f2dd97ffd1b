import FiniteAutomata.Proofs.Emptiness
import FiniteAutomata.Proofs.Subsets.Discovery
import FiniteAutomata.Proofs.Subsets.Encoding
import Mathlib.Data.List.Sublists

/-!
# The searches stay within the powerset

A configuration is a set of states that the initial state reaches, and never
the empty one, so there are fewer different ones than there are sets of
reached states (`length_le_of_parts`). The search for a shortest word looks at
each of them once. The subset construction may find one set under several
encodings, but not where equal labels are spelled alike
(`searches_within_powerset`).
-/

namespace FiniteAutomata

/-! ## Parts of a list -/

section
variable {α : Type} [BEq α] [EquivBEq α] {whole : List α}

theorem sameSet_of_filter_eq {xs ys : List α} (hxs : ∀ x, xs.contains x = true → whole.contains x = true)
    (hys : ∀ y, ys.contains y = true → whole.contains y = true)
    (h : whole.filter xs.contains = whole.filter ys.contains) : SameSet xs ys := by
  have hcontains {zs : List α} (hzs : ∀ z, zs.contains z = true → whole.contains z = true) (x : α) :
      (whole.filter zs.contains).contains x = true ↔ zs.contains x = true := by
    rw [contains_filter_iff fun _ _ => contains_congr]
    exact ⟨And.right, fun hx => ⟨hzs x hx, hx⟩⟩
  refine SameSet.of_iff fun x => ?_
  rw [← hcontains hxs, h, hcontains hys]

/-- Different parts of a list, none of them empty, are fewer than its
sublists. -/
theorem length_le_of_parts {parts : List (List α)} (hdiff : parts.Pairwise fun xs ys => ¬ SameSet xs ys)
    (hne : ∀ xs ∈ parts, xs.isEmpty = false)
    (hsub : ∀ xs ∈ parts, ∀ x, xs.contains x = true → whole.contains x = true) :
    parts.length ≤ 2 ^ whole.length - 1 := by
  have hnodup : ([] :: parts.map fun xs => whole.filter xs.contains).Nodup := by
    refine List.nodup_cons.mpr ⟨?_, List.pairwise_map.mpr (hdiff.imp_of_mem fun hxs hys hnot heq => ?_)⟩
    · intro hmem
      obtain ⟨xs, hxs, hnil⟩ := List.mem_map.mp hmem
      have hempty : SameSet xs [] :=
        sameSet_of_filter_eq (hsub xs hxs) (fun _ h => nomatch h) (hnil.trans (List.filter_false whole).symm)
      have := hne xs hxs
      rw [hempty.isEmpty_eq] at this
      cases this
    · exact hnot (sameSet_of_filter_eq (hsub _ hxs) (hsub _ hys) heq)
  have hsublists : ([] :: parts.map fun xs => whole.filter xs.contains) ⊆ whole.sublists := by
    refine List.forall_mem_cons.mpr ⟨List.mem_sublists.mpr (List.nil_sublist _), List.forall_mem_map.mpr fun xs _ => ?_⟩
    exact List.mem_sublists.mpr List.filter_sublist
  have hle := (hnodup.subperm hsublists).length_le
  rw [List.length_cons, List.length_map, List.length_sublists] at hle
  omega

end

namespace Automaton

variable {A : Automaton}

/-- The states that walks from the initial state lead to, each once. -/
structure ListsReached (A : Automaton) (reached : List Value) : Prop where
  distinct : IsDistinct reached
  contains_iff : ∀ q, reached.contains q = true ↔ ∃ es, Walk A.draft.transitions A.draft.initial es q

theorem listsReached_live (A : Automaton) : A.ListsReached (distinct A.draft.live) where
  distinct := isDistinct_distinct _
  contains_iff := by
    intro q
    rw [contains_distinct]
    exact A.wellFormed.contains_live_iff_walk

theorem ListsReached.contains_of_configuration {reached : List Value} (h : A.ListsReached reached) {w : List Value}
    (hw : A.IsOverAlphabet w) {q : Value} (hq : (A.configuration w).contains q = true) :
    reached.contains q = true :=
  (h.contains_iff q).mpr (A.wellFormed.contains_live_iff_walk.mp (contains_live_iff.mpr ⟨w, hw, hq⟩))

/-! ## The search for a shortest word -/

def startReached (A : Automaton) : Reached := ⟨A.initialConfiguration, []⟩

theorem reaches_of_mem_searched {r : Reached} (h : r ∈ A.searched) :
    Reaches A.successorsOfReached [A.startReached] r :=
  reaches_of_mem_visit (fun _ hx => .start hx) r h

theorem isEmpty_of_reaches {r : Reached} (h : Reaches A.successorsOfReached [A.startReached] r) :
    r.configuration.isEmpty = false := by
  cases h with
  | start hr =>
    rw [List.mem_singleton.mp hr]
    exact isEmpty_initialConfiguration
  | step _ hr =>
    obtain ⟨a, _, hne, rfl⟩ := mem_successorsOfReached.mp hr
    exact hne

theorem exists_dequeues_searched (A : Automaton) : ∃ last,
    Dequeues A.successorsOfReached A.isAccepting [A.startReached] [A.startReached] A.searched last :=
  exists_dequeues_singleton A.isAccepting (fun _ _ _ => contains_reachedSupply_of_mem)
    (contains_reachedSupply isStateSet_initialConfiguration) A.length_reachedSupply_le

theorem pairwise_searched (A : Automaton) :
    A.searched.Pairwise fun r s => ¬ SameSet r.configuration s.configuration := by
  refine (isDistinct_visit_singleton A.successorsOfReached A.isAccepting _ A.startReached).imp fun hne hsame => ?_
  rw [reached_beq_iff.mpr hsame] at hne
  cases hne

theorem length_searched_le {reached : List Value} (h : A.ListsReached reached) :
    A.searched.length ≤ 2 ^ reached.length - 1 := by
  rw [← List.length_map Reached.configuration]
  refine length_le_of_parts (List.pairwise_map.mpr A.pairwise_searched) (List.forall_mem_map.mpr fun r hr => ?_)
    (List.forall_mem_map.mpr fun r hr q hq => ?_)
  · exact isEmpty_of_reaches (reaches_of_mem_searched hr)
  · obtain ⟨hw, hconfiguration⟩ := spec_of_reaches (reaches_of_mem_searched hr)
    rw [hconfiguration] at hq
    exact h.contains_of_configuration hw hq

/-! ## The subset construction -/

theorem dequeues_subsets (A : Automaton) :
    Dequeues A.nextSubsets (fun _ => false) [A.startSubset] [A.startSubset] A.subsets A.subsets :=
  dequeues_explore_singleton (fun _ _ _ => contains_listsUpTo_of_mem_nextSubsets)
    (contains_listsUpTo_startSubset _ (List.mem_singleton.mpr rfl)) length_listsUpTo_stateLabels

section
variable (hlabels : ∀ v ∈ A.stateLabels, v.Definite)
variable (halike : ∀ v ∈ A.stateLabels, ∀ w ∈ A.stateLabels, (v == w) = true → v.spelling = w.spelling)
include hlabels halike

theorem pairwise_subsets : A.subsets.Pairwise fun s t => ¬ SameSet s t := by
  refine (isDistinct_explore _ _ _).imp_of_mem fun hs ht hne hsame => ?_
  have haligned := Value.aligned_of_spelling hlabels halike (isStateSet_of_mem_subsets hs).supply
    (isStateSet_of_mem_subsets ht).supply
  rw [(subsets_beq_iff (Value.ordered_of_definite hlabels) hs ht).mpr ⟨hsame, haligned⟩] at hne
  cases hne

theorem length_subsets_le {reached : List Value} (h : A.ListsReached reached) :
    A.subsets.length ≤ 2 ^ reached.length - 1 := by
  refine length_le_of_parts (pairwise_subsets hlabels halike) (fun s hs => ?_) fun s hs q hq => ?_
  · obtain ⟨w, _, hne, hsame⟩ := exists_word_of_mem_subsets hs
    rw [hsame.isEmpty_eq]
    exact hne
  · obtain ⟨w, hw, _, hsame⟩ := exists_word_of_mem_subsets hs
    exact h.contains_of_configuration hw ((hsame.iff q).mp hq)

end

/-! ## Both searches -/

/-- The loop of the search for a shortest word ends, and it looks at no
configuration twice, so at fewer than there are sets of reached states. The
loop of the subset construction ends, and it takes each state of the result
from the queue once. Where equal labels are spelled alike, these are fewer
than the sets of reached states as well. -/
theorem searches_within_powerset (A : Automaton) : ∃ reached, A.ListsReached reached ∧
    (∃ last, Dequeues A.successorsOfReached A.isAccepting [A.startReached] [A.startReached] A.searched last) ∧
    (A.searched.Pairwise fun r s => ¬ SameSet r.configuration s.configuration) ∧
    A.searched.length ≤ 2 ^ reached.length - 1 ∧
    ∃ D : Automaton, A.determinize = .ok D ∧ D.draft.states = A.subsets.map Value.tuple ∧
      Dequeues A.nextSubsets (fun _ => false) [A.startSubset] [A.startSubset] A.subsets A.subsets ∧
      IsDistinct D.draft.states ∧
      ((∀ v ∈ A.stateLabels, v.Definite) →
        (∀ v ∈ A.stateLabels, ∀ w ∈ A.stateLabels, (v == w) = true → v.spelling = w.spelling) →
        D.draft.states.length ≤ 2 ^ reached.length - 1) := by
  have hreached := A.listsReached_live
  obtain ⟨D, hD, hdet, -⟩ := A.determinize_eq_ok
  refine ⟨_, hreached, A.exists_dequeues_searched, A.pairwise_searched, length_searched_le hreached, D, hdet, ?_,
    A.dequeues_subsets, ?_, fun hlabels halike => ?_⟩
  · rw [hD]; rfl
  · rw [hD]
    exact (isSubsetGraph_subsetDraft A).distinct
  · rw [hD]
    show (A.subsets.map Value.tuple).length ≤ _
    rw [List.length_map]
    exact length_subsets_le hlabels halike hreached

/-- A fraction, a tuple and a tuple in a tuple. -/
def mixed : Automaton :=
  .ofDraft ⟨.nfa, [.float (.finite (1 / 2)), .tuple [.int 1, .text "a"], .tuple [.tuple [], .null]],
    [.text "a", .text "b"], .float (.finite (1 / 2)), [.tuple [.tuple [], .null]],
    [⟨.float (.finite (1 / 2)), .text "a", .tuple [.int 1, .text "a"]⟩,
      ⟨.float (.finite (1 / 2)), .text "b", .tuple [.int 1, .text "a"]⟩,
      ⟨.float (.finite (1 / 2)), .text "b", .float (.finite (1 / 2))⟩,
      ⟨.tuple [.int 1, .text "a"], .text "a", .tuple [.tuple [], .null]⟩]⟩
    (by decide +kernel) (by decide +kernel)

theorem searches_within_powerset_mixed : (∀ v ∈ mixed.stateLabels, v.Definite) ∧
    (∀ v ∈ mixed.stateLabels, ∀ w ∈ mixed.stateLabels, (v == w) = true → v.spelling = w.spelling) ∧
    ∃ reached, mixed.ListsReached reached ∧ mixed.searched.length ≤ 2 ^ reached.length - 1 ∧
      ∃ D : Automaton, mixed.determinize = .ok D ∧ D.draft.states.length ≤ 2 ^ reached.length - 1 := by
  have hlabels : ∀ v ∈ mixed.stateLabels, v.Definite := by decide +kernel
  have halike : ∀ v ∈ mixed.stateLabels, ∀ w ∈ mixed.stateLabels, (v == w) = true → v.spelling = w.spelling := by
    decide +kernel
  obtain ⟨reached, hreached, -, -, hsearched, D, hD, -, -, -, hstates⟩ := searches_within_powerset mixed
  exact ⟨hlabels, halike, reached, hreached, hsearched, D, hD, hstates hlabels halike⟩

end Automaton

/-! ## Equal labels that are spelled differently -/

namespace Value

mutual

/-- What types and structure tell of a value: the types in place of the parts
that have none. -/
def skeleton : Value → Value
  | tuple xs => tuple (skeletons xs)
  | frozenSet xs => frozenSet (skeletons xs)
  | v => text v.typeName

def skeletons : List Value → List Value
  | [] => []
  | x :: xs => skeleton x :: skeletons xs

end

end Value

namespace Automaton

/-- On `b` and on `c` both states are entered. The zero in the first one is
negative after `c`, and its two names stand on different sides of the second
one. -/
def signedZeros : Automaton :=
  .ofDraft ⟨.nfa, [.tuple [.float (.finite 0)], .tuple [.float (.finite (-1))]], [.text "a", .text "b", .text "c"],
    .tuple [.float (.finite 0)], [.tuple [.float (.finite (-1))]],
    [⟨.tuple [.float (.finite 0)], .text "a", .tuple [.float (.finite (-1))]⟩,
      ⟨.tuple [.float (.finite 0)], .text "b", .tuple [.float (.finite 0)]⟩,
      ⟨.tuple [.float (.finite 0)], .text "b", .tuple [.float (.finite (-1))]⟩,
      ⟨.tuple [.float (.finite 0)], .text "c", .tuple [.float .negativeZero]⟩,
      ⟨.tuple [.float (.finite 0)], .text "c", .tuple [.float (.finite (-1))]⟩]⟩
    (by decide +kernel) (by decide +kernel)

/-- That equal labels have one type and one structure is not enough: a zero in
a tuple is spelled with its sign. -/
theorem subsets_exceed_powerset : (∀ v ∈ signedZeros.stateLabels, v.Definite) ∧
    (∀ v ∈ signedZeros.stateLabels, ∀ w ∈ signedZeros.stateLabels, (v == w) = true →
      (v.skeleton == w.skeleton) = true) ∧
    ∃ reached, signedZeros.ListsReached reached ∧
      ∃ D : Automaton, signedZeros.determinize = .ok D ∧ 2 ^ reached.length - 1 < D.draft.states.length := by
  obtain ⟨D, hD, hdet, -⟩ := signedZeros.determinize_eq_ok
  refine ⟨by decide +kernel, by decide +kernel, _, signedZeros.listsReached_live, D, hdet, ?_⟩
  rw [hD]
  decide +kernel

end Automaton

end FiniteAutomata
