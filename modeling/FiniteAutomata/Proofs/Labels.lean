import FiniteAutomata.Automaton.Determinize
import FiniteAutomata.Proofs.Configurations
import FiniteAutomata.Proofs.Search

/-!
# The supply of state labels

Every configuration is made of the initial state and of targets of edges.
These labels are hashable, and there are few enough of them for the bound of
the searches over sets of states (`contains_listsUpTo_stateLabels`,
`length_listsUpTo_stateLabels`).
-/

namespace FiniteAutomata

theorem isHashable_tuple_iff {xs : List Value} :
    (Value.tuple xs).isHashable = true ↔ ∀ x ∈ xs, x.isHashable = true := by
  unfold Value.isHashable
  rw [Value.unhashable?]
  induction xs with
  | nil => simp [Value.firstUnhashable?]
  | cons x xs ih =>
    rw [Value.firstUnhashable?, List.forall_mem_cons, ← ih]
    cases x.unhashable? with
    | none => simp
    | some name => simp

theorem tuple_beq_iff {xs ys : List Value} : (Value.tuple xs == Value.tuple ys) = true ↔ (xs == ys) = true := by
  induction xs generalizing ys with
  | nil =>
    cases ys with
    | nil => simp
    | cons y ys => rw [Value.beq_iff_key]; simp [Value.key, Value.keys]
  | cons x xs ih =>
    cases ys with
    | nil => rw [Value.beq_iff_key]; simp [Value.key, Value.keys]
    | cons y ys =>
      rw [list_beq_cons_iff, ← ih, Value.beq_iff_key, Value.beq_iff_key, Value.beq_iff_key]
      simp [Value.key, Value.keys]

theorem mem_canonicalSubset {qs : List Value} {q : Value} : q ∈ canonicalSubset qs ↔ q ∈ distinct qs :=
  mem_canonicalOrder

theorem isDistinct_canonicalSubset (qs : List Value) : IsDistinct (canonicalSubset qs) :=
  isDistinct_canonicalOrder (isDistinct_distinct qs)

namespace Automaton

variable (A : Automaton)

def stateLabels : List Value := A.initial :: (A.moves.allTargets ++ A.silent.allTargets)

theorem length_stateLabels : A.stateLabels.length = A.labelCount := by
  simp [stateLabels, labelCount]
  omega

variable {A}

theorem isHashable_of_mem_labels {v : Value} (h : v ∈ A.draft.labels) : v.isHashable = true :=
  Draft.forall_hashed_of_isHashable A.hashable v h

theorem mem_labels_of_target {t : Transition} (ht : t ∈ A.draft.transitions) : t.target ∈ A.draft.labels := by
  unfold Draft.labels
  refine List.mem_append_right _ (List.mem_flatMap.mpr ⟨t, ht, ?_⟩)
  simp

theorem mem_labels_of_mem_stateLabels {q : Value} (h : q ∈ A.stateLabels) : q ∈ A.draft.labels := by
  unfold stateLabels Rows.allTargets at h
  rw [A.moves_eq, A.silent_eq, List.mem_cons, List.mem_append, List.mem_flatMap, List.mem_flatMap] at h
  rcases h with rfl | ⟨⟨⟨p, a⟩, qs⟩, hrow, hq⟩ | ⟨row, hrow, hq⟩
  · simp [Draft.labels, initial]
  · rw [← Rows.targets_eq_of_mem (oneRowPerKey_moves _) hrow] at hq
    obtain ⟨t, ht, _, _, _, rfl⟩ := mem_targets_moves hq
    exact mem_labels_of_target ht
  · rw [← Rows.targets_eq_of_mem (oneRowPerKey_silentMoves _) hrow] at hq
    obtain ⟨t, ht, _, _, rfl⟩ := mem_targets_silentMoves hq
    exact mem_labels_of_target ht

theorem isHashable_of_mem_stateLabels {q : Value} (h : q ∈ A.stateLabels) : q.isHashable = true :=
  isHashable_of_mem_labels (mem_labels_of_mem_stateLabels h)

theorem mem_stateLabels_of_mem_image {qs : List Value} {a r : Value} (h : r ∈ A.image qs a) :
    r ∈ A.stateLabels := by
  obtain ⟨q, _, hr⟩ := List.mem_flatMap.mp (mem_of_mem_distinct h)
  exact List.mem_cons_of_mem _ (List.mem_append_left _ (Rows.mem_allTargets hr))

theorem mem_stateLabels_of_mem_closure {qs : List Value} (hqs : ∀ q ∈ qs, q ∈ A.stateLabels) {q : Value}
    (h : q ∈ A.closure qs) : q ∈ A.stateLabels := by
  cases reaches_of_mem_closure h with
  | start hq => exact hqs q hq
  | step _ hq => exact List.mem_cons_of_mem _ (List.mem_append_right _ (Rows.mem_allTargets hq))

theorem mem_stateLabels_of_mem_step {qs : List Value} {a q : Value} (h : q ∈ A.step qs a) : q ∈ A.stateLabels :=
  mem_stateLabels_of_mem_closure (fun _ => mem_stateLabels_of_mem_image) h

theorem mem_stateLabels_of_mem_initialConfiguration {q : Value} (h : q ∈ A.initialConfiguration) :
    q ∈ A.stateLabels := by
  refine mem_stateLabels_of_mem_closure (fun p hp => ?_) h
  rw [List.mem_singleton.mp hp]
  exact List.mem_cons_self

theorem isDistinct_closure (qs : List Value) : IsDistinct (A.closure qs) := isDistinct_explore _ _ _

/-! ## Sets of states -/

/-- A set of states whose labels come from the supply. -/
structure IsStateSet (A : Automaton) (qs : List Value) : Prop where
  distinct : IsDistinct qs
  supply : ∀ q ∈ qs, q ∈ A.stateLabels

theorem isStateSet_initialConfiguration : A.IsStateSet A.initialConfiguration :=
  ⟨isDistinct_closure _, fun _ => mem_stateLabels_of_mem_initialConfiguration⟩

theorem isStateSet_step (qs : List Value) (a : Value) : A.IsStateSet (A.step qs a) :=
  ⟨isDistinct_closure _, fun _ => mem_stateLabels_of_mem_step⟩

theorem IsStateSet.canonicalSubset {qs : List Value} (h : A.IsStateSet qs) :
    A.IsStateSet (FiniteAutomata.canonicalSubset qs) :=
  ⟨isDistinct_canonicalSubset qs, fun q hq => h.supply q (mem_of_mem_distinct (mem_canonicalSubset.mp hq))⟩

theorem IsStateSet.isHashable {qs : List Value} (h : A.IsStateSet qs) : ∀ q ∈ qs, q.isHashable = true :=
  fun q hq => isHashable_of_mem_stateLabels (h.supply q hq)

theorem contains_listsUpTo_stateLabels {qs : List Value} (h : A.IsStateSet qs) :
    (listsUpTo A.stateLabels A.labelCount).contains qs = true := by
  have hc : ∀ q ∈ qs, A.stateLabels.contains q = true := fun q hq => contains_of_mem (h.supply q hq)
  refine contains_listsUpTo hc ?_
  rw [← A.length_stateLabels]
  exact h.distinct.length_le hc

theorem contains_map_listsUpTo {β : Type} [BEq β] {node : List Value → β} {qs : List Value} {x : β}
    (h : A.IsStateSet qs) (hnode : ∀ s, (qs == s) = true → (x == node s) = true) :
    ((listsUpTo A.stateLabels A.labelCount).map node).contains x = true := by
  obtain ⟨s, hs, heq⟩ := List.contains_iff_exists_mem_beq.mp (contains_listsUpTo_stateLabels h)
  exact List.contains_iff_exists_mem_beq.mpr ⟨node s, List.mem_map_of_mem hs, hnode s heq⟩

theorem length_listsUpTo_stateLabels :
    (listsUpTo A.stateLabels A.labelCount).length ≤ listsBound A.labelCount := by
  have := length_listsUpTo_le A.stateLabels A.labelCount
  rw [A.length_stateLabels] at this
  exact Nat.le_succ_of_le this

end Automaton

end FiniteAutomata
