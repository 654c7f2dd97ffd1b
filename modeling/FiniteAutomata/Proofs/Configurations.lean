import FiniteAutomata.Proofs.Walk
import FiniteAutomata.Proofs.WellFormed

/-!
# Configurations

The configuration after a word holds the states that walks spelling the word
lead to (`contains_configuration_iff`). Steps respect equality of states, of
symbols and of configurations as sets, and they lead to labels of the draft
only.
-/

namespace FiniteAutomata

namespace Automaton

variable (A : Automaton)

theorem wellFormed : A.draft.WellFormed := Draft.isSound_iff_wellFormed.mp A.sound

/-! ## Successors -/

variable {A} in
theorem mem_successors {q a r : Value} (h : r ∈ A.successors q a) :
    ∃ t ∈ A.draft.transitions, t.isEpsilon = false ∧ (t.source == q) = true ∧ (t.symbol == a) = true ∧
      t.target = r := by
  unfold successors at h
  rw [A.moves_eq] at h
  exact mem_targets_moves h

theorem contains_successors_iff {q a r : Value} : (A.successors q a).contains r = true ↔
    ∃ t ∈ A.draft.transitions, t.isEpsilon = false ∧ (t.source == q) = true ∧ (t.symbol == a) = true ∧
      (t.target == r) = true := by
  unfold successors
  rw [A.moves_eq]
  exact contains_targets_moves_iff

theorem successors_congr {q q' a a' : Value} (hq : (q == q') = true) (ha : (a == a') = true) :
    A.successors q a = A.successors q' a' :=
  Rows.targets_congr _ (prod_beq_iff.mpr ⟨hq, ha⟩)

theorem contains_image_iff {qs : List Value} {a r : Value} :
    (A.image qs a).contains r = true ↔ ∃ q, qs.contains q = true ∧ (A.successors q a).contains r = true := by
  unfold image
  rw [contains_distinct, List.contains_flatMap, List.any_eq_true]
  constructor
  · intro ⟨q, hq, hr⟩
    exact ⟨q, contains_of_mem hq, hr⟩
  · intro ⟨q, hq, hr⟩
    obtain ⟨q', hq', heq⟩ := List.contains_iff_exists_mem_beq.mp hq
    rw [A.successors_congr heq BEq.rfl] at hr
    exact ⟨q', hq', hr⟩

theorem contains_closure_iff {qs : List Value} {q : Value} : (A.closure qs).contains q = true ↔
    ∃ p, qs.contains p = true ∧ ∃ es, Walk (A.draft.transitions.filter Transition.isEpsilon) p es q := by
  unfold closure
  rw [A.silent_eq]
  exact contains_closure_iff_walk fun _ _ => contains_targets_silentMoves_iff

/-! ## Configurations as sets -/

variable {A}

theorem sameSet_closure {qs qs' : List Value} (h : SameSet qs qs') : SameSet (A.closure qs) (A.closure qs') :=
  sameSet_closure_of_sameSet h

theorem sameSet_image {qs qs' : List Value} {a a' : Value} (h : SameSet qs qs') (ha : (a == a') = true) :
    SameSet (A.image qs a) (A.image qs' a') := by
  refine SameSet.of_iff fun r => ?_
  rw [A.contains_image_iff, A.contains_image_iff]
  simp [h.iff, A.successors_congr BEq.rfl ha]

theorem sameSet_step {qs qs' : List Value} {a a' : Value} (h : SameSet qs qs') (ha : (a == a') = true) :
    SameSet (A.step qs a) (A.step qs' a') := sameSet_closure (sameSet_image h ha)

def IsClosed (A : Automaton) (qs : List Value) : Prop := SameSet (A.closure qs) qs

theorem isClosed_closure (qs : List Value) : A.IsClosed (A.closure qs) := sameSet_closure_closure A.silent qs

theorem isClosed_step (qs : List Value) (a : Value) : A.IsClosed (A.step qs a) := isClosed_closure _

theorem isClosed_initialConfiguration : A.IsClosed A.initialConfiguration := isClosed_closure _

@[simp]
theorem closure_nil : A.closure [] = [] := by
  simp only [closure, FiniteAutomata.closure, explore, distinct, adjoinAll, List.foldl_nil, List.length_nil, Nat.zero_add]
  cases A.silent.allTargets.length <;> rfl

@[simp]
theorem image_nil (a : Value) : A.image [] a = [] := rfl

theorem closure_isEmpty (qs : List Value) : (A.closure qs).isEmpty = qs.isEmpty := by
  cases qs with
  | nil => rw [closure_nil]
  | cons q qs =>
    rw [List.isEmpty_cons, Bool.eq_false_iff]
    intro hc
    have hq : (A.closure (q :: qs)).contains q = true :=
      A.contains_closure_iff.mpr ⟨q, contains_of_mem List.mem_cons_self, [], .stay BEq.rfl⟩
    rw [isEmpty_iff_forall_contains.mp hc q] at hq
    cases hq

theorem foldl_step_nil (w : List Value) : w.foldl A.step [] = [] := by
  induction w with
  | nil => rfl
  | cons a w ih => simpa [step] using ih

theorem isEmpty_step_of_foldl {qs w : List Value} {a : Value} (h : ((a :: w).foldl A.step qs).isEmpty = false) :
    (A.step qs a).isEmpty = false := by
  rw [Bool.eq_false_iff]
  intro hd
  rw [List.foldl_cons, List.isEmpty_iff.mp hd, foldl_step_nil] at h
  cases h

theorem mem_filterMap_symbols {β : Type} {f : Value → List Value} {g : Value → β} {x : β} :
    x ∈ A.symbols.filterMap (fun a => if (f a).isEmpty then none else some (g a)) ↔
      ∃ a ∈ A.alphabet, (f a).isEmpty = false ∧ x = g a := by
  unfold symbols
  rw [List.mem_filterMap]
  simp only [mem_canonicalOrder]
  apply exists_congr; intro a
  by_cases h : (f a).isEmpty = true
  · simp [h]
  · simp [h, eq_comm]

/-! ## Words as walks -/

theorem contains_step_of_walk {qs : List Value} (hqs : A.IsClosed qs) {p a : Value}
    {es : List Transition} {t : Transition} (hp : qs.contains p = true)
    (hes : Walk (A.draft.transitions.filter Transition.isEpsilon) p es t.source) (ht : t ∈ A.draft.transitions)
    (he : t.isEpsilon = false) (ha : (t.symbol == a) = true) : (A.step qs a).contains t.target = true := by
  have hs : qs.contains t.source = true := (hqs.iff _).mp (A.contains_closure_iff.mpr ⟨p, hp, es, hes⟩)
  have hr : (A.image qs a).contains t.target = true :=
    A.contains_image_iff.mpr ⟨t.source, hs, A.contains_successors_iff.mpr ⟨t, ht, he, BEq.rfl, ha, BEq.rfl⟩⟩
  exact A.contains_closure_iff.mpr ⟨t.target, hr, [], .stay BEq.rfl⟩

theorem exists_walk_of_contains_step {qs : List Value} {a r : Value} (h : (A.step qs a).contains r = true) :
    ∃ p, qs.contains p = true ∧ ∃ es, Walk A.draft.transitions p es r ∧ (spelled es == [a]) = true := by
  obtain ⟨q, hq, es, hes⟩ := A.contains_closure_iff.mp h
  obtain ⟨p, hp, hpq⟩ := A.contains_image_iff.mp hq
  obtain ⟨t, ht, he, hs, ha, hq⟩ := A.contains_successors_iff.mp hpq
  obtain ⟨hwalk, hsilent⟩ := Walk.filter_iff.mp hes
  refine ⟨p, hp, t :: es, .go ht (BEq.symm hs) (hwalk.congr_left hq), ?_⟩
  rw [spelled_cons_read he, spelled_eq_nil_iff.mpr hsilent, list_beq_cons_iff]
  exact ⟨ha, rfl⟩

/-- From a closed configuration, a word leads where the walks that spell it
lead. -/
theorem contains_foldl_step_iff {qs : List Value} (hqs : A.IsClosed qs) {w : List Value} {q : Value} :
    (w.foldl A.step qs).contains q = true ↔
      ∃ p, qs.contains p = true ∧ ∃ es, Walk A.draft.transitions p es q ∧ (spelled es == w) = true := by
  induction w generalizing qs with
  | nil =>
    rw [List.foldl_nil, ← hqs.iff, A.contains_closure_iff]
    simp [Walk.filter_iff, spelled_eq_nil_iff]
  | cons a w ih =>
    rw [List.foldl_cons, ih (isClosed_step _ _)]
    constructor
    · intro ⟨r, hr, es, hes, hw⟩
      obtain ⟨p, hp, fs, hfs, ha⟩ := exists_walk_of_contains_step hr
      refine ⟨p, hp, fs ++ es, hfs.append hes, ?_⟩
      rw [spelled_append]
      cases hsp : spelled fs with
      | nil => rw [hsp] at ha; cases ha
      | cons b bs =>
        rw [hsp, list_beq_cons_iff] at ha
        rw [list_beq_nil_iff.mp ha.2, List.cons_append, List.nil_append, list_beq_cons_iff]
        exact ⟨ha.1, hw⟩
    · intro ⟨p, hp, es, hes, hw⟩
      obtain ⟨es₁, t, es₂, h₁, ht, he, ha, h₂, hw⟩ := hes.exists_read hw
      exact ⟨t.target, contains_step_of_walk hqs hp h₁ ht he ha, es₂, h₂, hw⟩

theorem contains_configuration_iff {w : List Value} {q : Value} :
    (A.configuration w).contains q = true ↔ A.draft.Leads w q := by
  unfold configuration Draft.Leads
  rw [contains_foldl_step_iff isClosed_initialConfiguration]
  constructor
  · intro ⟨p, hp, es, hes, hw⟩
    obtain ⟨i, hi, fs, hfs⟩ := A.contains_closure_iff.mp hp
    obtain ⟨hfs, hsilent⟩ := Walk.filter_iff.mp hfs
    have hi : (A.draft.initial == i) = true := by simpa [initial, BEq.comm] using hi
    refine ⟨fs ++ es, (hfs.congr_left hi).append hes, ?_⟩
    rw [spelled_append, spelled_eq_nil_iff.mpr hsilent]
    exact hw
  · intro ⟨es, hes, hw⟩
    refine ⟨A.initial, ?_, es, hes, hw⟩
    exact A.contains_closure_iff.mpr ⟨A.initial, by simp, [], .stay BEq.rfl⟩

end Automaton

end FiniteAutomata
