import FiniteAutomata.Automaton.Validation
import FiniteAutomata.Proofs.Tables

/-!
# Well-formed drafts

What the checks of a draft amount to: everything it refers to is declared, its
labels are allowed for its kind, and under the deterministic kind no state and
symbol lead to two states. The checks find no error exactly then
(`isSound_iff_wellFormed`), and such a draft validates
(`validate_of_isSound`).
-/

namespace FiniteAutomata

theorem forall_mem_zipIdx_iff {α : Type} {xs : List α} {P : α → Prop} :
    (∀ x ∈ xs.zipIdx, P x.1) ↔ ∀ x ∈ xs, P x := by
  constructor
  · intro h x hx
    rw [← List.zipIdx_map_fst 0 xs] at hx
    obtain ⟨p, hp, rfl⟩ := List.mem_map.mp hx
    exact h p hp
  · intro h x hx
    exact h x.1 (List.fst_mem_of_mem_zipIdx hx)

namespace Draft

/-- The label of an edge is declared, or silent in a draft that may have
silent edges. -/
def Allows (d : Draft) (t : Transition) : Prop :=
  if t.isEpsilon then d.kind = .epsilonNfa else d.alphabet.contains t.symbol = true

structure WellFormed (d : Draft) : Prop where
  reserved : d.alphabet.contains epsilon = false
  initial : d.states.contains d.initial = true
  finals : ∀ q ∈ d.finals, d.states.contains q = true
  source : ∀ t ∈ d.transitions, d.states.contains t.source = true
  target : ∀ t ∈ d.transitions, d.states.contains t.target = true
  symbol : ∀ t ∈ d.transitions, d.Allows t
  deterministic : d.kind = .dfa → ∀ t ∈ d.transitions, ∀ u ∈ d.transitions, (t.source == u.source) = true →
    (t.symbol == u.symbol) = true → (t.target == u.target) = true

variable (d : Draft)

/-! ## One check at a time -/

theorem reservedSymbols_eq_nil_iff : d.reservedSymbols = [] ↔ d.alphabet.contains epsilon = false := by
  have hnone : d.reservedSymbols = [] ↔ ∀ x ∈ d.alphabet.zipIdx, (x.1 == epsilon) = false := by
    unfold reservedSymbols
    rw [List.filterMap_eq_nil_iff]
    simp
  rw [hnone, forall_mem_zipIdx_iff (P := fun a => (a == epsilon) = false), List.contains_eq_any_beq, List.any_eq_false]
  simp [BEq.comm (a := epsilon)]

theorem undeclaredState_eq_nil_iff {q : Value} {location : Issue.Location} :
    d.undeclaredState q location = [] ↔ d.states.contains q = true := by
  unfold undeclaredState
  by_cases h : d.states.contains q = true
  · simp [h]
  · simp [h]

theorem symbolProblem?_eq_none_iff {t : Transition} : d.symbolProblem? t = none ↔ d.Allows t := by
  unfold symbolProblem? Allows
  by_cases he : t.isEpsilon = true
  · by_cases hk : d.kind = .epsilonNfa
    · simp [he, hk]
    · simp [he, hk]
  · by_cases ha : d.alphabet.contains t.symbol = true
    · simp [he, ha]
    · simp [he, ha]

theorem undeclaredSymbol_eq_nil_iff {t : Transition} {i : Nat} : d.undeclaredSymbol t i = [] ↔ d.Allows t := by
  rw [← symbolProblem?_eq_none_iff]
  unfold undeclaredSymbol
  cases d.symbolProblem? t with
  | none => simp
  | some message => simp

theorem undeclared_eq_nil_iff : d.undeclared = [] ↔
    d.states.contains d.initial = true ∧ (∀ q ∈ d.finals, d.states.contains q = true) ∧
      ∀ t ∈ d.transitions, d.states.contains t.source = true ∧ d.states.contains t.target = true ∧ d.Allows t := by
  unfold undeclared undeclaredInEdge
  simp only [List.append_eq_nil_iff, List.flatMap_eq_nil_iff, undeclaredState_eq_nil_iff,
    undeclaredSymbol_eq_nil_iff, and_assoc]
  rw [forall_mem_zipIdx_iff (P := fun q => d.states.contains q = true), forall_mem_zipIdx_iff (P := fun t =>
    d.states.contains t.source = true ∧ d.states.contains t.target = true ∧ d.Allows t)]

theorem ambiguousMoves_eq_nil_iff (hk : d.kind = .dfa) :
    d.ambiguousMoves = [] ↔ ∀ k, ((moves d.transitions).targets k).length ≤ 1 := by
  unfold ambiguousMoves
  rw [if_pos hk, List.filterMap_eq_nil_iff]
  constructor
  · intro h k
    unfold Rows.targets
    cases hr : (moves d.transitions).find? (·.1 == k) with
    | none => exact Nat.zero_le 1
    | some row =>
      have := h row (List.mem_of_find?_eq_some hr)
      by_cases hl : row.2.length ≤ 1
      · exact hl
      · simp [hl] at this
  · intro h row hrow
    have := h row.1
    rw [Rows.targets_eq_of_mem (oneRowPerKey_moves _) hrow] at this
    simp [this]

theorem length_targets_le_one_iff {ts : List Transition} {k : Value × Value} :
    ((moves ts).targets k).length ≤ 1 ↔ ∀ t ∈ ts, ∀ u ∈ ts, t.isEpsilon = false → u.isEpsilon = false →
      (t.key == k) = true → (u.key == k) = true → (t.target == u.target) = true := by
  obtain ⟨q, a⟩ := k
  constructor
  · intro hlen t ht u hu het heu htk huk
    obtain ⟨hts, hta⟩ := prod_beq_iff.mp htk
    obtain ⟨hus, hua⟩ := prod_beq_iff.mp huk
    have ht' := contains_targets_moves_iff.mpr ⟨t, ht, het, hts, hta, BEq.rfl⟩
    have hu' := contains_targets_moves_iff.mpr ⟨u, hu, heu, hus, hua, BEq.rfl⟩
    revert ht' hu' hlen
    cases (moves ts).targets (q, a) with
    | nil => intro _ ht'; cases ht'
    | cons r rs =>
      intro hlen ht' hu'
      cases rs with
      | nil =>
        simp only [List.contains_cons, List.contains_nil, Bool.or_false] at ht' hu'
        exact BEq.trans ht' (BEq.symm hu')
      | cons r' rs => simp at hlen
  · intro h
    refine (isDistinct_targets_moves ts (q, a)).length_le_one fun r hr r' hr' => ?_
    obtain ⟨t, ht, het, hs, ha, rfl⟩ := mem_targets_moves hr
    obtain ⟨u, hu, heu, hs', ha', rfl⟩ := mem_targets_moves hr'
    exact h t ht u hu het heu (prod_beq_iff.mpr ⟨hs, ha⟩) (prod_beq_iff.mpr ⟨hs', ha'⟩)

theorem targets_length_le_one_iff {ts : List Transition} :
    (∀ k, ((moves ts).targets k).length ≤ 1) ↔ ∀ t ∈ ts, ∀ u ∈ ts, t.isEpsilon = false → u.isEpsilon = false →
      (t.source == u.source) = true → (t.symbol == u.symbol) = true → (t.target == u.target) = true := by
  simp only [length_targets_le_one_iff]
  constructor
  · intro h t ht u hu het heu hs ha
    exact h u.key t ht u hu het heu (prod_beq_iff.mpr ⟨hs, ha⟩) BEq.rfl
  · intro h k t ht u hu het heu htk huk
    obtain ⟨hs, ha⟩ := prod_beq_iff.mp (BEq.trans htk (BEq.symm huk))
    exact h t ht u hu het heu hs ha

/-! ## All checks -/

variable {d}

theorem Allows.isEpsilon_eq_false {t : Transition} (h : d.Allows t) (hk : d.kind ≠ .epsilonNfa) :
    t.isEpsilon = false := by
  unfold Allows at h
  by_cases he : t.isEpsilon = true
  · rw [if_pos he] at h
    exact absurd h hk
  · simpa using he

theorem WellFormed.contains_symbol (h : d.WellFormed) {t : Transition} (ht : t ∈ d.transitions)
    (he : t.isEpsilon = false) : d.alphabet.contains t.symbol = true := by
  have := h.symbol t ht
  unfold Allows at this
  rw [he] at this
  exact this

theorem isSound_iff_wellFormed : d.isSound = true ↔ d.WellFormed := by
  unfold isSound
  simp only [Bool.and_eq_true, List.isEmpty_iff, reservedSymbols_eq_nil_iff, undeclared_eq_nil_iff]
  constructor
  · intro ⟨⟨hr, hi, hf, ht⟩, ha⟩
    have hsym : ∀ t ∈ d.transitions, d.Allows t := fun t h => (ht t h).2.2
    refine ⟨hr, hi, hf, fun t h => (ht t h).1, fun t h => (ht t h).2.1, hsym, fun hk t h u h' => ?_⟩
    have hread : ∀ t ∈ d.transitions, t.isEpsilon = false :=
      fun t h => (hsym t h).isEpsilon_eq_false (by simp [hk])
    rw [ambiguousMoves_eq_nil_iff d hk] at ha
    exact targets_length_le_one_iff.mp ha t h u h' (hread t h) (hread u h')
  · intro h
    refine ⟨⟨h.reserved, h.initial, h.finals, fun t ht => ⟨h.source t ht, h.target t ht, h.symbol t ht⟩⟩, ?_⟩
    by_cases hk : d.kind = .dfa
    · rw [ambiguousMoves_eq_nil_iff d hk, targets_length_le_one_iff]
      exact fun t ht u hu _ _ => h.deterministic hk t ht u hu
    · simp [ambiguousMoves, hk]

/-! ## Validation -/

theorem runStages_eq_ok {found : List Issue} {stages : List (List Value × List Issue)}
    (h : ∀ stage ∈ stages, checkHashes stage.1 = .ok ()) :
    runStages false found stages = .ok (found ++ stages.flatMap Prod.snd) := by
  induction stages generalizing found with
  | nil => simp [runStages]
  | cons stage stages ih =>
    obtain ⟨hashed, told⟩ := stage
    obtain ⟨hstage, hrest⟩ := List.forall_mem_cons.mp h
    unfold runStages
    rw [hstage]
    simp only [Bool.false_and, Bool.false_eq_true, if_false]
    rw [ih hrest, List.flatMap_cons, List.append_assoc]

theorem forall_hashed_of_isHashable (h : d.isHashable = true) : ∀ v ∈ d.labels, v.isHashable = true :=
  List.all_eq_true.mp h

theorem checkHashes_eq_ok_of_subset (h : d.isHashable = true) {vs : List Value} (hvs : ∀ v ∈ vs, v ∈ d.labels) :
    checkHashes vs = .ok () :=
  checkHashes_eq_ok_iff.mpr fun v hv => forall_hashed_of_isHashable h v (hvs v hv)

theorem mem_labels_of_mem_hashedFirst {v : Value} (h : v ∈ d.hashedFirst) : v ∈ d.labels := by
  unfold hashedFirst at h
  unfold labels
  simp only [List.mem_append, List.mem_cons, List.mem_flatMap, List.not_mem_nil, or_false] at h ⊢
  rcases h with (⟨t, ht, hv⟩ | hv) | hv
  · exact Or.inr ⟨t, ht, Transition.mem_hashed hv⟩
  · exact Or.inl (Or.inl (Or.inl hv))
  · exact Or.inl (Or.inr (Or.inl hv))

theorem checkHashes_of_mem_stages (h : d.isHashable = true) {strict : Bool} {stage : List Value × List Issue}
    (hstage : stage ∈ d.stages strict) : checkHashes stage.1 = .ok () := by
  refine checkHashes_eq_ok_of_subset h fun v hv => ?_
  unfold stages at hstage
  simp only [List.mem_cons, List.not_mem_nil, or_false] at hstage
  rcases hstage with rfl | rfl | rfl | rfl | rfl
  all_goals simp only [List.not_mem_nil, List.mem_append] at hv
  unfold labels
  rcases hv with hv | hv
  · simp [hv]
  · simp [hv]

theorem validate_of_isHashable (h : d.isHashable = true) (strict : Bool) :
    d.validate strict false = .ok (d.report (d.findings strict)) := by
  unfold validate
  rw [checkHashes_eq_ok_of_subset h fun v => mem_labels_of_mem_hashedFirst]
  simp only [runStages_eq_ok fun _ => checkHashes_of_mem_stages h, List.nil_append, findings, Except.map]

theorem validate_of_isSound (h : d.isHashable = true) (hs : d.isSound = true) :
    ∃ A : Automaton, A.draft = d ∧ d.validate false false = .ok ⟨A.issues, [], some A⟩ := by
  refine ⟨.ofDraft d h hs, rfl, ?_⟩
  rw [validate_of_isHashable h]
  have herror : (d.findings false).any Issue.isError = false := by
    rw [List.any_eq_false]
    intro i hi
    simp [isSound_iff.mp hs i hi]
  simp [report, herror, Automaton.ofDraft?, Automaton.ofDraft, h, hs, Automaton.issues]

end Draft

end FiniteAutomata
