import FiniteAutomata.Proofs.DfaRuns
import FiniteAutomata.Proofs.Reachability
import FiniteAutomata.Proofs.Subsets.Probes

/-!
# Determinizing a deterministic automaton

Where no edge is silent and no key has two targets, all subsets that the
subset construction finds are single states, and they are the reachable ones
(`contains_subsets_singleton_iff`). So it trims the automaton and renames what
is left, and a second determinization only renames (`determinize_trims`).
-/

namespace FiniteAutomata

theorem singleton_beq_iff {p q : Value} : ([p] == [q]) = true ↔ (p == q) = true := by
  simp

theorem sameSet_singleton_iff {p q : Value} : SameSet [p] [q] ↔ (p == q) = true := by
  constructor
  · intro h
    have := (h.iff q).mpr (contains_of_mem List.mem_cons_self)
    simpa [BEq.comm] using this
  · intro h
    exact sameSet_of_beq (singleton_beq_iff.mpr h)

theorem not_sameSet_nil_singleton (q : Value) : ¬ SameSet [] [q] := fun h => by cases h.isEmpty_eq

namespace Automaton

/-- The map is an isomorphism onto `D` from the part of `A` that these states
span. -/
structure IsIsomorphism (A D : Automaton) (part : Value → Prop) (f : Value → Value) : Prop where
  injective : ∀ p q, (f p == f q) = (p == q)
  alphabet : SameSet D.alphabet A.alphabet
  states : ∀ s, D.states.contains s = true ↔ ∃ q, part q ∧ (f q == s) = true
  initial : part A.initial ∧ D.initial = f A.initial
  finals : ∀ s, D.finals.contains s = true ↔ ∃ q, part q ∧ A.finals.contains q = true ∧ (f q == s) = true
  moves : ∀ p a q, SameSet (D.successors (f p) a) [f q] ↔ part p ∧ SameSet (A.successors p a) [q]
  read : ∀ t ∈ D.draft.transitions, t.isEpsilon = false

variable {A D : Automaton}

theorem IsIsomorphism.congr {part part' : Value → Prop} {f : Value → Value} (h : A.IsIsomorphism D part f)
    (hpart : ∀ q, part q ↔ part' q) : A.IsIsomorphism D part' f := by
  rw [← funext fun q => propext (hpart q)]
  exact h

/-! ## Declared states -/

theorem contains_states_of_finals {q : Value} (h : A.finals.contains q = true) : A.states.contains q = true := by
  unfold finals at h
  unfold states
  rw [contains_distinct] at h ⊢
  obtain ⟨p, hp, hqp⟩ := List.contains_iff_exists_mem_beq.mp h
  exact contains_of_beq (A.wellFormed.finals p hp) (BEq.symm hqp)

theorem contains_states_of_successors {q a r : Value} (h : (A.successors q a).contains r = true) :
    A.states.contains q = true := by
  obtain ⟨t, ht, _, hsource, _⟩ := A.contains_successors_iff.mp h
  unfold states
  rw [contains_distinct]
  exact contains_of_beq (A.wellFormed.source t ht) hsource

/-! ## Subsets of one state -/

section
variable (hA : A.IsDeterministic)
include hA

theorem startSubset_eq : A.startSubset = [A.initial] := by
  unfold startSubset
  rw [hA.initialConfiguration_eq]; rfl

theorem eq_singleton_of_reaches {s : Subset} (h : Reaches A.nextSubsets [A.startSubset] s) :
    ∃ q, A.draft.IsReached q ∧ s = [q] := by
  induction h with
  | start hs =>
    rw [List.mem_singleton.mp hs, startSubset_eq hA]
    exact ⟨A.initial, ⟨[], .stay BEq.rfl⟩, rfl⟩
  | step _ ht ih =>
    obtain ⟨q, ⟨es, hes⟩, rfl⟩ := ih
    obtain ⟨a, _, hne, rfl⟩ := mem_nextSubsets.mp ht
    rw [hA.step_singleton] at hne ⊢
    rcases hA.successors_cases q a with hs | ⟨r, hs⟩
    · rw [hs] at hne
      cases hne
    · obtain ⟨t, ht, _, hsource, _, rfl⟩ := mem_successors (A := A) (q := q) (a := a) (r := r) (by simp [hs])
      rw [hs]
      exact ⟨t.target, ⟨es ++ [t], hes.append (.single ht (BEq.symm hsource) BEq.rfl)⟩, rfl⟩

theorem contains_subsets_of_walk {p q : Value} {es : List Transition} (h : Walk A.draft.transitions p es q)
    (hp : A.subsets.contains [p] = true) : A.subsets.contains [q] = true := by
  induction h with
  | stay hpq => exact contains_of_beq hp (singleton_beq_iff.mpr hpq)
  | @go p _ t _ ht hsource _ ih =>
    have hc : (A.successors p t.symbol).contains t.target = true :=
      A.contains_successors_iff.mpr ⟨t, ht, hA.read t ht, BEq.symm hsource, BEq.rfl, BEq.rfl⟩
    rcases hA.successors_cases p t.symbol with hs | ⟨r, hs⟩
    · rw [hs] at hc
      cases hc
    · rw [hs] at hc
      have hstep : A.step [p] t.symbol = [r] := by rw [hA.step_singleton, hs]
      have hr := contains_subsets_step hp (a := t.symbol) (by rw [hstep]; rfl)
      rw [hstep] at hr
      apply ih
      exact contains_of_beq hr (singleton_beq_iff.mpr (by simpa [BEq.comm] using hc))

theorem contains_subsets_iff {s : Subset} :
    A.subsets.contains s = true ↔ ∃ q, A.draft.IsReached q ∧ ([q] == s) = true := by
  constructor
  · intro h
    obtain ⟨s', hs', heq⟩ := List.contains_iff_exists_mem_beq.mp h
    obtain ⟨q, hq, rfl⟩ := eq_singleton_of_reaches hA (reaches_of_mem_subsets hs')
    exact ⟨q, hq, BEq.symm heq⟩
  · intro ⟨q, ⟨es, hes⟩, heq⟩
    apply contains_of_beq (contains_subsets_of_walk hA hes _) heq
    have := subsets_closed (A := A).1
    rwa [startSubset_eq hA] at this

theorem contains_subsets_singleton_iff {q : Value} : A.subsets.contains [q] = true ↔ A.draft.IsReached q := by
  rw [contains_subsets_iff hA]
  constructor
  · intro ⟨p, hp, heq⟩
    exact hp.congr (singleton_beq_iff.mp heq)
  · intro hq
    exact ⟨q, hq, BEq.rfl⟩

/-! ## The parts of the determinized automaton -/

variable (hD : D.draft = A.subsetDraft)
include hD

theorem contains_states_iff {s : Value} :
    D.states.contains s = true ↔ ∃ q, A.draft.IsReached q ∧ (.tuple [q] == s) = true := by
  unfold states
  rw [contains_distinct, hD]
  show (A.subsets.map Value.tuple).contains s = true ↔ _
  constructor
  · intro h
    obtain ⟨s', hs', heq⟩ := List.contains_iff_exists_mem_beq.mp h
    obtain ⟨t, ht, rfl⟩ := List.mem_map.mp hs'
    obtain ⟨q, hq, hqt⟩ := (contains_subsets_iff hA).mp (contains_of_mem ht)
    exact ⟨q, hq, BEq.trans (tuple_beq_iff.mpr hqt) (BEq.symm heq)⟩
  · rintro ⟨q, hq, heq⟩
    refine contains_of_beq ?_ heq
    rw [contains_map_tuple, contains_subsets_singleton_iff hA]
    exact hq

theorem contains_finals_iff {s : Value} : D.finals.contains s = true ↔
    ∃ q, A.draft.IsReached q ∧ A.finals.contains q = true ∧ (.tuple [q] == s) = true := by
  have hreached {q : Value} (hq : A.draft.IsReached q) : D.finals.contains (.tuple [q]) = A.finals.contains q := by
    rw [finals_contains_tuple hD ((contains_subsets_singleton_iff hA).mpr hq) (SameSet.refl _)]
    simp [meets]
  constructor
  · intro h
    obtain ⟨q, hq, heq⟩ := (contains_states_iff hA hD).mp (contains_states_of_finals h)
    refine ⟨q, hq, ?_, heq⟩
    rw [← hreached hq]
    exact contains_of_beq h (BEq.symm heq)
  · rintro ⟨q, hq, hfinal, heq⟩
    rw [← hreached hq] at hfinal
    exact contains_of_beq hfinal heq

theorem sameSet_successors_iff {p a q : Value} : SameSet (D.successors (.tuple [p]) a) [.tuple [q]] ↔
    A.draft.IsReached p ∧ SameSet (A.successors p a) [q] := by
  by_cases hp : A.draft.IsReached p
  · rw [and_iff_right hp, successors_of_subset hD ((contains_subsets_singleton_iff hA).mpr hp), hA.step_singleton]
    rcases hA.successors_cases p a with hs | ⟨r, hs⟩
    · rw [hs]
      simp [not_sameSet_nil_singleton]
    · rw [hs, sameSet_singleton_iff]
      show SameSet [Value.tuple [r]] _ ↔ _
      rw [sameSet_singleton_iff, tuple_beq_iff, singleton_beq_iff]
  · simp only [hp, false_and, iff_false]
    intro h
    obtain ⟨r, hr⟩ := isEmpty_eq_false_iff_exists_contains.mp (h.isEmpty_eq.trans rfl)
    obtain ⟨p', hp', heq⟩ := (contains_states_iff hA hD).mp (contains_states_of_successors hr)
    exact hp (hp'.congr (singleton_beq_iff.mp (tuple_beq_iff.mp heq)))

theorem isIsomorphism_tuple : A.IsIsomorphism D A.draft.IsReached fun q => .tuple [q] where
  injective p q := by
    rw [Bool.eq_iff_iff, tuple_beq_iff, singleton_beq_iff]
  alphabet := by
    rw [alphabet_eq_of_draft_eq hD]
    exact sameSet_canonicalOrder _
  states _ := contains_states_iff hA hD
  initial := by
    refine ⟨⟨[], .stay BEq.rfl⟩, ?_⟩
    unfold initial
    rw [hD]
    exact congrArg Value.tuple (startSubset_eq hA)
  finals _ := contains_finals_iff hA hD
  moves _ _ _ := sameSet_successors_iff hA hD
  read := isEpsilon_of_kind (by simp [kind_of_draft_eq hD])

end

/-! ## Determinizing again -/

theorem isReached_iff_of_draft_eq (hD : D.draft = A.subsetDraft) {s : Value} :
    D.draft.IsReached s ↔ D.states.contains s = true := by
  unfold states
  rw [contains_distinct, hD]
  constructor
  · intro ⟨es, hes⟩
    exact (wellFormed_subsetDraft A).contains_states_of_walk hes (wellFormed_subsetDraft A).initial
  · intro hs
    exact (Draft.contains_live_iff_isReached hs).mp (contains_live_of_subset hs)

/-- Determinizing an automaton without silent edges and without two targets
under any key trims it to its reachable part, and renames each state to a
tuple of it alone. Determinizing again what any determinization gives renames
and no more. -/
theorem determinize_trims (A : Automaton) :
    (A.kind = .dfa → A.IsDeterministic) ∧
    (A.IsDeterministic →
      ∃ D, A.determinize = .ok D ∧ A.IsIsomorphism D A.draft.IsReached fun q => .tuple [q]) ∧
    ∃ D D', A.determinize = .ok D ∧ D.determinize = .ok D' ∧
      D.IsIsomorphism D' (fun s => D.states.contains s = true) fun s => .tuple [s] := by
  obtain ⟨D, hD, hdet, _⟩ := determinize_eq_ok A
  obtain ⟨D', hD', hdet', _⟩ := determinize_eq_ok D
  refine ⟨isDeterministic_of_dfa, ?_, D, D', hdet, hdet', ?_⟩
  · intro hA
    exact ⟨D, hdet, isIsomorphism_tuple hA hD⟩
  · have hiso := isIsomorphism_tuple (isDeterministic_of_dfa (kind_of_draft_eq hD)) hD'
    exact hiso.congr fun _ => isReached_iff_of_draft_eq hD

/-- Not of the deterministic kind, yet deterministic. A final state is
unreachable, and one edge names its states in another way. -/
def spur : Automaton :=
  .ofDraft ⟨.nfa, [.int 0, .int 1, .int 2], [.text "a"], .int 0, [.int 1, .int 2],
    [⟨.int 0, .text "a", .int 1⟩, ⟨.bool false, .text "a", .bool true⟩, ⟨.int 2, .text "a", .int 1⟩]⟩
    (by decide +kernel) (by decide +kernel)

theorem determinize_trims_spur : spur.IsDeterministic ∧ ∃ D, spur.determinize = .ok D ∧
    D.finals.contains (.tuple [.bool true]) = true ∧ D.states.contains (.tuple [.int 2]) = false ∧
    SameSet (D.successors (.tuple [.bool false]) (.text "a")) [.tuple [.int 1]] := by
  have hsingle : ∀ k, ((FiniteAutomata.moves spur.draft.transitions).targets k).length ≤ 1 :=
    Draft.targets_length_le_one_iff.mpr (by decide +kernel)
  have hA : spur.IsDeterministic := ⟨by decide +kernel, fun q a => hsingle (q, a)⟩
  obtain ⟨D, hdet, hD⟩ := (determinize_trims spur).2.1 hA
  have hreached {q : Value} (hq : spur.draft.live.contains q = true) : spur.draft.IsReached q :=
    spur.wellFormed.contains_live_iff_walk.mp hq
  refine ⟨hA, D, hdet, ?_, ?_, ?_⟩
  · exact (hD.finals _).mpr ⟨.int 1, hreached (by decide +kernel), by decide +kernel, by decide +kernel⟩
  · rw [Bool.eq_false_iff]
    intro h
    obtain ⟨q, hq, heq⟩ := (hD.states _).mp h
    have hlive := spur.wellFormed.contains_live_iff_walk.mpr (hq.congr (singleton_beq_iff.mp (tuple_beq_iff.mp heq)))
    revert hlive
    decide +kernel
  · exact (hD.moves _ _ _).mpr ⟨hreached (by decide +kernel), sameMembers_iff.mp (by decide +kernel)⟩

end Automaton

end FiniteAutomata
