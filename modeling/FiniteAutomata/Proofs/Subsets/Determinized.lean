import FiniteAutomata.Proofs.Liveness
import FiniteAutomata.Proofs.Subsets.Routes

/-!
# The draft of the subset construction

Its states are the subsets found, its edges lead from each of them to the next
one, and every check of such a draft succeeds. All its states are live, so the
one thing that can be told about it is that nothing is accepted
(`determinize_never_fails`).
-/

namespace FiniteAutomata

namespace Draft

variable {d : Draft}

/-- Where every declared state is live, only the absence of final states is
told. -/
theorem WellFormed.findings_of_all_live (h : d.WellFormed)
    (hlive : ∀ q, d.states.contains q = true → d.live.contains q = true) (strict : Bool) :
    d.findings strict = if d.finals.isEmpty then
      [finding .noFinalStateReachable (reachSeverity strict) d.nothingAccepted .finals .null .null] else [] := by
  rw [h.findings_eq]
  have hstates : d.unreachableStates d.live strict = [] := by
    unfold unreachableStates
    rw [List.filterMap_eq_nil_iff]
    intro p hp
    have := hlive p.1 (contains_of_mem (List.fst_mem_of_mem_zipIdx hp))
    simp only [this, Bool.true_or, if_true]
  have hfinals {q : Value} (hq : q ∈ d.finals) : d.live.contains q = true := hlive q (h.finals q hq)
  rw [hstates, List.nil_append]
  unfold unreachableFinals
  cases hf : d.finals with
  | nil => rfl
  | cons q qs =>
    have hm : meets d.finals d.live = true := by
      rw [meets_iff]
      exact ⟨q, by rw [hf]; exact List.mem_cons_self, hfinals (by rw [hf]; exact List.mem_cons_self)⟩
    rw [← hf, if_pos hm, hf, List.isEmpty_cons, ← hf, List.filterMap_eq_nil_iff.mpr]
    · rfl
    · intro p hp
      have := hfinals (List.fst_mem_of_mem_zipIdx hp)
      simp only [this, Bool.true_or, if_true]

end Draft

namespace Automaton

variable {A : Automaton}

theorem contains_map_tuple {ss : List Subset} {s : Subset} :
    (ss.map Value.tuple).contains (.tuple s) = ss.contains s :=
  contains_map_of_beq (fun _ _ => Bool.eq_iff_iff.mpr tuple_beq_iff) ss s

/-! ## Edges -/

theorem mem_subsetDraft_transitions {t : Transition} : t ∈ A.subsetDraft.transitions ↔
    ∃ s ∈ A.subsets, ∃ a ∈ A.alphabet, (A.step s a).isEmpty = false ∧
      t = ⟨.tuple s, a, .tuple (canonicalSubset (A.step s a))⟩ := by
  show t ∈ A.subsets.flatMap A.subsetEdges ↔ _
  rw [List.mem_flatMap]
  apply exists_congr; intro s
  apply and_congr_right; intro _
  unfold subsetEdges
  simp only [subsetStep?_eq, apply_ite (Option.map _), Option.map_none, Option.map_some]
  exact mem_filterMap_symbols

theorem exists_edge {s : Subset} {a : Value} (hs : A.subsets.contains s = true)
    (hne : (A.step s a).isEmpty = false) : ∃ t ∈ A.subsetDraft.transitions,
      (t.source == .tuple s) = true ∧ (t.symbol == a) = true ∧ t.target = .tuple (canonicalSubset (A.step s a)) := by
  obtain ⟨s', hs', heq⟩ := List.contains_iff_exists_mem_beq.mp hs
  obtain ⟨a', ha', haa⟩ := List.contains_iff_exists_mem_beq.mp (contains_alphabet_of_step hne)
  have hstep : A.step s' a' = A.step s a := step_congr (BEq.symm heq) (BEq.symm haa)
  refine ⟨_, mem_subsetDraft_transitions.mpr ⟨s', hs', a', ha', by rw [hstep]; exact hne, rfl⟩, ?_, BEq.symm haa, ?_⟩
  · exact tuple_beq_iff.mpr (BEq.symm heq)
  · rw [hstep]

theorem target_of_edge {t : Transition} (ht : t ∈ A.subsetDraft.transitions) {s : Subset} {a : Value}
    (hs : (t.source == .tuple s) = true) (ha : (t.symbol == a) = true) :
    (A.step s a).isEmpty = false ∧ t.target = .tuple (canonicalSubset (A.step s a)) := by
  obtain ⟨s', _, a', _, hne, rfl⟩ := mem_subsetDraft_transitions.mp ht
  have hstep : A.step s' a' = A.step s a := step_congr (tuple_beq_iff.mp hs) ha
  rw [← hstep]
  exact ⟨hne, rfl⟩

/-! ## Checks -/

theorem contains_symbols {a : Value} : A.symbols.contains a = A.draft.alphabet.contains a := by
  unfold symbols alphabet
  rw [sameSet_canonicalOrder, contains_distinct]

theorem wellFormed_subsetDraft (A : Automaton) : A.subsetDraft.WellFormed where
  reserved := by
    show A.symbols.contains epsilon = false
    rw [contains_symbols]
    exact A.wellFormed.reserved
  initial := by
    show (A.subsets.map Value.tuple).contains (.tuple A.startSubset) = true
    rw [contains_map_tuple]
    exact subsets_closed.1
  finals := by
    intro q hq
    obtain ⟨s, hs, rfl⟩ := List.mem_map.mp hq
    exact contains_of_mem (List.mem_map_of_mem (List.mem_filter.mp hs).1)
  source := by
    intro t ht
    obtain ⟨s, hs, a, _, _, rfl⟩ := mem_subsetDraft_transitions.mp ht
    exact contains_of_mem (List.mem_map_of_mem hs)
  target := by
    intro t ht
    obtain ⟨s, hs, a, _, hne, rfl⟩ := mem_subsetDraft_transitions.mp ht
    show (A.subsets.map Value.tuple).contains _ = true
    rw [contains_map_tuple]
    exact contains_subsets_step (contains_of_mem hs) hne
  symbol := by
    intro t ht
    obtain ⟨s, _, a, ha, _, rfl⟩ := mem_subsetDraft_transitions.mp ht
    have hc : A.draft.alphabet.contains a = true := contains_of_mem (mem_of_mem_distinct ha)
    -- the symbol is from the alphabet, which does not hold the marker
    have he : (a == epsilon) = false := by
      rw [Bool.eq_false_iff]
      intro heq
      have := contains_of_beq hc heq
      rw [A.wellFormed.reserved] at this
      cases this
    show if (a == epsilon) = true then _ else A.symbols.contains a = true
    rw [he, contains_symbols]
    exact hc
  deterministic := by
    intro _ t ht u hu hs ha
    obtain ⟨s, _, a, _, _, rfl⟩ := mem_subsetDraft_transitions.mp hu
    rw [(target_of_edge ht hs ha).2]
    exact BEq.rfl

theorem isEpsilon_of_mem_subsetDraft {t : Transition} (ht : t ∈ A.subsetDraft.transitions) : t.isEpsilon = false :=
  ((wellFormed_subsetDraft A).symbol t ht).isEpsilon_eq_false (by simp [subsetDraft])

theorem contains_finals_subsetDraft {s : Subset} (hs : A.subsets.contains s = true) :
    A.subsetDraft.finals.contains (.tuple s) = meets s A.finals := by
  have hcongr (x y : Subset) (h : (x == y) = true) : meets x A.finals = meets y A.finals :=
    (sameSet_of_beq h).meets_eq
  show ((A.subsets.filter (meets · A.finals)).map Value.tuple).contains (.tuple s) = meets s A.finals
  rw [contains_map_tuple, Bool.eq_iff_iff, contains_filter_iff hcongr]
  simp [hs]

theorem isHashable_subsetDraft (A : Automaton) : A.subsetDraft.isHashable = true := by
  have htuple {s : Subset} (hs : A.IsStateSet s) : (Value.tuple s).isHashable = true :=
    isHashable_tuple_iff.mpr hs.isHashable
  have hstate {q : Value} (hq : q ∈ A.subsets.map Value.tuple) : q.isHashable = true := by
    obtain ⟨s, hs, rfl⟩ := List.mem_map.mp hq
    exact htuple (isStateSet_of_mem_subsets hs)
  have hsymbol {a : Value} (ha : a ∈ A.alphabet) : a.isHashable = true :=
    IsOverAlphabet.isHashable (w := [a]) (by simpa [IsOverAlphabet] using ha) a List.mem_cons_self
  unfold Draft.isHashable Draft.labels
  rw [List.all_eq_true]
  intro v hv
  simp only [List.mem_append, List.mem_cons, List.mem_flatMap] at hv
  rcases hv with ((hv | hv) | rfl | hv) | ⟨t, ht, hv⟩
  · exact hstate hv
  · exact hsymbol (mem_canonicalOrder.mp hv)
  · exact htuple isStateSet_initialConfiguration.canonicalSubset
  · obtain ⟨s, hs, rfl⟩ := List.mem_map.mp hv
    exact htuple (isStateSet_of_mem_subsets (List.mem_filter.mp hs).1)
  · obtain ⟨s, hs, a, ha, _, rfl⟩ := mem_subsetDraft_transitions.mp ht
    rcases hv with rfl | rfl | rfl | hv
    · exact htuple (isStateSet_of_mem_subsets hs)
    · exact hsymbol ha
    · exact htuple (isStateSet_step s a).canonicalSubset
    · cases hv

theorem determinize_eq_ok (A : Automaton) : ∃ D : Automaton, D.draft = A.subsetDraft ∧ A.determinize = .ok D ∧
    A.subsetDraft.validate false false = .ok ⟨D.issues, [], some D⟩ := by
  obtain ⟨D, hD, hv⟩ := Draft.validate_of_isSound (isHashable_subsetDraft A)
    (Draft.isSound_iff_wellFormed.mpr (wellFormed_subsetDraft A))
  refine ⟨D, hD, ?_, hv⟩
  unfold determinize
  rw [hv]; rfl

/-! ## Reachability -/

theorem exists_walk_of_reaches {r : Route} (h : Reaches A.nextRoutes [A.startRoute] r) :
    A.subsets.contains r.subset = true ∧
      ∃ es, Walk A.subsetDraft.transitions (.tuple A.startSubset) es (.tuple r.subset) ∧ spelled es = r.word := by
  induction h with
  | start hr =>
    rw [List.mem_singleton.mp hr]
    exact ⟨subsets_closed.1, [], .stay BEq.rfl, rfl⟩
  | @step r r' _ hr' ih =>
    obtain ⟨hr, es, hes, hword⟩ := ih
    obtain ⟨a, ha, hne, rfl⟩ := mem_nextRoutes.mp hr'
    obtain ⟨s, hs, hrs⟩ := List.contains_iff_exists_mem_beq.mp hr
    have hstep : A.step r.subset a = A.step s a := step_congr hrs BEq.rfl
    refine ⟨contains_subsets_step hr hne, ?_⟩
    rw [hstep] at hne ⊢
    have ht := mem_subsetDraft_transitions.mpr ⟨s, hs, a, ha, hne, rfl⟩
    refine ⟨_, hes.append (.single ht (tuple_beq_iff.mpr hrs) BEq.rfl), ?_⟩
    rw [spelled_append, spelled_cons_read (isEpsilon_of_mem_subsetDraft ht), hword, spelled_nil]

theorem contains_live_of_subset {q : Value} (hq : A.subsetDraft.states.contains q = true) :
    A.subsetDraft.live.contains q = true := by
  obtain ⟨q', hq', heq⟩ := List.contains_iff_exists_mem_beq.mp hq
  obtain ⟨s, hs, rfl⟩ := List.mem_map.mp hq'
  obtain ⟨r, hr, rfl⟩ := exists_route_of_mem_subsets hs
  obtain ⟨_, es, hes, _⟩ := exists_walk_of_reaches (reaches_of_mem_explore hr)
  exact (wellFormed_subsetDraft A).contains_live_iff_walk.mpr ⟨es, hes.congr_right (BEq.symm heq)⟩

theorem findings_subsetDraft (A : Automaton) (strict : Bool) : A.subsetDraft.findings strict =
    if A.subsetDraft.finals.isEmpty then [Draft.finding .noFinalStateReachable (Draft.reachSeverity strict)
      A.subsetDraft.nothingAccepted .finals .null .null] else [] :=
  (wellFormed_subsetDraft A).findings_of_all_live (fun _ => contains_live_of_subset) strict

theorem isEmpty_finals_subsetDraft_iff : A.subsetDraft.finals.isEmpty = true ↔ ∀ w, ¬ A.Accepts w := by
  rw [← not_exists, ← exists_meets_subset_iff, List.isEmpty_iff]
  show (A.subsets.filter (meets · A.finals)).map Value.tuple = [] ↔ _
  simp

/-- The draft of the subset construction always validates, as an automaton of
the deterministic kind. Nothing is told about it, or that no final state is
reachable and no more: the latter exactly when no word is accepted. -/
theorem determinize_never_fails (A : Automaton) :
    ∃ D : Automaton, A.determinize = .ok D ∧ D.draft = A.subsetDraft ∧
      A.subsetDraft.validate false false = .ok ⟨D.issues, [], some D⟩ ∧ D.kind = .dfa ∧
      (D.issues = [] ∨ ∃ i, D.issues = [i] ∧ i.code = .noFinalStateReachable ∧ i.severity = .warning) ∧
      ((∃ i ∈ D.issues, i.code = .noFinalStateReachable) ↔ ∀ w, ¬ A.Accepts w) := by
  obtain ⟨D, hD, hdet, hv⟩ := determinize_eq_ok A
  have hissues : D.issues = (A.subsetDraft.findings false).map (Issue.about D.id) := by
    rw [← hD]; rfl
  refine ⟨D, hdet, hD, hv, ?_, ?_⟩
  · unfold kind
    rw [hD]; rfl
  · rw [hissues, findings_subsetDraft, ← isEmpty_finals_subsetDraft_iff]
    by_cases he : A.subsetDraft.finals.isEmpty = true
    · rw [if_pos he]
      refine ⟨Or.inr ⟨_, rfl, rfl, rfl⟩, ?_⟩
      simp [he, Issue.about, Draft.finding]
    · rw [if_neg he]
      refine ⟨Or.inl rfl, ?_⟩
      simp [he]

end Automaton

end FiniteAutomata
