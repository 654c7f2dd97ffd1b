import FiniteAutomata.Proofs.Subsets.Determinized
import Mathlib.Data.List.Forall2

/-!
# What the subset construction finds, and in which order

Walks along the edges of the subset construction are routes, so the words of
the routes found are the least ones that lead to the states
(`isLeastWord_of_mem_routes`), and the states are listed in their order. With
the edges and the final states this describes the whole draft
(`determinize_gives_subsetGraph`).
-/

namespace FiniteAutomata

namespace Automaton

variable {A : Automaton}

/-! ## Routes and walks -/

theorem exists_reaches_of_walk {p q : Value} {es : List Transition} (h : Walk A.subsetDraft.transitions p es q)
    {r : Route} (hr : Reaches A.nextRoutes [A.startRoute] r) (hp : (p == .tuple r.subset) = true) :
    ∃ r', Reaches A.nextRoutes [A.startRoute] r' ∧ (q == .tuple r'.subset) = true ∧
      r'.word = r.word ++ spelled es := by
  induction h generalizing r with
  | stay hpq =>
    rw [spelled_nil, List.append_nil]
    exact ⟨r, hr, BEq.trans (BEq.symm hpq) hp, rfl⟩
  | @go p q t es ht hs _ ih =>
    have he := isEpsilon_of_mem_subsetDraft ht
    obtain ⟨s, _, a, ha, hne, rfl⟩ := mem_subsetDraft_transitions.mp ht
    have hsr : (s == r.subset) = true := tuple_beq_iff.mp (BEq.trans (BEq.symm hs) hp)
    have hstep : A.step s a = A.step r.subset a := step_congr hsr BEq.rfl
    rw [hstep] at hne ih
    have hnext := mem_nextRoutes.mpr ⟨a, ha, hne, rfl⟩
    obtain ⟨r', hr', hq, hword⟩ := ih (hr.step hnext) BEq.rfl
    refine ⟨r', hr', hq, ?_⟩
    rw [hword, spelled_cons_read he, List.append_assoc]; rfl

/-- A word leads to the state, and no earlier one does. -/
structure IsLeastWord (A : Automaton) (d : Draft) (q : Value) (w : List Value) : Prop where
  leads : d.Leads w q
  least : ∀ v, d.Leads v q → ¬ A.Earlier v w

theorem isLeastWord_of_mem_routes {r : Route} (h : r ∈ A.routes) :
    A.IsLeastWord A.subsetDraft (.tuple r.subset) r.word := by
  constructor
  · obtain ⟨_, es, hes, hword⟩ := exists_walk_of_reaches (reaches_of_mem_explore h)
    exact ⟨es, hes, by rw [hword]; exact BEq.rfl⟩
  · intro v ⟨es, hes, hv⟩ hearlier
    obtain ⟨r', hr', hq, hword⟩ := exists_reaches_of_walk hes (.start (List.mem_singleton.mpr rfl)) BEq.rfl
    obtain ⟨r'', hr'', hrr, hle⟩ := exists_route_le hr'
    have heq : r'' = r := by
      refine A.isDistinct_routes.eq_of_beq hr'' h (BEq.symm (BEq.trans ?_ hrr))
      exact route_beq_iff.mpr (tuple_beq_iff.mp hq)
    have hrank : A.wordRank r'.word = A.wordRank v := by
      rw [hword]
      exact wordRank_congr hv
    rw [heq, hrank] at hle
    exact absurd (earlier_iff.mp hearlier) (not_lt_of_ge hle)

/-! ## Edges -/

theorem isDistinct_transitions (A : Automaton) : IsDistinct A.subsetDraft.transitions := by
  have happart {t u : Transition} (h : (t.source == u.source) = false ∨ (t.symbol == u.symbol) = false) :
      (t == u) = false := by
    rw [Bool.eq_false_iff]
    intro heq
    obtain ⟨hsource, hsymbol, _⟩ := Transition.beq_iff.mp heq
    rw [hsource, hsymbol] at h
    simp at h
  have hedge {s : Subset} {t : Transition} (ht : t ∈ A.subsetEdges s) : t.source = .tuple s := by
    obtain ⟨a, _, ha⟩ := List.mem_filterMap.mp ht
    obtain ⟨s', _, rfl⟩ := Option.map_eq_some_iff.mp ha
    rfl
  refine List.pairwise_flatMap.mpr ⟨fun s _ => ?_, (isDistinct_explore _ _ _).imp fun hne t ht u hu => ?_⟩
  · refine List.pairwise_filterMap.mpr (A.isDistinct_symbols.imp fun hab t ht u hu => ?_)
    obtain ⟨_, _, rfl⟩ := Option.map_eq_some_iff.mp ht
    obtain ⟨_, _, rfl⟩ := Option.map_eq_some_iff.mp hu
    exact happart (.inr hab)
  · refine happart (.inl ?_)
    rw [hedge ht, hedge hu, Bool.eq_false_iff]
    intro heq
    rw [tuple_beq_iff.mp heq] at hne
    cases hne

end Automaton

def Draft.edgesOn (d : Draft) (q a : Value) : List Transition :=
  d.transitions.filter fun t => t.source == q && t.symbol == a

namespace Automaton

variable {A : Automaton}

theorem mem_edgesOn {d : Draft} {q a : Value} {t : Transition} :
    t ∈ d.edgesOn q a ↔ t ∈ d.transitions ∧ (t.source == q) = true ∧ (t.symbol == a) = true := by
  unfold Draft.edgesOn
  rw [List.mem_filter, Bool.and_eq_true]

theorem length_edgesOn {s : Subset} (hs : A.subsets.contains s = true) (a : Value) :
    (A.subsetDraft.edgesOn (.tuple s) a).length = if (A.step s a).isEmpty then 0 else 1 := by
  have hle : (A.subsetDraft.edgesOn (.tuple s) a).length ≤ 1 := by
    refine IsDistinct.length_le_one (A.isDistinct_transitions.filter _) fun t ht u hu => ?_
    obtain ⟨ht, hts, hta⟩ := mem_edgesOn.mp ht
    obtain ⟨hu, hus, hua⟩ := mem_edgesOn.mp hu
    refine Transition.beq_iff.mpr ⟨BEq.trans hts (BEq.symm hus), BEq.trans hta (BEq.symm hua), ?_⟩
    rw [(target_of_edge ht hts hta).2, (target_of_edge hu hus hua).2]
    exact BEq.rfl
  by_cases hd : (A.step s a).isEmpty = true
  · rw [if_pos hd, List.length_eq_zero_iff, List.eq_nil_iff_forall_not_mem]
    intro t ht
    obtain ⟨ht, hts, hta⟩ := mem_edgesOn.mp ht
    have hlive := (target_of_edge ht hts hta).1
    rw [hd] at hlive
    cases hlive
  · rw [if_neg hd]
    rw [Bool.not_eq_true] at hd
    obtain ⟨t, ht, hts, hta, _⟩ := exists_edge hs hd
    exact Nat.le_antisymm hle (List.length_pos_of_mem (mem_edgesOn.mpr ⟨ht, hts, hta⟩))

/-! ## The whole draft -/

/-- The states of the draft are tuples, each for a configuration that is
reached; edges and final states are those of the configurations; the states
are listed by the words that lead to them. -/
structure IsSubsetGraph (A : Automaton) (d : Draft) : Prop where
  initial : ∃ s, d.initial = .tuple s ∧ SameSet s A.initialConfiguration
  reached : ∀ q ∈ d.states, ∃ s w, q = .tuple s ∧ A.IsOverAlphabet w ∧ (A.configuration w).isEmpty = false ∧
    SameSet s (A.configuration w)
  complete : ∀ w, A.IsOverAlphabet w → (A.configuration w).isEmpty = false →
    ∃ s, .tuple s ∈ d.states ∧ SameSet s (A.configuration w)
  edges : ∀ s, .tuple s ∈ d.states → ∀ a, (d.edgesOn (.tuple s) a).length = if (A.step s a).isEmpty then 0 else 1
  target : ∀ s a, ∀ t ∈ d.edgesOn (.tuple s) a, d.states.contains t.target = true ∧
    ∃ s', t.target = .tuple s' ∧ SameSet s' (A.step s a)
  finals : ∀ s, .tuple s ∈ d.states → d.finals.contains (.tuple s) = meets s A.finals
  distinct : IsDistinct d.states
  order : ∃ ws, List.Forall₂ (A.IsLeastWord d) d.states ws ∧ ws.Pairwise A.Earlier

theorem mem_subsets_of_mem_states {s : Subset} (h : .tuple s ∈ A.subsetDraft.states) : s ∈ A.subsets := by
  obtain ⟨s', hs', heq⟩ := List.mem_map.mp h
  rw [← Value.tuple.inj heq]
  exact hs'

theorem isSubsetGraph_subsetDraft (A : Automaton) : A.IsSubsetGraph A.subsetDraft where
  initial := ⟨A.startSubset, rfl, sameSet_canonicalSubset _⟩
  reached := by
    intro q hq
    obtain ⟨s, hs, rfl⟩ := List.mem_map.mp hq
    obtain ⟨w, hw⟩ := exists_word_of_mem_subsets hs
    exact ⟨s, w, rfl, hw⟩
  complete := by
    intro w _ hne
    obtain ⟨s, hs, hsame⟩ := exists_subset_of_configuration hne
    exact ⟨s, List.mem_map_of_mem hs, hsame⟩
  edges := fun s hs => length_edgesOn (contains_of_mem (mem_subsets_of_mem_states hs))
  target := by
    intro s a t ht
    obtain ⟨ht, hts, hta⟩ := mem_edgesOn.mp ht
    exact ⟨(wellFormed_subsetDraft A).target t ht, _, (target_of_edge ht hts hta).2, sameSet_canonicalSubset _⟩
  finals := fun s hs => contains_finals_subsetDraft (contains_of_mem (mem_subsets_of_mem_states hs))
  distinct := by
    refine List.pairwise_map.mpr ((isDistinct_explore _ _ _).imp fun hne => ?_)
    rw [Bool.eq_false_iff] at hne ⊢
    exact fun heq => hne (tuple_beq_iff.mp heq)
  order := by
    refine ⟨A.routes.map Route.word, ?_, List.pairwise_map.mpr A.pairwise_routes⟩
    show List.Forall₂ _ (A.subsets.map Value.tuple) _
    rw [subsets_eq_map, List.map_map, List.forall₂_map_left_iff, List.forall₂_map_right_iff, List.forall₂_same]
    exact fun r hr => isLeastWord_of_mem_routes hr

/-- The subset construction gives the graph of the configurations that are
reached, in the order of the words that lead to them. -/
theorem determinize_gives_subsetGraph (A : Automaton) :
    ∃ D : Automaton, A.determinize = .ok D ∧ D.draft = A.subsetDraft ∧ A.IsSubsetGraph D.draft := by
  obtain ⟨D, hD, hdet, _⟩ := A.determinize_eq_ok
  refine ⟨D, hdet, hD, ?_⟩
  rw [hD]
  exact isSubsetGraph_subsetDraft A

end Automaton

end FiniteAutomata
