import FiniteAutomata.Proofs.Subsets.Reached
import FiniteAutomata.Proofs.WordOrder

/-!
# Routes to subsets

The search for subsets is one for routes, subsets together with the words that
lead to them (`subsets_eq_map`). Routes are found in the order of their words
(`pairwise_routes`), and of all routes to a subset the one with the least word
is found (`exists_route_le`).
-/

namespace FiniteAutomata

structure Route where
  subset : Subset
  word : List Value

/-- What counts is the subset. -/
instance : BEq Route := ⟨fun r s => r.subset == s.subset⟩

theorem route_beq_iff {r s : Route} : (r == s) = true ↔ (r.subset == s.subset) = true := Iff.rfl

instance : EquivBEq Route where
  rfl := route_beq_iff.mpr BEq.rfl
  symm h := route_beq_iff.mpr (BEq.symm (route_beq_iff.mp h))
  trans h h' := route_beq_iff.mpr (BEq.trans (route_beq_iff.mp h) (route_beq_iff.mp h'))

namespace Automaton

variable {A : Automaton}

def extendRoute (A : Automaton) (r : Route) (a : Value) : Option Route :=
  (A.subsetStep? r.subset a).map fun s => ⟨s, r.word ++ [a]⟩

def nextRoutes (A : Automaton) (r : Route) : List Route := A.symbols.filterMap (A.extendRoute r)

def startRoute (A : Automaton) : Route := ⟨A.startSubset, []⟩

def routes (A : Automaton) : List Route := explore A.nextRoutes (listsBound A.labelCount) [A.startRoute]

theorem mem_nextRoutes {r r' : Route} : r' ∈ A.nextRoutes r ↔ ∃ a ∈ A.alphabet, (A.step r.subset a).isEmpty = false ∧
    r' = ⟨canonicalSubset (A.step r.subset a), r.word ++ [a]⟩ := by
  unfold nextRoutes extendRoute
  simp only [subsetStep?_eq, apply_ite (Option.map _), Option.map_none, Option.map_some]
  exact mem_filterMap_symbols

theorem subsets_eq_map (A : Automaton) : A.subsets = A.routes.map Route.subset := by
  have hnext (r : Route) : A.nextSubsets r.subset = (A.nextRoutes r).map Route.subset := by
    unfold nextSubsets nextRoutes
    rw [List.map_filterMap]
    congr 1
    funext a
    unfold extendRoute
    cases A.subsetStep? r.subset a with
    | none => rfl
    | some s => rfl
  exact visit_map (f := Route.subset) (fun _ _ => rfl) hnext _ [A.startRoute] [A.startRoute]

theorem exists_route_of_mem_subsets {s : Subset} (h : s ∈ A.subsets) : ∃ r ∈ A.routes, r.subset = s := by
  rw [subsets_eq_map] at h
  exact List.mem_map.mp h

theorem isDistinct_routes (A : Automaton) : IsDistinct A.routes := isDistinct_explore _ _ _

theorem layered_nextRoutes (A : Automaton) : Layered A.nextRoutes fun r => A.wordRank r.word := by
  refine layered_symbols (fun _ => rfl) fun r a r' h => ?_
  obtain ⟨s, _, rfl⟩ := Option.map_eq_some_iff.mp h
  rfl

theorem pairwise_routes (A : Automaton) : A.routes.Pairwise fun r s => A.Earlier r.word s.word :=
  (pairwise_explore A.layered_nextRoutes _ _).imp earlier_iff.mpr

/-! ## Least routes -/

def routeSupply (A : Automaton) : List Route := (listsUpTo A.stateLabels A.labelCount).map fun s => ⟨s, []⟩

theorem contains_routeSupply {r : Route} (h : A.IsStateSet r.subset) : A.routeSupply.contains r = true :=
  contains_map_listsUpTo h fun _ heq => route_beq_iff.mpr heq

theorem exists_route_le {r : Route} (h : Reaches A.nextRoutes [A.startRoute] r) :
    ∃ r' ∈ A.routes, (r == r') = true ∧ A.wordRank r'.word ≤ A.wordRank r.word := by
  refine exists_explore_le_of_reaches (u := A.routeSupply) A.layered_nextRoutes ?_ ?_ ?_ ?_ h
  · intro r r' hrr hle s hs
    obtain ⟨a, ha, hne, rfl⟩ := mem_nextRoutes.mp hs
    have hstep : A.step r.subset a = A.step r'.subset a := step_congr (route_beq_iff.mp hrr) BEq.rfl
    rw [hstep] at hne ⊢
    exact ⟨_, mem_nextRoutes.mpr ⟨a, ha, hne, rfl⟩, route_beq_iff.mpr BEq.rfl, wordRank_concat_le hle a⟩
  · intro r _ s hs
    obtain ⟨a, _, _, rfl⟩ := mem_nextRoutes.mp hs
    exact contains_routeSupply (isStateSet_step r.subset a).canonicalSubset
  · exact contains_routeSupply isStateSet_initialConfiguration.canonicalSubset
  · unfold routeSupply
    rw [List.length_map]
    exact length_listsUpTo_stateLabels

end Automaton

end FiniteAutomata
