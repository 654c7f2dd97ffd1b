import FiniteAutomata.Proofs.Relisted.Tables
import FiniteAutomata.Proofs.Search

/-!
# Tables and searches of any edge list

The two tables of an edge list share its edges between them: under each key
stand the targets of the edges that have it (`Rows.tabulates_extendAll`), and
read back as edges the tables give the silent edges and all others
(`Rows.Tabulates.contains_edges`). A search along their common adjacency ends
and finds what walks along the edges lead to, whatever label it starts from
and however the neighbours are listed (`edge_lists_are_traversed_faithfully`).
Nothing here asks for a sound draft.
-/

namespace FiniteAutomata

theorem Transition.beq_iff_key {t u : Transition} :
    (t == u) = true ↔ (t.key == u.key) = true ∧ (t.target == u.target) = true := by
  rw [beq_iff, key_beq, Bool.and_eq_true, and_assoc]

namespace Rows

variable {κ : Type} [BEq κ] {rows : Rows κ} {key : Transition → κ} {ts : List Transition}

/-- There is a row for each key, in the order of their first edges, and it
holds the targets of the edges with that key. -/
structure Tabulates (rows : Rows κ) (key : Transition → κ) (ts : List Transition) : Prop where
  keys : rows.map Prod.fst = distinct (ts.map key)
  filled : ∀ row ∈ rows, row.2.isEmpty = false
  targets : ∀ row ∈ rows, IsDistinct row.2 ∧
    ∀ r, row.2.contains r = true ↔ ∃ t ∈ ts, (key t == row.1) = true ∧ (t.target == r) = true

theorem tabulates_extendAll [EquivBEq κ] (key : Transition → κ) (ts : List Transition) :
    (extendAll key (fun t => [t.target]) [] ts).Tabulates key ts where
  keys := map_fst_extendAll key _ [] ts
  filled := isEmpty_of_mem_extendAll (fun _ _ => rfl) (List.forall_mem_nil _)
  targets := by
    intro row hrow
    have hrows : (extendAll key (fun t => [t.target]) [] ts).OneRowPerKey := OneRowPerKey.nil.extendAll _ _ _
    rw [← targets_eq_of_mem hrows hrow]
    refine ⟨isDistinct_targets_extendAll isDistinct_targets_nil ts row.1, fun r => ?_⟩
    rw [contains_targets_extendAll]
    simp [targets_nil, BEq.comm (a := r)]

/-! ## The edges of a table -/

/-- The edges that rows stand for, where every key stands for a source and a
symbol. -/
def edges (ends : κ → Value × Value) (rows : Rows κ) : List Transition :=
  rows.flatMap fun row => row.2.map (Transition.mk (ends row.1).1 (ends row.1).2)

variable {ends : κ → Value × Value}

omit [BEq κ] in
theorem contains_edges_iff {t : Transition} : (edges ends rows).contains t = true ↔
    ∃ row ∈ rows, (ends row.1 == t.key) = true ∧ row.2.contains t.target = true := by
  rw [List.contains_iff_exists_mem_beq]
  constructor
  · intro ⟨u, hu, htu⟩
    obtain ⟨row, hrow, hu⟩ := List.mem_flatMap.mp hu
    obtain ⟨r, hr, rfl⟩ := List.mem_map.mp hu
    obtain ⟨hkey, htarget⟩ := Transition.beq_iff_key.mp htu
    exact ⟨row, hrow, BEq.symm hkey, List.contains_iff_exists_mem_beq.mpr ⟨r, hr, htarget⟩⟩
  · intro ⟨row, hrow, hkey, htarget⟩
    obtain ⟨r, hr, htr⟩ := List.contains_iff_exists_mem_beq.mp htarget
    refine ⟨_, List.mem_flatMap.mpr ⟨row, hrow, List.mem_map_of_mem hr⟩, ?_⟩
    exact Transition.beq_iff_key.mpr ⟨BEq.symm hkey, htr⟩

/-- Read back as edges, a table gives the edges that it was made of. -/
theorem Tabulates.contains_edges [EquivBEq κ] (h : rows.Tabulates key ts)
    (hends : ∀ k k', (k == k') = true → (ends k == ends k') = true) (hkey : ∀ t ∈ ts, (ends (key t) == t.key) = true)
    (t : Transition) : (edges ends rows).contains t = ts.contains t := by
  rw [Bool.eq_iff_iff, contains_edges_iff, List.contains_iff_exists_mem_beq]
  constructor
  · intro ⟨row, hrow, ht, htarget⟩
    obtain ⟨u, hu, hrow', hu'⟩ := ((h.targets row hrow).2 _).mp htarget
    have hut : (u.key == t.key) = true := BEq.trans (BEq.symm (hkey u hu)) (BEq.trans (hends _ _ hrow') ht)
    exact ⟨u, hu, BEq.symm (Transition.beq_iff_key.mpr ⟨hut, hu'⟩)⟩
  · intro ⟨u, hu, htu⟩
    obtain ⟨hkeys, htargets⟩ := Transition.beq_iff_key.mp htu
    have hfound : (rows.map Prod.fst).contains (key u) = true := by
      rw [h.keys, contains_distinct]
      exact contains_of_mem (List.mem_map_of_mem hu)
    obtain ⟨k, hk, huk⟩ := List.contains_iff_exists_mem_beq.mp hfound
    obtain ⟨row, hrow, rfl⟩ := List.mem_map.mp hk
    refine ⟨row, hrow, ?_, ((h.targets row hrow).2 _).mpr ⟨u, hu, huk, BEq.symm htargets⟩⟩
    exact BEq.trans (BEq.symm (hends _ _ huk)) (BEq.trans (hkey u hu) (BEq.symm hkeys))

end Rows

/-! ## Both tables -/

def silentEnds (q : Value) : Value × Value := (q, epsilon)

section
variable (ts : List Transition)

theorem tabulates_moves : (moves ts).Tabulates Transition.key (ts.filter fun t => !t.isEpsilon) :=
  Rows.tabulates_extendAll _ _

theorem tabulates_silentMoves : (silentMoves ts).Tabulates Transition.source (ts.filter Transition.isEpsilon) :=
  Rows.tabulates_extendAll _ _

theorem contains_edges_moves (t : Transition) :
    ((moves ts).edges id).contains t = (ts.contains t && !t.isEpsilon) := by
  have hends : ∀ k k' : Value × Value, (k == k') = true → (id k == id k') = true := fun _ _ h => h
  rw [(tabulates_moves ts).contains_edges hends fun _ _ => BEq.rfl, Bool.eq_iff_iff, Bool.and_eq_true]
  exact contains_filter_iff fun _ _ h => by rw [Transition.isEpsilon_congr h]

theorem contains_edges_silentMoves (t : Transition) :
    ((silentMoves ts).edges silentEnds).contains t = (ts.contains t && t.isEpsilon) := by
  have hends : ∀ u ∈ ts.filter Transition.isEpsilon, (silentEnds u.source == u.key) = true := fun u hu =>
    prod_beq_iff.mpr ⟨BEq.rfl, BEq.symm (List.mem_filter.mp hu).2⟩
  rw [(tabulates_silentMoves ts).contains_edges (fun _ _ h => prod_beq_iff.mpr ⟨h, BEq.rfl⟩) hends, Bool.eq_iff_iff,
    Bool.and_eq_true]
  exact contains_filter_iff fun _ _ => Transition.isEpsilon_congr

variable {ts}

theorem tablesOf_eq_ok (h : ∀ t ∈ ts, t.source.isHashable = true ∧ t.symbol.isHashable = true ∧
    t.target.isHashable = true) : tablesOf ts = .ok (moves ts, silentMoves ts) := by
  have hashed : ∀ v ∈ ts.flatMap Transition.hashed, v.isHashable = true := by
    intro v hv
    obtain ⟨t, ht, hv⟩ := List.mem_flatMap.mp hv
    obtain ⟨hsource, hsymbol, htarget⟩ := h t ht
    rcases Transition.mem_hashed hv with rfl | rfl | rfl
    · exact hsource
    · exact hsymbol
    · exact htarget
  unfold tablesOf
  rw [checkHashes_eq_ok_iff.mpr hashed]; rfl

end

/-! ## Searches -/

/-- The loop ends, and what it has seen then is what was found. -/
theorem dequeues_reachable (adjacent : Rows Value) (s : Value) :
    Dequeues adjacent.targets (fun _ => false) [s] [s] (reachable adjacent s) (reachable adjacent s) := by
  have hs : ([s] ++ adjacent.allTargets).contains s = true := contains_of_mem List.mem_cons_self
  exact dequeues_explore_singleton (fun _ _ _ => contains_append_allTargets [s]) hs (Nat.le_of_eq List.length_append)

theorem reachableOf_eq_ok {s : Value} (hs : s.isHashable = true) (adjacent : Rows Value) :
    reachableOf adjacent s = .ok (reachable adjacent s) := by
  unfold reachableOf
  rw [Value.checkHash_eq_ok hs]; rfl

theorem contains_reachable_iff_walk {ts : List Transition} {adjacent : Rows Value}
    (h : ∀ q, SameSet (adjacent.targets q) ((adjacency (moves ts) (silentMoves ts)).targets q)) {s q : Value} :
    (reachable adjacent s).contains q = true ↔ ∃ es, Walk ts s es q := by
  rw [← contains_reachableBy_iff_walk]
  have hleads : adjacent.Leads = (adjacency (moves ts) (silentMoves ts)).Leads := by
    funext p r
    exact propext ((h p).iff r)
  unfold reachableBy reachable
  rw [contains_closure_iff, contains_closure_iff, hleads]

/-- From an edge list whose labels can be members of sets both tables can be
made. They tabulate its edges, every silent one in one table and every other
one in the other, and read back as edges they give the list. A search along
adjacent labels, however these are listed, ends for every start and finds what
walks along the edges lead to. So the order and the repetition of the edges do
not count for it. -/
theorem edge_lists_are_traversed_faithfully (ts : List Transition)
    (h : ∀ t ∈ ts, t.source.isHashable = true ∧ t.symbol.isHashable = true ∧ t.target.isHashable = true) :
    ∃ moved silent, tablesOf ts = .ok (moved, silent) ∧
      moved.Tabulates Transition.key (ts.filter fun t => !t.isEpsilon) ∧
      silent.Tabulates Transition.source (ts.filter Transition.isEpsilon) ∧
      (∀ t, (moved.edges id).contains t = (ts.contains t && !t.isEpsilon) ∧
        (silent.edges silentEnds).contains t = (ts.contains t && t.isEpsilon)) ∧
      (∀ adjacent : Rows Value, (∀ q, SameSet (adjacent.targets q) ((adjacency moved silent).targets q)) →
        ∀ s, s.isHashable = true → ∃ found, reachableOf adjacent s = .ok found ∧
          Dequeues adjacent.targets (fun _ => false) [s] [s] found found ∧ IsDistinct found ∧
          ∀ q, found.contains q = true ↔ ∃ es, Walk ts s es q) ∧
      ∀ us s s', SameSet ts us → (s == s') = true →
        SameSet (reachable (adjacency moved silent) s) (reachableBy us s') := by
  refine ⟨moves ts, silentMoves ts, tablesOf_eq_ok h, tabulates_moves ts, tabulates_silentMoves ts, ?_, ?_, ?_⟩
  · exact fun t => ⟨contains_edges_moves ts t, contains_edges_silentMoves ts t⟩
  · intro adjacent hadjacent s hs
    exact ⟨_, reachableOf_eq_ok hs adjacent, dequeues_reachable adjacent s, isDistinct_explore _ _ _,
      fun _ => contains_reachable_iff_walk hadjacent⟩
  · exact fun us s s' hsame hstart => sameSet_reachableBy hsame hstart

/-- A cycle in which one state is named in two ways, an edge listed twice, and
an island. -/
def entwined : List Transition :=
  [⟨.int 0, .text "a", .int 1⟩, ⟨.bool true, epsilon, .int 2⟩, ⟨.int 2, .text "a", .bool false⟩,
    ⟨.int 0, .text "a", .int 1⟩, ⟨.int 5, .text "b", .int 5⟩]

theorem edge_lists_are_traversed_faithfully_entwined :
    (∀ t ∈ entwined, t.source.isHashable = true ∧ t.symbol.isHashable = true ∧ t.target.isHashable = true) ∧
    (∃ es, Walk entwined (.int 2) es (.int 1)) ∧ (∀ q es, Walk entwined (.int 7) es q → (q == .int 7) = true) ∧
    SameSet entwined entwined.reverse ∧
    SameSet (reachableBy entwined (.int 1)) (reachableBy entwined.reverse (.bool true)) := by
  have h : ∀ t ∈ entwined, t.source.isHashable = true ∧ t.symbol.isHashable = true ∧ t.target.isHashable = true := by
    decide +kernel
  have hturned : SameSet entwined entwined.reverse := sameMembers_iff.mp (by decide +kernel)
  obtain ⟨moved, silent, htables, -, -, -, hsearch, hsets⟩ := edge_lists_are_traversed_faithfully entwined h
  rw [tablesOf_eq_ok h] at htables
  cases htables
  have hfound := hsearch _ fun _ => SameSet.refl _
  refine ⟨h, ?_, ?_, hturned, hsets _ _ _ hturned (by decide +kernel)⟩
  · obtain ⟨found, hok, -, -, hwalks⟩ := hfound (.int 2) rfl
    cases hok
    exact (hwalks _).mp (by decide +kernel)
  · intro q es hwalk
    obtain ⟨found, hok, -, -, hwalks⟩ := hfound (.int 7) rfl
    cases hok
    have hq := (hwalks q).mpr ⟨es, hwalk⟩
    rw [show reachable _ (.int 7) = [.int 7] by rfl] at hq
    simpa using hq

end FiniteAutomata
