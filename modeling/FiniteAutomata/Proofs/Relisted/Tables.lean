import FiniteAutomata.Proofs.Walk

/-!
# The tables of relisted edges

Both tables of an edge list are maps from keys to sets that depend on the set
of edges alone (`sameTable_moves`, `sameTable_silentMoves`), and so does what
can be reached along the edges (`sameSet_reachableBy`).
-/

namespace FiniteAutomata

/-! ## Tables as maps -/

namespace Rows

variable {κ : Type} [BEq κ] {rows rows' : Rows κ}

/-- Equal as maps from keys to sets. -/
structure SameTable (rows rows' : Rows κ) : Prop where
  oneRowPerKey : rows.OneRowPerKey ∧ rows'.OneRowPerKey
  keys : SameSet (rows.map Prod.fst) (rows'.map Prod.fst)
  targets : ∀ k, SameSet (rows.targets k) (rows'.targets k)

def keysWhere (p : List Value → Bool) (rows : Rows κ) : List κ := (rows.filter fun row => p row.2).map Prod.fst

theorem OneRowPerKey.keysWhere (h : rows.OneRowPerKey) (p : List Value → Bool) : IsDistinct (keysWhere p rows) :=
  h.sublist (List.filter_sublist.map Prod.fst)

variable [EquivBEq κ]

theorem contains_keysWhere_iff (h : rows.OneRowPerKey) {p : List Value → Bool} (hp : p [] = false) {k : κ} :
    (keysWhere p rows).contains k = true ↔ p (rows.targets k) = true := by
  constructor
  · intro hk
    obtain ⟨k', hk', heq⟩ := List.contains_iff_exists_mem_beq.mp hk
    obtain ⟨row, hrow, rfl⟩ := List.mem_map.mp hk'
    obtain ⟨hrow, htargets⟩ := List.mem_filter.mp hrow
    rw [targets_congr rows heq, targets_eq_of_mem h hrow]
    exact htargets
  · intro htargets
    unfold targets at htargets
    cases hr : rows.find? (·.1 == k) with
    | none =>
      rw [hr] at htargets
      rw [hp] at htargets
      cases htargets
    | some row =>
      rw [hr] at htargets
      have hk : (row.1 == k) = true := List.find?_some (p := fun row : κ × List Value => row.1 == k) hr
      have hmem : row ∈ rows.filter fun row => p row.2 :=
        List.mem_filter.mpr ⟨List.mem_of_find?_eq_some hr, htargets⟩
      exact contains_of_beq (contains_of_mem (List.mem_map_of_mem hmem)) hk

theorem SameTable.of_targets (h : rows.OneRowPerKey) (h' : rows'.OneRowPerKey)
    (hne : ∀ row ∈ rows, row.2.isEmpty = false) (hne' : ∀ row ∈ rows', row.2.isEmpty = false)
    (htargets : ∀ k, SameSet (rows.targets k) (rows'.targets k)) : rows.SameTable rows' := by
  have hkeys {rows : Rows κ} (hne : ∀ row ∈ rows, row.2.isEmpty = false) :
      rows.map Prod.fst = keysWhere (fun ts => !ts.isEmpty) rows := by
    unfold keysWhere
    rw [List.filter_eq_self.mpr]
    intro row hrow
    dsimp only
    rw [hne row hrow]; rfl
  refine ⟨⟨h, h'⟩, .of_iff fun k => ?_, htargets⟩
  rw [hkeys hne, hkeys hne', contains_keysWhere_iff h rfl, contains_keysWhere_iff h' rfl, (htargets k).isEmpty_eq]

end Rows

/-! ## The tables of one set of edges -/

section
variable {ts ts' : List Transition} (h : SameSet ts ts')
include h

theorem exists_edge_of_sameSet {t : Transition} (ht : t ∈ ts) : ∃ u ∈ ts', (t == u) = true :=
  List.contains_iff_exists_mem_beq.mp ((h.iff t).mp (contains_of_mem ht))

theorem contains_targets_moves_of_sameSet {k : Value × Value} {r : Value}
    (hr : ((moves ts).targets k).contains r = true) : ((moves ts').targets k).contains r = true := by
  obtain ⟨t, ht, he, hs, ha, hr⟩ := contains_targets_moves_iff.mp hr
  obtain ⟨u, hu, heq⟩ := exists_edge_of_sameSet h ht
  obtain ⟨hsource, hsymbol, htarget⟩ := Transition.beq_iff.mp heq
  refine contains_targets_moves_iff.mpr ⟨u, hu, ?_, BEq.trans (BEq.symm hsource) hs, BEq.trans (BEq.symm hsymbol) ha,
    BEq.trans (BEq.symm htarget) hr⟩
  rw [← Transition.isEpsilon_congr heq]
  exact he

theorem contains_targets_silentMoves_of_sameSet {q r : Value}
    (hr : ((silentMoves ts).targets q).contains r = true) : ((silentMoves ts').targets q).contains r = true := by
  obtain ⟨t, ht, hs, hr⟩ := contains_targets_silentMoves_iff.mp hr
  obtain ⟨ht, he⟩ := List.mem_filter.mp ht
  obtain ⟨u, hu, heq⟩ := exists_edge_of_sameSet h ht
  obtain ⟨hsource, _, htarget⟩ := Transition.beq_iff.mp heq
  rw [Transition.isEpsilon_congr heq] at he
  exact contains_targets_silentMoves_iff.mpr ⟨u, List.mem_filter.mpr ⟨hu, he⟩, BEq.trans (BEq.symm hsource) hs,
    BEq.trans (BEq.symm htarget) hr⟩

theorem contains_reachableBy_of_sameSet {q q' r : Value} (hq : (q == q') = true)
    (hr : (reachableBy ts q).contains r = true) : (reachableBy ts' q').contains r = true := by
  obtain ⟨es, hes⟩ := contains_reachableBy_iff_walk.mp hr
  obtain ⟨fs, hfs⟩ := hes.exists_of_equal_edges fun t ht => exists_edge_of_sameSet h ht
  exact contains_reachableBy_iff_walk.mpr ⟨fs, hfs.congr_left (BEq.symm hq)⟩

theorem sameTable_moves : (moves ts).SameTable (moves ts') :=
  .of_targets (oneRowPerKey_moves ts) (oneRowPerKey_moves ts') (isEmpty_of_mem_moves ts) (isEmpty_of_mem_moves ts')
    fun _ => .of_iff fun _ => ⟨contains_targets_moves_of_sameSet h, contains_targets_moves_of_sameSet h.symm⟩

theorem sameTable_silentMoves : (silentMoves ts).SameTable (silentMoves ts') :=
  .of_targets (oneRowPerKey_silentMoves ts) (oneRowPerKey_silentMoves ts') (isEmpty_of_mem_silentMoves ts)
    (isEmpty_of_mem_silentMoves ts')
    fun _ => .of_iff fun _ =>
      ⟨contains_targets_silentMoves_of_sameSet h, contains_targets_silentMoves_of_sameSet h.symm⟩

theorem sameSet_reachableBy {q q' : Value} (hq : (q == q') = true) : SameSet (reachableBy ts q) (reachableBy ts' q') :=
  .of_iff fun _ => ⟨contains_reachableBy_of_sameSet h hq, contains_reachableBy_of_sameSet h.symm (BEq.symm hq)⟩

end

end FiniteAutomata
