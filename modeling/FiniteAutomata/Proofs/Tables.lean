import FiniteAutomata.Graph.Reach
import FiniteAutomata.Proofs.Sets

/-!
# The tables of an edge list

A table made by extending rows one after another holds, under every key,
exactly what was put there (`contains_targets_extendAll`), once each and in
one row per key. From this follow the rows of both tables of an edge list and
of their common adjacency.
-/

namespace FiniteAutomata

namespace Rows

variable {κ ι : Type} [BEq κ]

/-- Every item adds its targets to the row of its key. -/
def extendAll (key : ι → κ) (targetsOf : ι → List Value) (rows : Rows κ) (items : List ι) : Rows κ :=
  items.foldl (fun rows i => extend (key i) (targetsOf i) rows) rows

theorem extendAll_cons (key : ι → κ) (targetsOf : ι → List Value) (rows : Rows κ) (i : ι) (items : List ι) :
    extendAll key targetsOf rows (i :: items) =
      extendAll key targetsOf (extend (key i) (targetsOf i) rows) items := rfl

/-! ## One row per key -/

def OneRowPerKey (rows : Rows κ) : Prop := IsDistinct (rows.map Prod.fst)

theorem OneRowPerKey.nil : OneRowPerKey ([] : Rows κ) := List.Pairwise.nil

theorem map_fst_extend [EquivBEq κ] (k : κ) (ts : List Value) (rows : Rows κ) :
    (extend k ts rows).map Prod.fst = adjoin (rows.map Prod.fst) k := by
  induction rows with
  | nil => rfl
  | cons row rows ih =>
    obtain ⟨k', ts'⟩ := row
    unfold extend adjoin
    rw [List.map_cons, List.contains_cons, BEq.comm (a := k)]
    by_cases h : (k' == k) = true
    · simp [h]
    · simp only [h, Bool.false_eq_true, if_false, List.map_cons, ih, Bool.false_or, adjoin]
      split <;> rfl

theorem map_fst_extendAll [EquivBEq κ] (key : ι → κ) (targetsOf : ι → List Value) (rows : Rows κ) (items : List ι) :
    (extendAll key targetsOf rows items).map Prod.fst = adjoinAll (rows.map Prod.fst) (items.map key) := by
  induction items generalizing rows with
  | nil => rfl
  | cons i items ih => rw [extendAll_cons, ih, map_fst_extend]; rfl

theorem OneRowPerKey.extendAll [EquivBEq κ] {rows : Rows κ} (h : OneRowPerKey rows) (key : ι → κ)
    (targetsOf : ι → List Value) (items : List ι) : OneRowPerKey (Rows.extendAll key targetsOf rows items) := by
  unfold OneRowPerKey
  rw [map_fst_extendAll]
  exact h.adjoinAll _

/-! ## No row without targets -/

theorem isEmpty_of_mem_extend {rows : Rows κ} {k : κ} {ts : List Value} (hts : ts.isEmpty = false)
    (h : ∀ row ∈ rows, row.2.isEmpty = false) : ∀ row ∈ extend k ts rows, row.2.isEmpty = false := by
  obtain ⟨q, hq⟩ := isEmpty_eq_false_iff_exists_contains.mp hts
  induction rows with
  | nil =>
    intro row hrow
    rw [extend, List.mem_singleton] at hrow
    rw [hrow]
    exact isEmpty_eq_false_iff_exists_contains.mpr ⟨q, by rw [contains_distinct]; exact hq⟩
  | cons row' rows ih =>
    obtain ⟨k', ts'⟩ := row'
    obtain ⟨hfirst, hrest⟩ := List.forall_mem_cons.mp h
    unfold extend
    by_cases hk : (k' == k) = true
    · rw [if_pos hk]
      refine List.forall_mem_cons.mpr ⟨isEmpty_eq_false_iff_exists_contains.mpr ⟨q, ?_⟩, hrest⟩
      rw [contains_adjoinAll, hq, Bool.or_true]
    · rw [if_neg hk]
      exact List.forall_mem_cons.mpr ⟨hfirst, ih hrest⟩

theorem isEmpty_of_mem_extendAll {key : ι → κ} {targetsOf : ι → List Value} {rows : Rows κ} {items : List ι}
    (hts : ∀ i ∈ items, (targetsOf i).isEmpty = false) (h : ∀ row ∈ rows, row.2.isEmpty = false) :
    ∀ row ∈ extendAll key targetsOf rows items, row.2.isEmpty = false := by
  induction items generalizing rows with
  | nil => exact h
  | cons i items ih =>
    obtain ⟨hi, hitems⟩ := List.forall_mem_cons.mp hts
    exact ih hitems (isEmpty_of_mem_extend hi h)

/-! ## Lookups -/

theorem targets_eq_of_mem [EquivBEq κ] {rows : Rows κ} (h : OneRowPerKey rows) {row : κ × List Value}
    (hrow : row ∈ rows) : targets rows row.1 = row.2 := by
  induction rows with
  | nil => cases hrow
  | cons row' rows ih =>
    obtain ⟨k', ts'⟩ := row'
    obtain ⟨hk, hrows⟩ := List.pairwise_cons.mp h
    rw [targets_cons]
    rcases List.mem_cons.mp hrow with rfl | hrow
    · rw [if_pos BEq.rfl]
    · have hne := hk row.1 (List.mem_map_of_mem hrow)
      rw [if_neg (by simpa using hne)]
      exact ih hrows hrow

theorem exists_row_of_targets {rows : Rows κ} {k : κ} (h : (targets rows k).isEmpty = false) :
    ∃ row ∈ rows, (row.1 == k) = true ∧ row.2 = targets rows k := by
  unfold targets at h ⊢
  cases hr : rows.find? (·.1 == k) with
  | none => rw [hr] at h; cases h
  | some row =>
    have hk : (row.1 == k) = true := List.find?_some (p := fun row : κ × List Value => row.1 == k) hr
    exact ⟨row, List.mem_of_find?_eq_some hr, hk, rfl⟩

theorem exists_row_of_contains_targets {rows : Rows κ} {k : κ} {q : Value} (h : (targets rows k).contains q = true) :
    ∃ row ∈ rows, (row.1 == k) = true ∧ row.2.contains q = true := by
  obtain ⟨row, hrow, hk, htargets⟩ := exists_row_of_targets (isEmpty_eq_false_iff_exists_contains.mpr ⟨q, h⟩)
  exact ⟨row, hrow, hk, htargets ▸ h⟩

/-! ## What stands under a key -/

section
variable [EquivBEq κ]

theorem targets_congr (rows : Rows κ) {k k' : κ} (h : (k == k') = true) : targets rows k = targets rows k' := by
  induction rows with
  | nil => rfl
  | cons row rows ih =>
    obtain ⟨k₀, ts⟩ := row
    rw [targets_cons, targets_cons, ih, BEq.congr_right h]

theorem mem_targets_extendAll {key : ι → κ} {targetsOf : ι → List Value} {rows : Rows κ} {items : List ι}
    {k : κ} {q : Value} (h : q ∈ targets (extendAll key targetsOf rows items) k) :
    q ∈ targets rows k ∨ ∃ i ∈ items, (key i == k) = true ∧ q ∈ targetsOf i := by
  induction items generalizing rows with
  | nil => exact Or.inl h
  | cons i items ih =>
    rcases ih h with h | ⟨j, hj, hk, hq⟩
    · rw [targets_extend] at h
      by_cases hk : (key i == k) = true
      · rw [if_pos hk] at h
        rcases mem_of_mem_adjoinAll h with h | h
        · exact Or.inl h
        · exact Or.inr ⟨i, List.mem_cons_self, hk, h⟩
      · rw [if_neg hk] at h
        exact Or.inl h
    · exact Or.inr ⟨j, List.mem_cons_of_mem _ hj, hk, hq⟩

theorem contains_targets_extendAll {key : ι → κ} {targetsOf : ι → List Value} {rows : Rows κ} {items : List ι}
    {k : κ} {q : Value} :
    (targets (extendAll key targetsOf rows items) k).contains q = true ↔
      (targets rows k).contains q = true ∨ ∃ i ∈ items, (key i == k) = true ∧ (targetsOf i).contains q = true := by
  induction items generalizing rows with
  | nil => simp [extendAll]
  | cons i items ih =>
    rw [extendAll_cons, ih, targets_extend]
    by_cases hk : (key i == k) = true
    · rw [if_pos hk, contains_adjoinAll, Bool.or_eq_true]
      simp [hk, or_assoc]
    · rw [if_neg hk]
      simp [hk]

omit [EquivBEq κ] in
theorem isDistinct_targets_nil (k : κ) : IsDistinct (targets ([] : Rows κ) k) := List.Pairwise.nil

theorem isDistinct_targets_extendAll {key : ι → κ} {targetsOf : ι → List Value} {rows : Rows κ}
    (h : ∀ k, IsDistinct (targets rows k)) (items : List ι) (k : κ) :
    IsDistinct (targets (extendAll key targetsOf rows items) k) := by
  induction items generalizing rows with
  | nil => exact h k
  | cons i items ih =>
    refine ih fun k' => ?_
    rw [targets_extend]
    by_cases hk : (key i == k') = true
    · rw [if_pos hk]; exact (h k').adjoinAll _
    · rw [if_neg hk]; exact h k'

end

theorem targets_map (f : List Value → List Value) (hf : f [] = []) (rows : Rows κ) (k : κ) :
    targets (rows.map fun row => (row.1, f row.2)) k = f (targets rows k) := by
  induction rows with
  | nil => exact hf.symm
  | cons row rows ih =>
    obtain ⟨k', ts⟩ := row
    rw [List.map_cons, targets_cons, targets_cons, ih]
    by_cases h : (k' == k) = true
    · simp [h]
    · simp [h]

end Rows

/-! ## The two tables -/

def Transition.key (t : Transition) : Value × Value := (t.source, t.symbol)

theorem Transition.key_beq (t u : Transition) :
    (t.key == u.key) = (t.source == u.source && t.symbol == u.symbol) := rfl

section
variable (ts : List Transition)

theorem moves_eq_extendAll :
    moves ts = Rows.extendAll (fun t => (t.source, t.symbol)) (fun t => [t.target]) []
      (ts.filter fun t => !t.isEpsilon) := rfl

theorem silentMoves_eq_extendAll :
    silentMoves ts = Rows.extendAll Transition.source (fun t => [t.target]) [] (ts.filter Transition.isEpsilon) := rfl

theorem map_fst_moves :
    (moves ts).map Prod.fst = (distinct (ts.map Transition.key)).filter fun k => !(k.2 == epsilon) := by
  have hsymbol (k k' : Value × Value) (h : (k == k') = true) : (!(k.2 == epsilon)) = !(k'.2 == epsilon) := by
    rw [BEq.congr_left (prod_beq_iff.mp h).2]
  rw [moves_eq_extendAll, Rows.map_fst_extendAll, filter_distinct hsymbol, List.filter_map]
  rfl

theorem oneRowPerKey_moves : Rows.OneRowPerKey (moves ts) := by
  rw [moves_eq_extendAll]
  exact Rows.OneRowPerKey.nil.extendAll _ _ _

theorem oneRowPerKey_silentMoves : Rows.OneRowPerKey (silentMoves ts) := by
  rw [silentMoves_eq_extendAll]
  exact Rows.OneRowPerKey.nil.extendAll _ _ _

theorem isEmpty_of_mem_moves : ∀ row ∈ moves ts, row.2.isEmpty = false := by
  rw [moves_eq_extendAll]
  exact Rows.isEmpty_of_mem_extendAll (fun _ _ => rfl) (List.forall_mem_nil _)

theorem isEmpty_of_mem_silentMoves : ∀ row ∈ silentMoves ts, row.2.isEmpty = false := by
  rw [silentMoves_eq_extendAll]
  exact Rows.isEmpty_of_mem_extendAll (fun _ _ => rfl) (List.forall_mem_nil _)

theorem isDistinct_targets_moves (k : Value × Value) : IsDistinct ((moves ts).targets k) := by
  rw [moves_eq_extendAll]
  exact Rows.isDistinct_targets_extendAll Rows.isDistinct_targets_nil _ k

variable {ts}

theorem mem_targets_moves {q a r : Value} (h : r ∈ (moves ts).targets (q, a)) :
    ∃ t ∈ ts, t.isEpsilon = false ∧ (t.source == q) = true ∧ (t.symbol == a) = true ∧ t.target = r := by
  rw [moves_eq_extendAll] at h
  rcases Rows.mem_targets_extendAll h with h | ⟨t, ht, hk, hr⟩
  · cases h
  · obtain ⟨ht, he⟩ := List.mem_filter.mp ht
    obtain ⟨hs, ha⟩ := prod_beq_iff.mp hk
    exact ⟨t, ht, by simpa using he, hs, ha, (List.mem_singleton.mp hr).symm⟩

theorem contains_targets_moves_iff {q a r : Value} :
    ((moves ts).targets (q, a)).contains r = true ↔
      ∃ t ∈ ts, t.isEpsilon = false ∧ (t.source == q) = true ∧ (t.symbol == a) = true ∧ (t.target == r) = true := by
  rw [moves_eq_extendAll, Rows.contains_targets_extendAll]
  simp only [Rows.targets_nil, List.contains_nil, Bool.false_eq_true, false_or, List.mem_filter, Bool.not_eq_true',
    prod_beq_iff, List.contains_cons, Bool.or_false, BEq.comm (a := r)]
  constructor
  · intro ⟨t, ⟨ht, he⟩, ⟨hs, ha⟩, hr⟩
    exact ⟨t, ht, he, hs, ha, hr⟩
  · intro ⟨t, ht, he, hs, ha, hr⟩
    exact ⟨t, ⟨ht, he⟩, ⟨hs, ha⟩, hr⟩

theorem mem_targets_silentMoves {q r : Value} (h : r ∈ (silentMoves ts).targets q) :
    ∃ t ∈ ts, t.isEpsilon = true ∧ (t.source == q) = true ∧ t.target = r := by
  rw [silentMoves_eq_extendAll] at h
  rcases Rows.mem_targets_extendAll h with h | ⟨t, ht, hk, hr⟩
  · cases h
  · obtain ⟨ht, he⟩ := List.mem_filter.mp ht
    exact ⟨t, ht, he, hk, (List.mem_singleton.mp hr).symm⟩

theorem contains_targets_silentMoves_iff {q r : Value} :
    ((silentMoves ts).targets q).contains r = true ↔
      ∃ t ∈ ts.filter Transition.isEpsilon, (t.source == q) = true ∧ (t.target == r) = true := by
  rw [silentMoves_eq_extendAll, Rows.contains_targets_extendAll]
  simp [Rows.targets_nil, BEq.comm (a := r)]

end

/-! ## Adjacency -/

theorem contains_targets_adjacency_iff {ts : List Transition} {q r : Value} :
    ((adjacency (moves ts) (silentMoves ts)).targets q).contains r = true ↔
      ∃ t ∈ ts, (t.source == q) = true ∧ (t.target == r) = true := by
  have hrows : (adjacency (moves ts) (silentMoves ts)).targets q = Value.canonicalOrder
      (Rows.targets (Rows.extendAll Prod.fst Prod.snd (Rows.extendAll (fun row => row.1.1) Prod.snd [] (moves ts))
        (silentMoves ts)) q) := Rows.targets_map _ rfl _ q
  rw [hrows, sameSet_canonicalOrder, Rows.contains_targets_extendAll, Rows.contains_targets_extendAll]
  simp only [Rows.targets_nil, List.contains_nil, Bool.false_eq_true, false_or]
  constructor
  · rintro (⟨⟨⟨p, a⟩, rs⟩, hrow, hp, hr⟩ | ⟨⟨p, rs⟩, hrow, hp, hr⟩)
    · rw [← Rows.targets_eq_of_mem (oneRowPerKey_moves ts) hrow, contains_targets_moves_iff] at hr
      obtain ⟨t, ht, _, hs, _, hr⟩ := hr
      exact ⟨t, ht, BEq.trans hs hp, hr⟩
    · rw [← Rows.targets_eq_of_mem (oneRowPerKey_silentMoves ts) hrow, contains_targets_silentMoves_iff] at hr
      obtain ⟨t, ht, hs, hr⟩ := hr
      exact ⟨t, (List.mem_filter.mp ht).1, BEq.trans hs hp, hr⟩
  · intro ⟨t, ht, hs, hr⟩
    by_cases he : t.isEpsilon = true
    · right
      have hc := contains_targets_silentMoves_iff.mpr ⟨t, List.mem_filter.mpr ⟨ht, he⟩, hs, hr⟩
      exact Rows.exists_row_of_contains_targets hc
    · left
      have hc := contains_targets_moves_iff.mpr ⟨t, ht, by simpa using he, hs, BEq.rfl, hr⟩
      obtain ⟨row, hrow, hk, hr⟩ := Rows.exists_row_of_contains_targets hc
      exact ⟨row, hrow, (prod_beq_iff.mp hk).1, hr⟩

end FiniteAutomata
