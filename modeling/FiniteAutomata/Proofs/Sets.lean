import FiniteAutomata.Value.Key
import FiniteAutomata.Value.Written

/-!
# Lists as sets

Two lists are the same set when they contain the same values up to `==`. What
is asked of a set (`meets`, emptiness) does not depend on the list that holds
it. Leaving out repetitions keeps the order of first occurrences
(`pairwise_idxOf_distinct`, `distinct_eq_eraseDups`), and the lists of a
bounded length over a supply are counted by `listsUpTo`.
-/

namespace FiniteAutomata

variable {α : Type} [BEq α]

def SameSet (xs ys : List α) : Prop := ∀ x, xs.contains x = ys.contains x

namespace SameSet

variable {xs ys zs : List α}

theorem refl (xs : List α) : SameSet xs xs := fun _ => rfl

theorem symm (h : SameSet xs ys) : SameSet ys xs := fun x => (h x).symm

theorem of_iff (h : ∀ x, xs.contains x = true ↔ ys.contains x = true) : SameSet xs ys :=
  fun x => Bool.eq_iff_iff.mpr (h x)

theorem iff (h : SameSet xs ys) (x : α) : xs.contains x = true ↔ ys.contains x = true := by rw [h x]

theorem trans (h : SameSet xs ys) (h' : SameSet ys zs) : SameSet xs zs := fun x => (h x).trans (h' x)

end SameSet

theorem contains_map_of_beq {β : Type} [BEq β] {f : α → β} (hf : ∀ x y, (f x == f y) = (x == y)) (xs : List α)
    (x : α) : (xs.map f).contains (f x) = xs.contains x := by
  rw [List.contains_map, List.contains_eq_any_beq]
  congr 1
  funext y
  exact hf x y

section
variable [EquivBEq α]

theorem contains_of_mem {xs : List α} {x : α} (h : x ∈ xs) : xs.contains x = true :=
  List.contains_iff_exists_mem_beq.mpr ⟨x, h, BEq.rfl⟩

theorem contains_of_beq {xs : List α} {x y : α} (hx : xs.contains x = true) (h : (x == y) = true) :
    xs.contains y = true := by
  rw [← contains_congr h]; exact hx

theorem isEmpty_iff_forall_contains {xs : List α} : xs.isEmpty = true ↔ ∀ x, xs.contains x = false := by
  cases xs with
  | nil => simp
  | cons x xs =>
    constructor
    · intro h; cases h
    · intro h
      have := h x
      rw [contains_of_mem List.mem_cons_self] at this
      cases this

theorem isEmpty_eq_false_iff_exists_contains {xs : List α} : xs.isEmpty = false ↔ ∃ x, xs.contains x = true := by
  rw [← Bool.not_eq_true, isEmpty_iff_forall_contains]
  simp

theorem SameSet.isEmpty_eq {xs ys : List α} (h : SameSet xs ys) : xs.isEmpty = ys.isEmpty := by
  rw [Bool.eq_iff_iff, isEmpty_iff_forall_contains, isEmpty_iff_forall_contains]
  simp [h _]

theorem meets_iff_exists_contains {xs ys : List α} :
    meets xs ys = true ↔ ∃ x, xs.contains x = true ∧ ys.contains x = true := by
  rw [meets_iff]
  constructor
  · intro ⟨x, hx, hy⟩
    exact ⟨x, contains_of_mem hx, hy⟩
  · intro ⟨x, hx, hy⟩
    obtain ⟨z, hz, hxz⟩ := List.contains_iff_exists_mem_beq.mp hx
    exact ⟨z, hz, contains_of_beq hy hxz⟩

theorem isEmpty_eq_false_of_meets {xs ys : List α} (h : meets xs ys = true) : xs.isEmpty = false := by
  obtain ⟨x, hx, _⟩ := meets_iff_exists_contains.mp h
  exact isEmpty_eq_false_iff_exists_contains.mpr ⟨x, hx⟩

theorem SameSet.meets_eq {xs ys zs : List α} (h : SameSet xs ys) : meets xs zs = meets ys zs := by
  rw [Bool.eq_iff_iff, meets_iff_exists_contains, meets_iff_exists_contains]
  simp [h _]

theorem subsetOf_iff_contains {xs ys : List α} :
    subsetOf xs ys = true ↔ ∀ x, xs.contains x = true → ys.contains x = true := by
  rw [subsetOf_iff]
  constructor
  · intro h x hx
    obtain ⟨y, hy, hxy⟩ := List.contains_iff_exists_mem_beq.mp hx
    exact contains_of_beq (h y hy) (BEq.symm hxy)
  · intro h x hx
    exact h x (contains_of_mem hx)

theorem subsetOf_refl (xs : List α) : subsetOf xs xs = true := by simp [subsetOf_iff_contains]

theorem subsetOf_trans {xs ys zs : List α} (h : subsetOf xs ys = true) (h' : subsetOf ys zs = true) :
    subsetOf xs zs = true := by
  rw [subsetOf_iff_contains] at h h' ⊢
  exact fun x hx => h' x (h x hx)

omit [EquivBEq α] in
theorem subsetOf_append_iff {xs ys zs : List α} :
    subsetOf (xs ++ ys) zs = true ↔ subsetOf xs zs = true ∧ subsetOf ys zs = true := by
  simp [subsetOf]

theorem subsetOf_append_left (xs ys : List α) : subsetOf xs (xs ++ ys) = true := by
  simp +contextual [subsetOf_iff_contains]

theorem subsetOf_append_right (xs ys : List α) : subsetOf ys (xs ++ ys) = true := by
  simp +contextual [subsetOf_iff_contains]

theorem sameSet_iff_subsetOf {xs ys : List α} : SameSet xs ys ↔ subsetOf xs ys = true ∧ subsetOf ys xs = true := by
  rw [subsetOf_iff_contains, subsetOf_iff_contains]
  constructor
  · intro h
    exact ⟨fun x => (h.iff x).mp, fun x => (h.iff x).mpr⟩
  · intro ⟨h, h'⟩
    exact .of_iff fun x => ⟨h x, h' x⟩

theorem sameMembers_iff {xs ys : List α} : sameMembers xs ys = true ↔ SameSet xs ys := by
  rw [sameMembers, Bool.and_eq_true, sameSet_iff_subsetOf]

theorem sameSet_distinct (xs : List α) : SameSet (distinct xs) xs := contains_distinct xs

theorem sameSet_of_beq : ∀ {xs ys : List α}, (xs == ys) = true → SameSet xs ys
  | [], [], _ => SameSet.refl []
  | [], _ :: _, h => by cases h
  | _ :: _, [], h => by cases h
  | x :: xs, y :: ys, h => by
    rw [List.cons_beq_cons, Bool.and_eq_true] at h
    intro z
    rw [List.contains_cons, List.contains_cons, BEq.congr_right h.1, sameSet_of_beq h.2 z]

omit [EquivBEq α] in
theorem contains_filter_iff {p : α → Bool} (hp : ∀ x y, (x == y) = true → p x = p y) {xs : List α} {x : α} :
    (xs.filter p).contains x = true ↔ xs.contains x = true ∧ p x = true := by
  rw [List.contains_iff_exists_mem_beq, List.contains_iff_exists_mem_beq]
  constructor
  · intro ⟨y, hy, hxy⟩
    obtain ⟨hm, hpy⟩ := List.mem_filter.mp hy
    exact ⟨⟨y, hm, hxy⟩, by rw [hp x y hxy]; exact hpy⟩
  · intro ⟨⟨y, hm, hxy⟩, hpx⟩
    exact ⟨y, List.mem_filter.mpr ⟨hm, by rw [← hp x y hxy]; exact hpx⟩, hxy⟩

theorem IsDistinct.eq_of_map_beq {β : Type} {f : β → α} {xs : List β} (h : IsDistinct (xs.map f)) {x y : β} (hx : x ∈ xs)
    (hy : y ∈ xs) (hxy : (f x == f y) = true) : x = y := by
  induction xs with
  | nil => cases hx
  | cons z xs ih =>
    obtain ⟨hz, hxs⟩ := List.pairwise_cons.mp h
    have hapart {v : β} (hv : v ∈ xs) (hzv : (f z == f v) = true) : False := by
      rw [hz _ (List.mem_map_of_mem hv)] at hzv
      cases hzv
    rcases List.mem_cons.mp hx with rfl | hxs'
    · rcases List.mem_cons.mp hy with rfl | hys
      · rfl
      · exact absurd hxy (hapart hys)
    · rcases List.mem_cons.mp hy with rfl | hys
      · exact absurd (BEq.symm hxy) (hapart hxs')
      · exact ih hxs hxs' hys

theorem IsDistinct.eq_of_beq {xs : List α} (h : IsDistinct xs) {x y : α} (hx : x ∈ xs) (hy : y ∈ xs)
    (hxy : (x == y) = true) : x = y :=
  IsDistinct.eq_of_map_beq (f := id) (by rwa [List.map_id]) hx hy hxy

omit [EquivBEq α] in
theorem IsDistinct.length_le_one {xs : List α} (h : IsDistinct xs)
    (heq : ∀ x ∈ xs, ∀ y ∈ xs, (x == y) = true) : xs.length ≤ 1 := by
  cases xs with
  | nil => exact Nat.zero_le _
  | cons x xs =>
    cases xs with
    | nil => exact Nat.le_refl _
    | cons y ys =>
      have hne := (List.pairwise_cons.mp h).1 y List.mem_cons_self
      rw [heq x List.mem_cons_self y (List.mem_cons_of_mem _ List.mem_cons_self)] at hne
      cases hne

theorem IsDistinct.distinct_eq {xs : List α} (h : IsDistinct xs) : distinct xs = xs := by
  have hadjoin : ∀ ys zs : List α, IsDistinct (zs ++ ys) → FiniteAutomata.adjoinAll zs ys = zs ++ ys := by
    intro ys
    induction ys with
    | nil => exact fun zs _ => (List.append_nil zs).symm
    | cons y ys ih =>
      intro zs hd
      have hnot : ¬ zs.contains y = true := by
        intro hc
        obtain ⟨z, hz, hyz⟩ := List.contains_iff_exists_mem_beq.mp hc
        have hne := (List.pairwise_append.mp hd).2.2 z hz y List.mem_cons_self
        rw [BEq.symm hyz] at hne
        cases hne
      rw [List.append_cons] at hd
      rw [adjoinAll_cons, FiniteAutomata.adjoin, if_neg hnot, ih _ hd, ← List.append_cons]
  exact hadjoin xs [] h

end

/-! ## First occurrences -/

section

theorem filter_adjoin {p : α → Bool} (hp : ∀ x y, (x == y) = true → p x = p y) (xs : List α) (y : α) :
    (adjoin xs y).filter p = if p y then adjoin (xs.filter p) y else xs.filter p := by
  have hcontains : (xs.filter p).contains y = (xs.contains y && p y) := by
    rw [Bool.eq_iff_iff, contains_filter_iff hp, Bool.and_eq_true]
  unfold adjoin
  rw [hcontains]
  by_cases hy : p y = true
  · by_cases hc : xs.contains y = true
    · simp [hy, hc]
    · simp [hy, hc]
  · by_cases hc : xs.contains y = true
    · simp [hy, hc]
    · simp [hy, hc]

theorem filter_distinct {p : α → Bool} (hp : ∀ x y, (x == y) = true → p x = p y) (xs : List α) :
    (distinct xs).filter p = distinct (xs.filter p) := by
  have hall : ∀ xs ys : List α, (adjoinAll ys xs).filter p = adjoinAll (ys.filter p) (xs.filter p) := by
    intro xs
    induction xs with
    | nil => exact fun _ => rfl
    | cons x xs ih =>
      intro ys
      rw [adjoinAll_cons, ih, filter_adjoin hp, List.filter_cons]
      split <;> rfl
  exact hall xs []

variable [EquivBEq α]

theorem adjoinAll_cons_left (x : α) (xs ys : List α) :
    adjoinAll (x :: ys) xs = x :: adjoinAll ys (xs.filter fun y => !(x == y)) := by
  induction xs generalizing ys with
  | nil => rfl
  | cons y xs ih =>
    rw [adjoinAll_cons]
    by_cases hxy : (x == y) = true
    · have hadjoin : adjoin (x :: ys) y = x :: ys := by simp [adjoin, BEq.symm hxy]
      rw [hadjoin, ih]
      simp [hxy]
    · have hyx : (y == x) = false := by rw [BEq.comm]; simpa using hxy
      have hadjoin : adjoin (x :: ys) y = x :: adjoin ys y := by
        unfold adjoin
        rw [List.contains_cons, hyx, Bool.false_or]
        split <;> rfl
      rw [hadjoin, ih, List.filter_cons, if_pos (by simpa using hxy), adjoinAll_cons]

theorem distinct_cons (x : α) (xs : List α) : distinct (x :: xs) = x :: distinct (xs.filter fun y => !(x == y)) :=
  adjoinAll_cons_left x xs []

/-- What is left stands in the order of first occurrences. -/
theorem pairwise_idxOf_distinct (xs : List α) : (distinct xs).Pairwise fun x y => xs.idxOf x < xs.idxOf y := by
  induction xs with
  | nil => exact .nil
  | cons x xs ih =>
    have hapart : ∀ y z, (y == z) = true → (!(x == y)) = !(x == z) := fun y z hyz => by rw [BEq.congr_right hyz]
    have hlater {y : α} (hy : (!(x == y)) = true) : (x :: xs).idxOf y = xs.idxOf y + 1 := by
      simp only [Bool.not_eq_true'] at hy
      rw [List.idxOf_cons, hy]; rfl
    rw [distinct_cons, ← filter_distinct hapart]
    refine List.pairwise_cons.mpr ⟨fun y hy => ?_, (ih.filter _).imp_of_mem fun hy hz hlt => ?_⟩
    · rw [hlater (List.mem_filter.mp hy).2, List.idxOf_cons, BEq.rfl]
      exact Nat.succ_pos _
    · rw [hlater (List.mem_filter.mp hy).2, hlater (List.mem_filter.mp hz).2]
      exact Nat.succ_lt_succ hlt

theorem distinct_eq_eraseDups (xs : List α) : distinct xs = xs.eraseDups :=
  match xs with
  | [] => rfl
  | x :: xs => by
    have hcomm : (fun y => !(x == y)) = fun y => !(y == x) := by
      funext y
      rw [BEq.comm]
    rw [distinct_cons, List.eraseDups_cons, distinct_eq_eraseDups, hcomm]
termination_by xs.length
decreasing_by exact Nat.lt_succ_of_le (List.length_filter_le _ _)

theorem contains_eraseDups (xs : List α) (x : α) : xs.eraseDups.contains x = xs.contains x := by
  rw [← distinct_eq_eraseDups, contains_distinct]

theorem mem_of_mem_eraseDups {xs : List α} {x : α} (h : x ∈ xs.eraseDups) : x ∈ xs := by
  rw [← distinct_eq_eraseDups] at h
  exact mem_of_mem_distinct h

theorem IsDistinct.pairwise_idxOf {xs : List α} (h : IsDistinct xs) :
    xs.Pairwise fun x y => xs.idxOf x < xs.idxOf y := by
  have hfirst := pairwise_idxOf_distinct xs
  rwa [h.distinct_eq] at hfirst

end

/-! ## Sorted sets -/

theorem sameSet_canonicalOrder (xs : List Value) : SameSet (Value.canonicalOrder xs) xs := by
  intro x
  rw [List.contains_eq_any_beq, List.contains_eq_any_beq]
  exact (perm_sortOn _ _ xs).any_eq

theorem mem_canonicalOrder {xs : List Value} {x : Value} : x ∈ Value.canonicalOrder xs ↔ x ∈ xs :=
  (perm_sortOn _ _ xs).mem_iff

theorem IsDistinct.perm {xs ys : List Value} (h : IsDistinct xs) (hp : xs.Perm ys) : IsDistinct ys := by
  refine (hp.pairwise_iff ?_).mp h
  intro x y hxy
  rw [Bool.eq_false_iff] at hxy ⊢
  exact fun hyx => hxy (BEq.symm hyx)

theorem isDistinct_canonicalOrder {xs : List Value} (h : IsDistinct xs) :
    IsDistinct (Value.canonicalOrder xs) :=
  h.perm (perm_sortOn _ _ xs).symm

/-! ## Lists of bounded length -/

def listsUpTo (supply : List α) : Nat → List (List α)
  | 0 => [[]]
  | n + 1 => [] :: supply.flatMap fun x => (listsUpTo supply n).map (x :: ·)

omit [BEq α] in
theorem length_listsUpTo_le (supply : List α) (n : Nat) :
    (listsUpTo supply n).length ≤ (supply.length + 1).pow n := by
  induction n with
  | zero => exact Nat.le_refl 1
  | succ n ih =>
    have hpos : 1 ≤ (supply.length + 1).pow n := Nat.pow_pos (Nat.succ_pos _)
    simp only [listsUpTo, List.length_cons, List.length_flatMap, List.length_map, List.map_const',
      List.sum_replicate_nat]
    calc supply.length * (listsUpTo supply n).length + 1
        ≤ supply.length * (supply.length + 1).pow n + (supply.length + 1).pow n :=
          Nat.add_le_add (Nat.mul_le_mul_left _ ih) hpos
      _ = (supply.length + 1).pow n * (supply.length + 1) := by
        rw [Nat.mul_comm _ (supply.length + 1), Nat.add_mul, Nat.one_mul]

theorem contains_listsUpTo {supply : List α} : ∀ {xs : List α} {n : Nat},
    (∀ x ∈ xs, supply.contains x = true) → xs.length ≤ n → (listsUpTo supply n).contains xs = true
  | [], 0, _, _ => by simp [listsUpTo]
  | [], n + 1, _, _ => by simp [listsUpTo]
  | x :: xs, n + 1, hx, hn => by
    have ih := contains_listsUpTo (n := n) (fun y hy => hx y (List.mem_cons_of_mem _ hy)) (Nat.le_of_succ_le_succ hn)
    obtain ⟨ys, hys, hxs⟩ := List.contains_iff_exists_mem_beq.mp ih
    obtain ⟨y, hy, hxy⟩ := List.contains_iff_exists_mem_beq.mp (hx x List.mem_cons_self)
    refine List.contains_iff_exists_mem_beq.mpr ⟨y :: ys, ?_, ?_⟩
    · exact List.mem_cons_of_mem _ (List.mem_flatMap.mpr ⟨y, hy, List.mem_map.mpr ⟨ys, hys, rfl⟩⟩)
    · rw [List.cons_beq_cons, hxy, hxs]; rfl

end FiniteAutomata
