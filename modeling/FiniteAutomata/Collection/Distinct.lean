/-!
# Lists without repetition

A finite set is a list without repetition, in order of insertion. Of equal
elements the first one is kept, so what counts as a repetition is decided by
`==` alone. Main statements: `contains_distinct`, that leaving out repetitions
keeps the set, and `isDistinct_distinct`, that it leaves none.
-/

namespace FiniteAutomata

variable {α : Type}

def adjoin [BEq α] (xs : List α) (x : α) : List α :=
  if xs.contains x then xs else xs ++ [x]

def adjoinAll [BEq α] (xs ys : List α) : List α := ys.foldl adjoin xs

/-- The first of every class of equal elements, in order. -/
def distinct [BEq α] (xs : List α) : List α := adjoinAll [] xs

def subsetOf [BEq α] (xs ys : List α) : Bool := xs.all ys.contains

/-- Equality of lists as sets. -/
def sameMembers [BEq α] (xs ys : List α) : Bool := subsetOf xs ys && subsetOf ys xs

def meets [BEq α] (xs ys : List α) : Bool := xs.any ys.contains

/-- No two elements are equal. -/
def IsDistinct [BEq α] (xs : List α) : Prop := xs.Pairwise fun x y => (x == y) = false

/-! ## Members -/

section
variable [BEq α]

theorem adjoinAll_nil (xs : List α) : adjoinAll xs [] = xs := rfl

theorem adjoinAll_cons (xs : List α) (y : α) (ys : List α) :
    adjoinAll xs (y :: ys) = adjoinAll (adjoin xs y) ys := rfl

theorem mem_of_mem_adjoin {xs : List α} {x y : α} (h : y ∈ adjoin xs x) : y ∈ xs ∨ y = x := by
  unfold adjoin at h
  split at h
  · exact Or.inl h
  · simpa using h

theorem mem_of_mem_adjoinAll {xs ys : List α} {y : α} (h : y ∈ adjoinAll xs ys) :
    y ∈ xs ∨ y ∈ ys := by
  induction ys generalizing xs with
  | nil => exact Or.inl h
  | cons z ys ih =>
    rw [adjoinAll_cons] at h
    rcases ih h with h | h
    · rcases mem_of_mem_adjoin h with h | rfl
      · exact Or.inl h
      · exact Or.inr List.mem_cons_self
    · exact Or.inr (List.mem_cons_of_mem _ h)

theorem mem_of_mem_distinct {xs : List α} {x : α} (h : x ∈ distinct xs) : x ∈ xs := by
  rcases mem_of_mem_adjoinAll h with h | h
  · cases h
  · exact h

theorem subsetOf_iff {xs ys : List α} : subsetOf xs ys = true ↔ ∀ x ∈ xs, ys.contains x = true := by
  simp [subsetOf, List.all_eq_true]

theorem meets_iff {xs ys : List α} : meets xs ys = true ↔ ∃ x ∈ xs, ys.contains x = true := by
  simp [meets, List.any_eq_true]

end

section
variable [BEq α] [EquivBEq α]

theorem contains_congr {xs : List α} {x y : α} (h : (x == y) = true) :
    xs.contains x = xs.contains y := by
  induction xs with
  | nil => rfl
  | cons z xs ih =>
    rw [List.contains_cons, List.contains_cons, ih, BEq.congr_left h]

theorem contains_adjoin (xs : List α) (x y : α) :
    (adjoin xs x).contains y = (xs.contains y || y == x) := by
  unfold adjoin
  split
  · rename_i h
    by_cases hy : (y == x) = true
    · rw [contains_congr hy, h, hy]; rfl
    · simp [hy]
  · simp [List.contains_eq_any_beq]

theorem contains_adjoinAll (xs ys : List α) (y : α) :
    (adjoinAll xs ys).contains y = (xs.contains y || ys.contains y) := by
  induction ys generalizing xs with
  | nil => simp [adjoinAll_nil]
  | cons z ys ih =>
    rw [adjoinAll_cons, ih, contains_adjoin, List.contains_cons, Bool.or_assoc]

theorem contains_distinct (xs : List α) (x : α) : (distinct xs).contains x = xs.contains x := by
  rw [distinct, contains_adjoinAll]; rfl

theorem IsDistinct.adjoin {xs : List α} (h : IsDistinct xs) (x : α) : IsDistinct (adjoin xs x) := by
  unfold FiniteAutomata.adjoin
  split
  · exact h
  · rename_i hx
    refine List.pairwise_append.mpr ⟨h, List.pairwise_singleton _ _, ?_⟩
    intro y hy z hz
    rw [List.mem_singleton.mp hz]
    refine Bool.eq_false_iff.mpr fun hyx => hx ?_
    exact List.contains_iff_exists_mem_beq.mpr ⟨y, hy, BEq.symm hyx⟩

theorem IsDistinct.adjoinAll {xs : List α} (h : IsDistinct xs) (ys : List α) :
    IsDistinct (adjoinAll xs ys) := by
  induction ys generalizing xs with
  | nil => exact h
  | cons y ys ih => exact ih (h.adjoin y)

theorem isDistinct_distinct (xs : List α) : IsDistinct (distinct xs) :=
  IsDistinct.adjoinAll List.Pairwise.nil xs

end

end FiniteAutomata
