/-!
# Equality of pairs and lists

When the equality of elements is an equivalence, so is that of pairs and of
lists.
-/

namespace FiniteAutomata

variable {α β : Type}

theorem prod_beq_iff [BEq α] [BEq β] {p q : α × β} :
    (p == q) = true ↔ (p.1 == q.1) = true ∧ (p.2 == q.2) = true := by
  show (p.1 == q.1 && p.2 == q.2) = true ↔ _
  rw [Bool.and_eq_true]

instance equivBEqProd [BEq α] [BEq β] [EquivBEq α] [EquivBEq β] : EquivBEq (α × β) where
  rfl := prod_beq_iff.mpr ⟨BEq.rfl, BEq.rfl⟩
  symm h := by
    obtain ⟨h₁, h₂⟩ := prod_beq_iff.mp h
    exact prod_beq_iff.mpr ⟨BEq.symm h₁, BEq.symm h₂⟩
  trans h h' := by
    obtain ⟨h₁, h₂⟩ := prod_beq_iff.mp h
    obtain ⟨h₁', h₂'⟩ := prod_beq_iff.mp h'
    exact prod_beq_iff.mpr ⟨BEq.trans h₁ h₁', BEq.trans h₂ h₂'⟩

theorem list_beq_cons_iff [BEq α] {x y : α} {xs ys : List α} :
    (x :: xs == y :: ys) = true ↔ (x == y) = true ∧ (xs == ys) = true := by
  rw [List.cons_beq_cons, Bool.and_eq_true]

theorem list_beq_length [BEq α] : ∀ {xs ys : List α}, (xs == ys) = true → xs.length = ys.length
  | [], [], _ => rfl
  | [], _ :: _, h => by cases h
  | _ :: _, [], h => by cases h
  | _ :: _, _ :: _, h => congrArg (· + 1) (list_beq_length (list_beq_cons_iff.mp h).2)

section
variable [BEq α] [EquivBEq α]

theorem list_beq_rfl : ∀ xs : List α, (xs == xs) = true
  | [] => rfl
  | _ :: xs => list_beq_cons_iff.mpr ⟨BEq.rfl, list_beq_rfl xs⟩

theorem list_beq_symm : ∀ {xs ys : List α}, (xs == ys) = true → (ys == xs) = true
  | [], [], _ => rfl
  | [], _ :: _, h => by cases h
  | _ :: _, [], h => by cases h
  | _ :: _, _ :: _, h => by
    obtain ⟨h₁, h₂⟩ := list_beq_cons_iff.mp h
    exact list_beq_cons_iff.mpr ⟨BEq.symm h₁, list_beq_symm h₂⟩

theorem list_beq_trans : ∀ {xs ys zs : List α}, (xs == ys) = true → (ys == zs) = true → (xs == zs) = true
  | [], [], _, _, h => h
  | [], _ :: _, _, h, _ => by cases h
  | _ :: _, [], _, h, _ => by cases h
  | _ :: _, _ :: _, [], _, h => by cases h
  | _ :: _, _ :: _, _ :: _, h, h' => by
    obtain ⟨h₁, h₂⟩ := list_beq_cons_iff.mp h
    obtain ⟨h₁', h₂'⟩ := list_beq_cons_iff.mp h'
    exact list_beq_cons_iff.mpr ⟨BEq.trans h₁ h₁', list_beq_trans h₂ h₂'⟩

instance equivBEqList : EquivBEq (List α) where
  rfl := list_beq_rfl _
  symm := list_beq_symm
  trans := list_beq_trans

end

end FiniteAutomata
