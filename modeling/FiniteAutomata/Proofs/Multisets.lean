import FiniteAutomata.Proofs.Sets

/-!
# Lists as multisets

Two lists are the same multiset when every element occurs in them equally
often up to `==`. Gathering lists made from the elements of two lists that are
alike, as sets or as multisets, gives lists that are alike (`Alike.flatMap`);
lists without repetition need only be the same set (`Alike.of_isDistinct`).
-/

namespace FiniteAutomata

variable {α β : Type} [BEq α] [BEq β]

def SameMultiset (xs ys : List α) : Prop := ∀ x, xs.count x = ys.count x

theorem SameMultiset.refl (xs : List α) : SameMultiset xs xs := fun _ => rfl

section
variable [EquivBEq α]

/-! ## Counting -/

theorem count_pos_iff {xs : List α} {x : α} : 0 < xs.count x ↔ xs.contains x = true := by
  unfold List.count
  rw [List.countP_pos_iff, List.contains_iff_exists_mem_beq]
  simp only [BEq.comm]

theorem IsDistinct.count_eq {xs : List α} (h : IsDistinct xs) (x : α) :
    xs.count x = if xs.contains x then 1 else 0 := by
  induction xs with
  | nil => rfl
  | cons y xs ih =>
    obtain ⟨hy, hxs⟩ := List.pairwise_cons.mp h
    rw [List.count_cons, ih hxs, List.contains_cons, BEq.comm (a := y)]
    by_cases hxy : (x == y) = true
    · have hnot : xs.contains x = false := by
        rw [Bool.eq_false_iff]
        intro hx
        obtain ⟨z, hz, hxz⟩ := List.contains_iff_exists_mem_beq.mp hx
        have hyz := hy z hz
        rw [BEq.trans (BEq.symm hxy) hxz] at hyz
        cases hyz
      rw [hnot, hxy]; rfl
    · simp [hxy]

/-! ## Gathered lists -/

theorem SameMultiset.sameSet {xs ys : List α} (h : SameMultiset xs ys) : SameSet xs ys := by
  refine .of_iff fun x => ?_
  rw [← count_pos_iff, h x, count_pos_iff]

theorem SameMultiset.exists_partner {x : α} {xs ys : List α} (h : SameMultiset (x :: xs) ys) :
    ∃ before y after, ys = before ++ y :: after ∧ (x == y) = true ∧ SameMultiset xs (before ++ after) := by
  have hx : ys.contains x = true := (h.sameSet.iff x).mp (contains_of_mem List.mem_cons_self)
  obtain ⟨y, hy, hxy⟩ := List.contains_iff_exists_mem_beq.mp hx
  obtain ⟨before, after, rfl⟩ := List.append_of_mem hy
  refine ⟨before, y, after, rfl, hxy, fun z => ?_⟩
  have hz := h z
  rw [List.count_cons, List.count_append, List.count_cons, BEq.congr_left hxy] at hz
  rw [List.count_append]
  omega

theorem SameMultiset.count_flatMap_eq {xs ys : List α} (h : SameMultiset xs ys) {f g : α → List β} {z : β}
    (hfg : ∀ x y, (x == y) = true → (f x).count z = (g y).count z) : (xs.flatMap f).count z = (ys.flatMap g).count z := by
  induction xs generalizing ys with
  | nil =>
    cases ys with
    | nil => rfl
    | cons y ys =>
      have hy := (h.sameSet.iff y).mpr (contains_of_mem List.mem_cons_self)
      cases hy
  | cons x xs ih =>
    obtain ⟨before, y, after, rfl, hxy, hrest⟩ := h.exists_partner
    have hcount := ih hrest
    simp only [List.flatMap_append, List.flatMap_cons, List.count_append] at hcount ⊢
    rw [hfg x y hxy]
    omega

end

/-! ## Alike -/

/-- The same set, and the same multiset when repetition counts. -/
structure Alike (counted : Bool) (xs ys : List α) : Prop where
  set : SameSet xs ys
  multiset : counted = true → SameMultiset xs ys

variable {counted : Bool}

theorem Alike.refl (xs : List α) : Alike counted xs xs := ⟨SameSet.refl xs, fun _ => SameMultiset.refl xs⟩

theorem Alike.append {xs xs' ys ys' : List α} (h : Alike counted xs ys) (h' : Alike counted xs' ys') :
    Alike counted (xs ++ xs') (ys ++ ys') where
  set x := by
    rw [List.contains_append, List.contains_append, h.set x, h'.set x]
  multiset hc x := by
    rw [List.count_append, List.count_append, h.multiset hc x, h'.multiset hc x]

section
variable [EquivBEq α]

theorem Alike.singleton {x y : α} (h : (x == y) = true) : Alike counted [x] [y] where
  set z := by
    rw [List.contains_cons, List.contains_cons, BEq.congr_right h]
  multiset _ z := by
    rw [List.count_cons, List.count_cons, BEq.congr_left h]

theorem Alike.of_isDistinct {xs ys : List α} (hxs : IsDistinct xs) (hys : IsDistinct ys) (h : SameSet xs ys) :
    Alike counted xs ys :=
  ⟨h, fun _ x => by rw [hxs.count_eq, hys.count_eq, h x]⟩

theorem contains_flatMap_of_sameSet {xs ys : List α} (h : SameSet xs ys) {f g : α → List β}
    (hfg : ∀ x y, (x == y) = true → SameSet (f x) (g y)) {z : β} (hz : (xs.flatMap f).contains z = true) :
    (ys.flatMap g).contains z = true := by
  rw [List.contains_flatMap, List.any_eq_true] at hz ⊢
  obtain ⟨x, hx, hz⟩ := hz
  obtain ⟨y, hy, hxy⟩ := List.contains_iff_exists_mem_beq.mp ((h.iff x).mp (contains_of_mem hx))
  exact ⟨y, hy, ((hfg x y hxy).iff z).mp hz⟩

theorem Alike.flatMap {xs ys : List α} (h : Alike counted xs ys) {f g : α → List β}
    (hfg : ∀ x y, (x == y) = true → Alike counted (f x) (g y)) : Alike counted (xs.flatMap f) (ys.flatMap g) where
  set := .of_iff fun _ => ⟨contains_flatMap_of_sameSet h.set fun x y hxy => (hfg x y hxy).set,
    contains_flatMap_of_sameSet h.set.symm fun y x hyx => (hfg x y (BEq.symm hyx)).set.symm⟩
  multiset hc z := (h.multiset hc).count_flatMap_eq fun x y hxy => (hfg x y hxy).multiset hc z

end

end FiniteAutomata
