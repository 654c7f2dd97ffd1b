import FiniteAutomata.Proofs.Search
import Mathlib.Order.Lattice

/-!
# The order of a breadth-first search

When every node ranks below its successors, these are listed in rising rank
and nodes of higher rank have successors of higher rank, the queue rises
(`Queued.step`), so nodes are found in rising rank (`pairwise_explore`). Of
equal nodes that are reached, the one of least rank is found
(`exists_explore_le_of_reaches`).
-/

namespace FiniteAutomata

variable {α : Type}

/-! ## The same search under other names -/

section
variable [BEq α] {β : Type} [BEq β] {f : α → β} (hf : ∀ x y, (f x == f y) = (x == y))
include hf

theorem unseen_map (seen xs : List α) : unseen (seen.map f) (xs.map f) = (unseen seen xs).map f := by
  induction xs generalizing seen with
  | nil => rfl
  | cons x xs ih =>
    have hrest := ih (seen ++ [x])
    rw [List.map_append] at hrest
    rw [List.map_cons, unseen, unseen, contains_map_of_beq hf]
    split
    · exact ih seen
    · rw [List.map_cons, ← hrest, List.map_singleton]

theorem visit_map {next : α → List α} {next' : β → List β} (hnext : ∀ x, next' (f x) = (next x).map f)
    (fuel : Nat) (seen queue : List α) : visit next' (fun _ => false) fuel (seen.map f) (queue.map f) =
      (visit next (fun _ => false) fuel seen queue).map f := by
  induction fuel generalizing seen queue with
  | zero => rfl
  | succ fuel ih =>
    cases queue with
    | nil => rfl
    | cons x queue =>
      have hrest := ih (seen ++ unseen seen (next x)) (queue ++ unseen seen (next x))
      rw [List.map_append, List.map_append] at hrest
      simp only [List.map_cons, visit, Bool.false_eq_true, if_false, hnext, unseen_map hf, hrest]

end

/-! ## Ranks -/

section
variable {β : Type} [LinearOrder β]

/-- The rank of a node says when a breadth-first search comes to it. -/
structure Layered (next : α → List α) (rank : α → β) : Prop where
  rising : ∀ x, (next x).Pairwise fun y z => rank y < rank z
  below : ∀ x, ∀ y ∈ next x, rank x < rank y
  mono : ∀ x x', rank x < rank x' → ∀ y ∈ next x, ∀ y' ∈ next x', rank y < rank y'
  layers : ∀ x, ∀ y ∈ next x, ∀ x' ∈ next x, ∀ z ∈ next x', rank y < rank z

/-- What has left the queue and what waits in it rise, and nothing waits that
ranks above a successor of what waits. -/
structure Queued (next : α → List α) (rank : α → β) (old queue : List α) : Prop where
  rising : (old ++ queue).Pairwise fun x y => rank x < rank y
  ahead : ∀ x ∈ queue, ∀ y ∈ queue, ∀ z ∈ next x, rank y < rank z

variable {next : α → List α} {rank : α → β}

theorem Queued.start (h : Layered next rank) (s : α) : Queued next rank [] [s] where
  rising := List.pairwise_singleton _ _
  ahead := by
    intro x hx y hy z hz
    rw [List.mem_singleton.mp hx] at hz
    rw [List.mem_singleton.mp hy]
    exact h.below s z hz

variable {old queue fresh : List α} {x : α}

theorem Queued.lt_of_mem_next (h : Layered next rank) (hq : Queued next rank old (x :: queue)) {y z : α}
    (hy : y ∈ old ++ x :: queue) (hz : z ∈ next x) : rank y < rank z := by
  rcases List.mem_append.mp hy with hy | hy
  · have hlt := (List.pairwise_append.mp hq.rising).2.2 y hy x List.mem_cons_self
    exact hlt.trans (h.below x z hz)
  · exact hq.ahead x List.mem_cons_self y hy z hz

/-- One node leaves the queue, and some of its successors join it. -/
theorem Queued.step (h : Layered next rank) (hq : Queued next rank old (x :: queue)) (hfresh : fresh.Sublist (next x)) :
    Queued next rank (old ++ [x]) (queue ++ fresh) := by
  have hmem {y : α} (hy : y ∈ fresh) : y ∈ next x := hfresh.subset hy
  have hrising : (old ++ x :: queue ++ fresh).Pairwise fun y z => rank y < rank z := by
    refine List.pairwise_append.mpr ⟨hq.rising, (h.rising x).sublist hfresh, ?_⟩
    intro y hy z hz
    exact hq.lt_of_mem_next h hy (hmem hz)
  have hx : ∀ y ∈ queue, rank x < rank y :=
    (List.pairwise_cons.mp (List.pairwise_append.mp hq.rising).2.1).1
  refine ⟨by rwa [← seen_append], ?_⟩
  intro y hy y' hy' z hz
  rcases List.mem_append.mp hy with hy | hy
  · rcases List.mem_append.mp hy' with hy' | hy'
    · exact hq.ahead y (List.mem_cons_of_mem _ hy) y' (List.mem_cons_of_mem _ hy') z hz
    · exact h.mono x y (hx y hy) y' (hmem hy') z hz
  · rcases List.mem_append.mp hy' with hy' | hy'
    · have hlt : rank y' < rank y := hq.lt_of_mem_next h
        (List.mem_append_right _ (List.mem_cons_of_mem _ hy')) (hmem hy)
      exact hlt.trans (h.below y z hz)
    · exact h.layers x y' (hmem hy') y (hmem hy) z hz

/-! ## The order of what is found -/

variable [BEq α]

theorem unseen_sublist (seen xs : List α) : (unseen seen xs).Sublist xs := by
  induction xs generalizing seen with
  | nil => exact .slnil
  | cons x xs ih =>
    unfold unseen
    split
    · exact (ih seen).cons x
    · exact (ih _).cons_cons x

theorem pairwise_visit (h : Layered next rank) {wanted : α → Bool} {fuel : Nat}
    (hq : Queued next rank old queue) :
    (old ++ visit next wanted fuel (old ++ queue) queue).Pairwise fun x y => rank x < rank y := by
  induction fuel generalizing old queue with
  | zero =>
    rw [visit, List.append_nil]
    exact (List.pairwise_append.mp hq.rising).1
  | succ fuel ih =>
    cases queue with
    | nil => exact hq.rising
    | cons x queue =>
      unfold visit
      split
      · have hrising := hq.rising
        rw [List.append_cons] at hrising
        exact (List.pairwise_append.mp hrising).1
      · have hrest := ih (hq.step h (unseen_sublist (old ++ x :: queue) (next x)))
        rw [← seen_append, ← List.append_cons] at hrest
        exact hrest

theorem pairwise_explore (h : Layered next rank) (bound : Nat) (s : α) :
    (explore next bound [s]).Pairwise fun x y => rank x < rank y :=
  pairwise_visit h (Queued.start h s)

/-! ## The least of equal nodes -/

variable [EquivBEq α]

theorem exists_append_unseen_le (seen : List α) {xs : List α} (hxs : xs.Pairwise fun x y => rank x < rank y) {x : α}
    (hx : x ∈ xs) : ∃ y ∈ seen ++ unseen seen xs, (x == y) = true ∧ (y ∈ seen ∨ rank y ≤ rank x) := by
  induction xs generalizing seen with
  | nil => cases hx
  | cons z xs ih =>
    obtain ⟨hz, hxs⟩ := List.pairwise_cons.mp hxs
    unfold unseen
    split
    · rename_i hseen
      rcases List.mem_cons.mp hx with rfl | hx
      · obtain ⟨y, hy, hxy⟩ := List.contains_iff_exists_mem_beq.mp hseen
        exact ⟨y, List.mem_append_left _ hy, hxy, Or.inl hy⟩
      · exact ih seen hxs hx
    · rcases List.mem_cons.mp hx with rfl | hx
      · exact ⟨x, List.mem_append_right _ List.mem_cons_self, BEq.rfl, Or.inr (le_refl _)⟩
      · obtain ⟨y, hy, hxy, hle⟩ := ih (seen ++ [z]) hxs hx
        rw [← List.append_cons] at hy
        refine ⟨y, hy, hxy, ?_⟩
        rcases hle with hle | hle
        · rcases List.mem_append.mp hle with hle | hle
          · exact Or.inl hle
          · rw [List.mem_singleton.mp hle]
            exact Or.inr (hz x hx).le
        · exact Or.inr hle

/-- A successor of what is found is found itself, or a node of no higher rank
that equals it. -/
theorem exists_visit_le (h : Layered next rank) {u : List α}
    (hnext : ∀ x, u.contains x = true → ∀ y ∈ next x, u.contains y = true) {fuel : Nat}
    (hd : IsDistinct (old ++ queue)) (hu : ∀ x ∈ old ++ queue, u.contains x = true)
    (hf : u.length ≤ fuel + old.length) (hq : Queued next rank old queue) :
    ∀ x ∈ visit next (fun _ => false) fuel (old ++ queue) queue, ∀ y ∈ next x,
      ∃ y' ∈ old ++ visit next (fun _ => false) fuel (old ++ queue) queue, (y == y') = true ∧ rank y' ≤ rank y := by
  induction fuel generalizing old queue with
  | zero => exact fun x hx => absurd hx List.not_mem_nil
  | succ fuel ih =>
    cases queue with
    | nil => exact fun x hx => absurd hx List.not_mem_nil
    | cons x queue =>
      have hassoc := seen_append old queue (unseen (old ++ x :: queue) (next x)) x
      have hd' := hd.append_unseen (next x)
      have hu' := contains_of_mem_append_unseen hnext (hu x (by simp)) hu
      rw [hassoc] at hd' hu'
      have hf' : u.length ≤ fuel + (old ++ [x]).length := by
        rw [List.length_append, List.length_singleton]
        omega
      have hfound := (visit_closed hnext hd' hu' hf').1
      have hrest := ih hd' hu' hf' (hq.step h (unseen_sublist (old ++ x :: queue) (next x)))
      rw [← hassoc] at hfound hrest
      simp only [visit, Bool.false_eq_true, if_false]
      generalize visit next (fun _ => false) fuel _ _ = found at hfound hrest ⊢
      rw [List.append_cons]
      intro z hz y hy
      rcases List.mem_cons.mp hz with rfl | hz
      · obtain ⟨y', hy', hyy, hle⟩ := exists_append_unseen_le (old ++ z :: queue) (h.rising z) hy
        refine ⟨y', ?_, hyy, ?_⟩
        · rw [hassoc] at hy'
          rcases List.mem_append.mp hy' with hy' | hy'
          · exact List.mem_append_left _ hy'
          · exact List.mem_append_right _ (hfound y' hy')
        -- what has been seen has left the queue or waits in it, and neither ranks above a successor
        · rcases hle with hseen | hle
          · exact (hq.lt_of_mem_next h hseen hy).le
          · exact hle
      · exact hrest z hz y hy

section
variable {u : List α} {s : α} {bound : Nat}
variable (h : Layered next rank)
variable (hcongr : ∀ x x', (x == x') = true → rank x' ≤ rank x →
  ∀ y ∈ next x, ∃ y' ∈ next x', (y == y') = true ∧ rank y' ≤ rank y)
variable (hnext : ∀ x, u.contains x = true → ∀ y ∈ next x, u.contains y = true)
variable (hs : u.contains s = true) (hb : u.length ≤ bound)
include h hcongr hnext hs hb

theorem exists_explore_le_of_reaches {x : α} (hx : Reaches next [s] x) :
    ∃ y ∈ explore next bound [s], (x == y) = true ∧ rank y ≤ rank x := by
  have hd : IsDistinct ([] ++ [s]) := List.pairwise_singleton _ _
  have hu : ∀ x ∈ [] ++ [s], u.contains x = true := List.forall_mem_singleton.mpr hs
  have hstart : s ∈ explore next bound [s] := (visit_closed hnext hd hu hb).1 s (List.mem_singleton.mpr rfl)
  have hstep := exists_visit_le h hnext hd hu hb (Queued.start h s)
  induction hx with
  | start hx =>
    rw [List.mem_singleton.mp hx]
    exact ⟨s, hstart, BEq.rfl, le_refl _⟩
  | step _ hy ih =>
    obtain ⟨x', hx', hxx, hle⟩ := ih
    obtain ⟨y', hy', hyy, hle'⟩ := hcongr _ _ hxx hle _ hy
    obtain ⟨y'', hy'', hyy', hle''⟩ := hstep x' hx' y' hy'
    exact ⟨y'', hy'', BEq.trans hyy hyy', hle''.trans hle'⟩

end

end

end FiniteAutomata
