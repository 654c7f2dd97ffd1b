import FiniteAutomata.Graph.Search

/-!
# What a search finds

Everything found is reached (`reaches_of_mem_explore`). With a bound that no
closed list of nodes exceeds, the search finds the starts and is closed under
steps (`explore_closed`).
-/

namespace FiniteAutomata

variable {α : Type} [BEq α]

/-! ## Soundness -/

theorem mem_of_mem_unseen {seen xs : List α} {x : α} (h : x ∈ unseen seen xs) : x ∈ xs := by
  induction xs generalizing seen with
  | nil => exact h
  | cons y xs ih =>
    unfold unseen at h
    split at h
    · exact List.mem_cons_of_mem _ (ih h)
    · rcases List.mem_cons.mp h with rfl | h
      · exact List.mem_cons_self
      · exact List.mem_cons_of_mem _ (ih h)

theorem reaches_of_mem_visit {next : α → List α} {wanted : α → Bool} {starts : List α} {fuel : Nat}
    {seen queue : List α} (hq : ∀ x ∈ queue, Reaches next starts x) :
    ∀ x ∈ visit next wanted fuel seen queue, Reaches next starts x := by
  induction fuel generalizing seen queue with
  | zero => intro x h; simp [visit] at h
  | succ fuel ih =>
    intro x h
    cases queue with
    | nil => simp [visit] at h
    | cons y queue =>
      have hy := hq y List.mem_cons_self
      unfold visit at h
      split at h
      · rw [List.mem_singleton.mp h]; exact hy
      · rcases List.mem_cons.mp h with rfl | h
        · exact hy
        · refine ih ?_ x h
          intro z hz
          rcases List.mem_append.mp hz with hz | hz
          · exact hq z (List.mem_cons_of_mem _ hz)
          · exact hy.step (mem_of_mem_unseen hz)

theorem reaches_of_mem_explore {next : α → List α} {starts : List α} {bound : Nat} {x : α}
    (h : x ∈ explore next bound starts) : Reaches next starts x :=
  reaches_of_mem_visit (fun _ hy => .start (mem_of_mem_distinct hy)) x h

/-! ## Completeness -/

omit [BEq α] in
theorem seen_append (old queue fresh : List α) (x : α) :
    old ++ x :: queue ++ fresh = old ++ [x] ++ (queue ++ fresh) := by simp

theorem contains_of_mem_append_unseen {next : α → List α} {u seen : List α} {x : α}
    (hnext : ∀ x, u.contains x = true → ∀ y ∈ next x, u.contains y = true) (hx : u.contains x = true)
    (hu : ∀ z ∈ seen, u.contains z = true) : ∀ z ∈ seen ++ unseen seen (next x), u.contains z = true := by
  intro z hz
  rcases List.mem_append.mp hz with hz | hz
  · exact hu z hz
  · exact hnext x hx z (mem_of_mem_unseen hz)

section
variable [EquivBEq α]

theorem contains_append_unseen (seen xs : List α) (x : α) :
    (seen ++ unseen seen xs).contains x = (seen.contains x || xs.contains x) := by
  induction xs generalizing seen with
  | nil => simp [unseen]
  | cons y xs ih =>
    unfold unseen
    split
    · rename_i h
      rw [ih, List.contains_cons]
      by_cases hy : (x == y) = true
      · rw [contains_congr hy, h]; simp
      · simp [hy]
    · rw [List.append_cons, ih]
      simp [List.contains_eq_any_beq, Bool.or_assoc]

theorem IsDistinct.append_unseen {seen : List α} (h : IsDistinct seen) (xs : List α) :
    IsDistinct (seen ++ unseen seen xs) := by
  induction xs generalizing seen with
  | nil => simpa [unseen] using h
  | cons y xs ih =>
    unfold unseen
    split
    · exact ih h
    · rename_i hy
      rw [List.append_cons]
      have hs : IsDistinct (FiniteAutomata.adjoin seen y) := h.adjoin y
      rw [FiniteAutomata.adjoin, if_neg hy] at hs
      exact ih hs

theorem IsDistinct.length_le {xs u : List α} (h : IsDistinct xs) (hu : ∀ x ∈ xs, u.contains x = true) :
    xs.length ≤ u.length := by
  induction xs generalizing u with
  | nil => exact Nat.zero_le _
  | cons x xs ih =>
    obtain ⟨hx, hxs⟩ := List.pairwise_cons.mp h
    have hc := hu x List.mem_cons_self
    obtain ⟨z, hz, hxz⟩ := List.contains_iff_exists_mem_beq.mp hc
    have hlen : (u.eraseP (x == ·)).length + 1 = u.length := by
      rw [List.length_eraseP_of_mem hz hxz]
      have := List.length_pos_of_mem hz
      omega
    rw [List.length_cons, ← hlen]
    refine Nat.succ_le_succ (ih hxs ?_)
    intro y hy
    obtain ⟨v, hv, hyv⟩ := List.contains_iff_exists_mem_beq.mp (hu y (List.mem_cons_of_mem _ hy))
    refine List.contains_iff_exists_mem_beq.mpr ⟨v, ?_, hyv⟩
    refine (List.mem_eraseP_of_neg ?_).mpr hv
    intro hxv
    have := hx y hy
    rw [BEq.trans hxv (BEq.symm hyv)] at this
    cases this

theorem contains_of_mem_next {next : α → List α} {old queue found : List α} {x y : α} (hy : y ∈ next x)
    (hfound : ∀ z ∈ queue ++ unseen (old ++ x :: queue) (next x), z ∈ found) : (old ++ x :: found).contains y = true := by
  have hseen : (old ++ x :: queue ++ unseen (old ++ x :: queue) (next x)).contains y = true := by
    rw [contains_append_unseen, Bool.or_eq_true]
    exact Or.inr (List.contains_iff_exists_mem_beq.mpr ⟨y, hy, BEq.rfl⟩)
  obtain ⟨v, hv, hyv⟩ := List.contains_iff_exists_mem_beq.mp hseen
  refine List.contains_iff_exists_mem_beq.mpr ⟨v, ?_, hyv⟩
  rw [seen_append] at hv
  rcases List.mem_append.mp hv with hv | hv
  · rcases List.mem_append.mp hv with hv | hv
    · exact List.mem_append_left _ hv
    · rw [List.mem_singleton.mp hv]
      exact List.mem_append_right _ List.mem_cons_self
  · exact List.mem_append_right _ (List.mem_cons_of_mem _ (hfound v hv))

/-- With fuel for every node of a closed list, the search ends with an empty
queue: what is visited, together with what had left the queue before, holds
the queue and is closed. -/
theorem visit_closed {next : α → List α} {u : List α}
    (hnext : ∀ x, u.contains x = true → ∀ y ∈ next x, u.contains y = true) {fuel : Nat}
    {old queue : List α} (hd : IsDistinct (old ++ queue)) (hu : ∀ x ∈ old ++ queue, u.contains x = true)
    (hf : u.length ≤ fuel + old.length) :
    (∀ x ∈ queue, x ∈ visit next (fun _ => false) fuel (old ++ queue) queue) ∧
      ∀ x ∈ visit next (fun _ => false) fuel (old ++ queue) queue, ∀ y ∈ next x,
        (old ++ visit next (fun _ => false) fuel (old ++ queue) queue).contains y = true := by
  induction fuel generalizing old queue with
  | zero =>
    have hl := hd.length_le hu
    rw [List.length_append] at hl
    have hq : queue = [] := List.eq_nil_of_length_eq_zero (by omega)
    subst hq
    simp [visit]
  | succ fuel ih =>
    cases queue with
    | nil => simp [visit]
    | cons x queue =>
      have hx : u.contains x = true := hu x (by simp)
      have hassoc := seen_append old queue (unseen (old ++ x :: queue) (next x)) x
      have hd' := hd.append_unseen (next x)
      have hu' := contains_of_mem_append_unseen hnext hx hu
      rw [hassoc] at hd' hu'
      -- one more node has left the queue, so with one unit of fuel less the bound holds again
      obtain ⟨hq, hc⟩ := ih hd' hu' (by rw [List.length_append, List.length_singleton]; omega)
      rw [← hassoc] at hq hc
      have hv : visit next (fun _ => false) (fuel + 1) (old ++ x :: queue) (x :: queue) =
          x :: visit next (fun _ => false) fuel (old ++ x :: queue ++ unseen (old ++ x :: queue) (next x))
            (queue ++ unseen (old ++ x :: queue) (next x)) := by
        simp [visit]
      rw [hv]
      constructor
      · intro z hz
        rcases List.mem_cons.mp hz with rfl | hz
        · exact List.mem_cons_self
        · exact List.mem_cons_of_mem _ (hq z (List.mem_append_left _ hz))
      · intro z hz y hy
        rcases List.mem_cons.mp hz with rfl | hz
        · exact contains_of_mem_next hy hq
        · have := hc z hz y hy
          simpa [List.append_assoc] using this

/-- The search finds everything that is reached, when `u` is closed under
steps and holds the starts. -/
theorem explore_closed {next : α → List α} {u starts : List α} {bound : Nat}
    (hnext : ∀ x, u.contains x = true → ∀ y ∈ next x, u.contains y = true)
    (hs : ∀ x ∈ starts, u.contains x = true) (hb : u.length ≤ bound) :
    (∀ x ∈ starts, (explore next bound starts).contains x = true) ∧
      ∀ x ∈ explore next bound starts, ∀ y ∈ next x, (explore next bound starts).contains y = true := by
  have hd : IsDistinct ([] ++ distinct starts) := isDistinct_distinct starts
  have hu : ∀ x ∈ [] ++ distinct starts, u.contains x = true := fun x hx => hs x (mem_of_mem_distinct hx)
  obtain ⟨hq, hc⟩ := visit_closed hnext hd hu hb
  refine ⟨fun x hx => ?_, hc⟩
  have hx' : (distinct starts).contains x = true := by
    rw [contains_distinct]
    exact List.contains_iff_exists_mem_beq.mpr ⟨x, hx, BEq.rfl⟩
  obtain ⟨v, hv, hxv⟩ := List.contains_iff_exists_mem_beq.mp hx'
  exact List.contains_iff_exists_mem_beq.mpr ⟨v, hq v hv, hxv⟩

end

end FiniteAutomata
