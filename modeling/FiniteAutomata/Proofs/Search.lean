import FiniteAutomata.Graph.Search.Lemmas
import FiniteAutomata.Proofs.Sets

/-!
# Exact searches

A search whose steps respect `==` and never leave a list `u` finds all that is
reached (`contains_explore_of_reaches`), once each (`isDistinct_explore`), and
a larger bound changes nothing (`explore_eq_of_le`). A search for a wanted
node ends at the first one that a search of everything finds (`find?_visit`).
With enough fuel a search is the loop that has none, up to the end of it
(`exists_dequeues_visit`).
-/

namespace FiniteAutomata

variable {α : Type} [BEq α]

/-- The search ends at the first wanted node of a search of everything. -/
theorem find?_visit (next : α → List α) (wanted : α → Bool) (fuel : Nat) (seen queue : List α) :
    (visit next wanted fuel seen queue).find? wanted =
      (visit next (fun _ => false) fuel seen queue).find? wanted := by
  induction fuel generalizing seen queue with
  | zero => rfl
  | succ fuel ih =>
    cases queue with
    | nil => rfl
    | cons x queue =>
      unfold visit
      by_cases hx : wanted x = true
      · simp [hx]
      · simp [hx, ih]

/-- The loop without fuel: nodes that are seen, a queue, the nodes that leave
it in their order, and all that are seen when the loop ends. -/
inductive Dequeues (next : α → List α) (wanted : α → Bool) : List α → List α → List α → List α → Prop where
  | emptied (seen : List α) : Dequeues next wanted seen [] [] seen
  | found {x : α} (seen queue : List α) (h : wanted x = true) : Dequeues next wanted seen (x :: queue) [x] seen
  | round {x : α} {seen queue nodes last : List α} (h : wanted x = false)
      (hrest : Dequeues next wanted (seen ++ unseen seen (next x)) (queue ++ unseen seen (next x)) nodes last) :
      Dequeues next wanted seen (x :: queue) (x :: nodes) last

theorem Dequeues.last_eq {next : α → List α} {seen queue nodes last : List α}
    (h : Dequeues next (fun _ => false) seen queue nodes last) {old : List α} (hseen : seen = old ++ queue) :
    last = old ++ nodes := by
  induction h generalizing old with
  | emptied seen => exact hseen
  | found _ _ h => cases h
  | @round x seen queue nodes last _ _ ih =>
    have hold : last = old ++ [x] ++ nodes := ih (by rw [hseen]; exact seen_append old queue _ x)
    rw [hold, List.append_assoc]; rfl

section
variable [EquivBEq α]

/-- Every round takes a node from the queue that has not left it before, and
`u` has only so many. -/
theorem exists_dequeues_visit {next : α → List α} {wanted : α → Bool} {u : List α}
    (hnext : ∀ x, u.contains x = true → ∀ y ∈ next x, u.contains y = true) {fuel : Nat} {old queue : List α}
    (hd : IsDistinct (old ++ queue)) (hu : ∀ x ∈ old ++ queue, u.contains x = true)
    (hf : u.length ≤ fuel + old.length) :
    ∃ last, Dequeues next wanted (old ++ queue) queue (visit next wanted fuel (old ++ queue) queue) last := by
  induction fuel generalizing old queue with
  | zero =>
    have hl := hd.length_le hu
    rw [List.length_append] at hl
    obtain rfl : queue = [] := List.eq_nil_of_length_eq_zero (by omega)
    exact ⟨_, .emptied _⟩
  | succ fuel ih =>
    cases queue with
    | nil => exact ⟨_, .emptied _⟩
    | cons x queue =>
      unfold visit
      cases hx : wanted x with
      | true => exact ⟨_, .found _ _ hx⟩
      | false =>
        have hassoc := seen_append old queue (unseen (old ++ x :: queue) (next x)) x
        have hd' := hd.append_unseen (next x)
        have hu' := contains_of_mem_append_unseen hnext (hu x (by simp)) hu
        rw [hassoc] at hd' hu'
        obtain ⟨last, hlast⟩ := ih hd' hu' (by rw [List.length_append, List.length_singleton]; omega)
        rw [← hassoc] at hlast
        exact ⟨last, .round hx hlast⟩

theorem isDistinct_visit {next : α → List α} {wanted : α → Bool} {fuel : Nat} {old queue : List α}
    (h : IsDistinct (old ++ queue)) : IsDistinct (old ++ visit next wanted fuel (old ++ queue) queue) := by
  induction fuel generalizing old queue with
  | zero =>
    rw [visit, List.append_nil]
    exact (List.pairwise_append.mp h).1
  | succ fuel ih =>
    cases queue with
    | nil => rw [visit]; exact h
    | cons x queue =>
      unfold visit
      by_cases hx : wanted x = true
      · rw [if_pos hx]
        rw [List.append_cons] at h
        exact (List.pairwise_append.mp h).1
      · rw [if_neg hx]
        have hassoc := seen_append old queue (unseen (old ++ x :: queue) (next x)) x
        have hd := h.append_unseen (next x)
        rw [hassoc] at hd
        have := ih hd
        rw [← hassoc, ← List.append_cons] at this
        exact this

theorem isDistinct_explore (next : α → List α) (bound : Nat) (starts : List α) :
    IsDistinct (explore next bound starts) := by
  have h : IsDistinct ([] ++ distinct starts) := isDistinct_distinct starts
  exact isDistinct_visit h

/-! ## Searches from one node -/

section
variable (next : α → List α) (wanted : α → Bool) (fuel : Nat) (x : α)

theorem isDistinct_visit_singleton : IsDistinct (visit next wanted fuel [x] [x]) := by
  have h : IsDistinct ([] ++ [x]) := List.pairwise_singleton _ _
  exact isDistinct_visit h

variable {next fuel x} {u : List α} (hnext : ∀ x, u.contains x = true → ∀ y ∈ next x, u.contains y = true)
variable (hx : u.contains x = true) (hf : u.length ≤ fuel)
include hnext hx hf

theorem exists_dequeues_singleton : ∃ last, Dequeues next wanted [x] [x] (visit next wanted fuel [x] [x]) last := by
  have hd : IsDistinct ([] ++ [x]) := List.pairwise_singleton _ _
  have hu : ∀ z ∈ [] ++ [x], u.contains z = true := List.forall_mem_singleton.mpr hx
  exact exists_dequeues_visit hnext hd hu hf

omit wanted in
/-- A search of everything ends with those nodes seen that it has taken from
the queue. -/
theorem dequeues_explore_singleton :
    Dequeues next (fun _ => false) [x] [x] (explore next fuel [x]) (explore next fuel [x]) := by
  obtain ⟨last, hlast⟩ := exists_dequeues_singleton (fun _ => false) hnext hx hf
  have heq : last = [] ++ explore next fuel [x] := hlast.last_eq rfl
  rw [heq] at hlast
  exact hlast

end

/-- Fuel that is enough for every node of a closed list is enough for the
search: more changes nothing. -/
theorem visit_eq_of_le {next : α → List α} {u : List α}
    (hnext : ∀ x, u.contains x = true → ∀ y ∈ next x, u.contains y = true) {fuel fuel' : Nat}
    {old queue : List α} (hd : IsDistinct (old ++ queue)) (hu : ∀ x ∈ old ++ queue, u.contains x = true)
    (hf : u.length ≤ fuel + old.length) (hle : fuel ≤ fuel') :
    visit next (fun _ => false) fuel' (old ++ queue) queue = visit next (fun _ => false) fuel (old ++ queue) queue := by
  induction fuel generalizing old queue fuel' with
  | zero =>
    have hl := hd.length_le hu
    rw [List.length_append] at hl
    have hq : queue = [] := List.eq_nil_of_length_eq_zero (by omega)
    subst hq
    cases fuel' with
    | zero => rfl
    | succ fuel' => rfl
  | succ fuel ih =>
    obtain ⟨fuel', rfl⟩ := Nat.exists_eq_add_of_le' (Nat.le_trans (Nat.succ_pos fuel) hle)
    cases queue with
    | nil => rfl
    | cons x queue =>
      have hassoc := seen_append old queue (unseen (old ++ x :: queue) (next x)) x
      have hd' := hd.append_unseen (next x)
      have hu' := contains_of_mem_append_unseen hnext (hu x (by simp)) hu
      rw [hassoc] at hd' hu'
      -- one unit of fuel is spent and one more node has left the queue, so the bound holds again
      have hrest := ih hd' hu' (by rw [List.length_append, List.length_singleton]; omega) (Nat.le_of_succ_le_succ hle)
      rw [← hassoc] at hrest
      simp only [visit, Bool.false_eq_true, if_false, hrest]

theorem explore_eq_of_le {next : α → List α} {u starts : List α} {bound bound' : Nat}
    (hnext : ∀ x, u.contains x = true → ∀ y ∈ next x, u.contains y = true)
    (hs : ∀ x ∈ starts, u.contains x = true) (hb : u.length ≤ bound) (hle : bound ≤ bound') :
    explore next bound' starts = explore next bound starts := by
  have hd : IsDistinct ([] ++ distinct starts) := isDistinct_distinct starts
  have hu : ∀ x ∈ [] ++ distinct starts, u.contains x = true := fun x hx => hs x (mem_of_mem_distinct hx)
  exact visit_eq_of_le hnext hd hu hb hle

section
variable {next : α → List α} {u starts : List α} {bound : Nat}
variable (hcongr : ∀ x x', (x == x') = true → ∀ y ∈ next x, (next x').contains y = true)
variable (hnext : ∀ x, u.contains x = true → ∀ y ∈ next x, u.contains y = true)
variable (hs : ∀ x ∈ starts, u.contains x = true) (hb : u.length ≤ bound)
include hcongr hnext hs hb

theorem contains_explore_of_reaches {x : α} (h : Reaches next starts x) :
    (explore next bound starts).contains x = true := by
  obtain ⟨hstart, hstep⟩ := explore_closed hnext hs hb
  induction h with
  | start hx => exact hstart _ hx
  | step _ hy ih =>
    -- the node found may be another one than the node reached, but equals it
    obtain ⟨x', hx', heq⟩ := List.contains_iff_exists_mem_beq.mp ih
    obtain ⟨y', hy', hyy⟩ := List.contains_iff_exists_mem_beq.mp (hcongr _ _ heq _ hy)
    exact contains_of_beq (hstep x' hx' y' hy') (BEq.symm hyy)

end

end

end FiniteAutomata
