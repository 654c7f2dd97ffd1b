/-!
# Sorting

A stable sort by insertion. It starts from the run at the head of a list and
finds the place of every further element by halving, so few comparisons are
made. Main statements: `perm_sortBy`, that nothing is lost or added, whatever
`lt` is, and `sorted_sortBy`, that the result is in order when the elements
have an order.
-/

namespace FiniteAutomata

variable {α κ : Type}

/-! ## The run at the head -/

def takeRun (related : α → α → Bool) (x : α) : List α → List α × List α
  | [] => ([x], [])
  | y :: ys =>
    if related x y then (takeRun related y ys).map (x :: ·) id else ([x], y :: ys)

/-- The run at the head of a list, in rising order, and the rest. A run that
falls is turned round. -/
def firstRun (lt : α → α → Bool) : List α → List α × List α
  | [] => ([], [])
  | [x] => ([x], [])
  | x :: y :: ys =>
    if lt y x then (takeRun (fun a b => lt b a) x (y :: ys)).map List.reverse id
    else takeRun (fun a b => !lt b a) x (y :: ys)

/-! ## Insertion -/

/-- Inserts `x` behind the middle element, unless it is below that, where
`bound` is a bound on the length. -/
def insertHalving (lt : α → α → Bool) (x : α) : Nat → List α → List α
  | 0, ys => x :: ys
  | bound + 1, ys =>
    match ys.drop (ys.length / 2) with
    | [] => x :: ys
    | y :: after =>
      if lt x y then insertHalving lt x bound (ys.take (ys.length / 2)) ++ y :: after
      else ys.take (ys.length / 2) ++ y :: insertHalving lt x bound after

def insertSorted (lt : α → α → Bool) (ys : List α) (x : α) : List α := insertHalving lt x ys.length ys

def sortBy (lt : α → α → Bool) (xs : List α) : List α :=
  match firstRun lt xs with
  | (run, rest) => rest.foldl (insertSorted lt) run

def sortOn (key : α → κ) (lt : κ → κ → Bool) (xs : List α) : List α :=
  (sortBy (fun a b => lt a.1 b.1) (xs.map fun x => (key x, x))).map Prod.snd

/-! ## Elements -/

theorem takeRun_append (related : α → α → Bool) (x : α) (xs : List α) :
    (takeRun related x xs).1 ++ (takeRun related x xs).2 = x :: xs := by
  induction xs generalizing x with
  | nil => rfl
  | cons y ys ih =>
    unfold takeRun
    split
    · exact congrArg (x :: ·) (ih y)
    · rfl

theorem perm_firstRun (lt : α → α → Bool) :
    ∀ xs : List α, ((firstRun lt xs).1 ++ (firstRun lt xs).2).Perm xs
  | [] => List.Perm.refl _
  | [_] => List.Perm.refl _
  | x :: y :: ys => by
    rw [firstRun]
    split
    · refine ((List.reverse_perm _).append_right _).trans ?_
      exact List.Perm.of_eq (takeRun_append (fun a b => lt b a) x (y :: ys))
    · exact List.Perm.of_eq (takeRun_append (fun a b => !lt b a) x (y :: ys))

theorem perm_insertHalving (lt : α → α → Bool) (x : α) (bound : Nat) (ys : List α) :
    (insertHalving lt x bound ys).Perm (x :: ys) := by
  induction bound generalizing ys with
  | zero => exact List.Perm.refl _
  | succ bound ih =>
    unfold insertHalving
    split
    · exact List.Perm.refl _
    · rename_i y after h
      have hys : ys.take (ys.length / 2) ++ y :: after = ys := by rw [← h, List.take_append_drop]
      split
      · refine ((ih _).append_right _).trans ?_
        rw [List.cons_append, hys]
      · refine (((ih after).cons y).append_left _).trans ?_
        refine ((List.Perm.swap x y after).append_left _).trans ?_
        refine List.perm_middle.trans ?_
        rw [hys]

theorem perm_foldl_insertSorted (lt : α → α → Bool) (xs ys : List α) :
    (xs.foldl (insertSorted lt) ys).Perm (ys ++ xs) := by
  induction xs generalizing ys with
  | nil => rw [List.append_nil]; exact List.Perm.refl _
  | cons x xs ih =>
    refine (ih _).trans ?_
    refine ((perm_insertHalving lt x ys.length ys).append_right xs).trans ?_
    exact List.perm_middle.symm

theorem perm_sortBy (lt : α → α → Bool) (xs : List α) : (sortBy lt xs).Perm xs :=
  (perm_foldl_insertSorted lt _ _).trans (perm_firstRun lt xs)

theorem perm_sortOn (key : α → κ) (lt : κ → κ → Bool) (xs : List α) : (sortOn key lt xs).Perm xs := by
  have h := (perm_sortBy (fun a b => lt a.1 b.1) (xs.map fun x => (key x, x))).map Prod.snd
  simpa [List.map_map, Function.comp_def, sortOn] using h

/-! ## Order -/

/-- No element is below an earlier one. -/
def Sorted (lt : α → α → Bool) (xs : List α) : Prop := xs.Pairwise fun x y => lt y x = false

/-- An order in which elements may be level with each other. -/
structure IsOrder (lt : α → α → Bool) (xs : List α) : Prop where
  asymm : ∀ x ∈ xs, ∀ y ∈ xs, lt x y = true → lt y x = false
  trans : ∀ x ∈ xs, ∀ y ∈ xs, ∀ z ∈ xs, lt y x = false → lt z y = false → lt z x = false

namespace IsOrder

variable {lt : α → α → Bool} {xs ys : List α}

theorem subset (h : IsOrder lt xs) (hsub : ∀ y ∈ ys, y ∈ xs) : IsOrder lt ys where
  asymm x hx y hy := h.asymm x (hsub x hx) y (hsub y hy)
  trans x hx y hy z hz := h.trans x (hsub x hx) y (hsub y hy) z (hsub z hz)

theorem perm (h : IsOrder lt xs) (hp : ys.Perm xs) : IsOrder lt ys :=
  h.subset fun _ hy => hp.mem_iff.mp hy

end IsOrder

section
variable {lt : α → α → Bool}

theorem mem_of_mem_takeRun (related : α → α → Bool) {x y : α} {xs : List α}
    (h : y ∈ (takeRun related x xs).1) : y ∈ x :: xs := by
  rw [← takeRun_append related x xs]
  exact List.mem_append_left _ h

theorem takeRun_eq_cons (related : α → α → Bool) (x : α) (xs : List α) :
    ∃ ys, (takeRun related x xs).1 = x :: ys := by
  cases xs with
  | nil => exact ⟨[], rfl⟩
  | cons y ys =>
    unfold takeRun
    split
    · exact ⟨_, rfl⟩
    · exact ⟨[], rfl⟩

theorem pairwise_takeRun {related : α → α → Bool} {R : α → α → Prop}
    (hR : ∀ x y, related x y = true → R x y) {x : α} {xs : List α}
    (htrans : ∀ a ∈ x :: xs, ∀ b ∈ x :: xs, ∀ c ∈ x :: xs, R a b → R b c → R a c) :
    (takeRun related x xs).1.Pairwise R := by
  induction xs generalizing x with
  | nil => exact List.pairwise_singleton _ _
  | cons y ys ih =>
    have hrun := ih fun a ha b hb c hc =>
      htrans a (List.mem_cons_of_mem _ ha) b (List.mem_cons_of_mem _ hb) c (List.mem_cons_of_mem _ hc)
    unfold takeRun
    split
    · rename_i hxy
      refine List.pairwise_cons.mpr ⟨fun z hz => ?_, hrun⟩
      have hz' : z ∈ (takeRun related y ys).1 := hz
      obtain ⟨zs, hzs⟩ := takeRun_eq_cons related y ys
      rw [hzs] at hrun hz'
      rcases List.mem_cons.mp hz' with rfl | hmem
      · exact hR x z hxy
      · exact htrans x List.mem_cons_self y (List.mem_cons_of_mem _ List.mem_cons_self) z
          (List.mem_cons_of_mem _ (mem_of_mem_takeRun related hz)) (hR x y hxy)
          ((List.pairwise_cons.mp hrun).1 z hmem)
    · exact List.pairwise_singleton _ _

theorem sorted_firstRun : ∀ {xs : List α}, IsOrder lt xs → Sorted lt (firstRun lt xs).1
  | [], _ => List.Pairwise.nil
  | [_], _ => List.pairwise_singleton _ _
  | x :: y :: ys, h => by
    rw [firstRun]
    split
    · refine List.pairwise_reverse.mpr ?_
      have hfall : (takeRun (fun a b => lt b a) x (y :: ys)).1.Pairwise fun a b => lt b a = true := by
        refine pairwise_takeRun (fun _ _ hab => hab) fun a ha b hb c hc hab hbc => ?_
        refine Bool.of_not_eq_false fun hac => ?_
        rw [h.trans b hb a ha c hc (h.asymm b hb a ha hab) hac] at hbc
        cases hbc
      have hmem {z : α} (hz : z ∈ (takeRun (fun a b => lt b a) x (y :: ys)).1) : z ∈ x :: y :: ys :=
        mem_of_mem_takeRun _ hz
      exact hfall.imp_of_mem fun ha hb hab => h.asymm _ (hmem hb) _ (hmem ha) hab
    · exact pairwise_takeRun (fun a b hab => by simpa using hab) h.trans

theorem Sorted.append_of_lt {x y : α} {before after inserted : List α} (hs : Sorted lt (before ++ y :: after))
    (h : IsOrder lt (x :: (before ++ y :: after))) (hins : Sorted lt inserted) (hperm : inserted.Perm (x :: before))
    (hlt : lt x y = true) : Sorted lt (inserted ++ y :: after) := by
  obtain ⟨-, htail, hcross⟩ := List.pairwise_append.mp hs
  obtain ⟨hyafter, -⟩ := List.pairwise_cons.mp htail
  have hx : x ∈ x :: (before ++ y :: after) := List.mem_cons_self
  have hy : y ∈ x :: (before ++ y :: after) := by simp
  have hyx : lt y x = false := h.asymm x hx y hy hlt
  refine List.pairwise_append.mpr ⟨hins, htail, fun a ha b hb => ?_⟩
  rcases List.mem_cons.mp (hperm.mem_iff.mp ha) with rfl | ha
  · rcases List.mem_cons.mp hb with rfl | hb
    · exact hyx
    · exact h.trans _ hx y hy b (by simp [hb]) hyx (hyafter b hb)
  · exact hcross a ha b hb

theorem Sorted.append_cons_of_not_lt {x y : α} {before after inserted : List α} (hs : Sorted lt (before ++ y :: after))
    (h : IsOrder lt (x :: (before ++ y :: after))) (hins : Sorted lt inserted) (hperm : inserted.Perm (x :: after))
    (hlt : lt x y = false) : Sorted lt (before ++ y :: inserted) := by
  obtain ⟨hbefore, htail, hcross⟩ := List.pairwise_append.mp hs
  obtain ⟨hyafter, -⟩ := List.pairwise_cons.mp htail
  have hx : x ∈ x :: (before ++ y :: after) := List.mem_cons_self
  have hy : y ∈ x :: (before ++ y :: after) := by simp
  have hmem (z : α) (hz : z ∈ inserted) : z = x ∨ z ∈ after := List.mem_cons.mp (hperm.mem_iff.mp hz)
  refine List.pairwise_append.mpr ⟨hbefore, List.pairwise_cons.mpr ⟨fun b hb => ?_, hins⟩, fun a ha b hb => ?_⟩
  · rcases hmem b hb with rfl | hb
    · exact hlt
    · exact hyafter b hb
  · have hya := hcross a ha y List.mem_cons_self
    rcases List.mem_cons.mp hb with rfl | hb
    · exact hya
    · rcases hmem b hb with rfl | hb
      · exact h.trans a (by simp [ha]) y hy _ hx hya hlt
      · exact hcross a ha b (List.mem_cons_of_mem _ hb)

theorem sorted_insertHalving {x : α} {bound : Nat} {ys : List α} (h : IsOrder lt (x :: ys))
    (hs : Sorted lt ys) (hb : ys.length ≤ bound) : Sorted lt (insertHalving lt x bound ys) := by
  induction bound generalizing ys with
  | zero =>
    rw [List.length_eq_zero_iff.mp (Nat.le_zero.mp hb)]
    exact List.pairwise_singleton _ _
  | succ bound ih =>
    unfold insertHalving
    split
    · rename_i hdrop
      have hlen := List.drop_eq_nil_iff.mp hdrop
      have hnil : ys = [] := List.length_eq_zero_iff.mp (by omega)
      rw [hnil]
      exact List.pairwise_singleton _ _
    · rename_i y after hdrop
      have hys : ys.take (ys.length / 2) ++ y :: after = ys := by rw [← hdrop, List.take_append_drop]
      have hlen := congrArg List.length hys
      simp only [List.length_append, List.length_take, List.length_cons] at hlen
      -- each half is shorter than the list, so the bound on its length is one less
      have hshort : (ys.take (ys.length / 2)).length ≤ bound := by rw [List.length_take]; omega
      generalize ys.take (ys.length / 2) = before at hys hshort ⊢
      subst hys
      obtain ⟨hbefore, htail, -⟩ := List.pairwise_append.mp hs
      split
      · rename_i hlt
        have hsub : IsOrder lt (x :: before) := h.subset (List.forall_mem_cons.mpr
          ⟨List.mem_cons_self, fun z hz => List.mem_cons_of_mem _ (List.mem_append_left _ hz)⟩)
        exact hs.append_of_lt h (ih hsub hbefore hshort) (perm_insertHalving lt x bound before) hlt
      · rename_i hlt
        have hsub : IsOrder lt (x :: after) := h.subset (List.forall_mem_cons.mpr
          ⟨List.mem_cons_self, fun z hz =>
            List.mem_cons_of_mem _ (List.mem_append_right _ (List.mem_cons_of_mem _ hz))⟩)
        exact hs.append_cons_of_not_lt h (ih hsub (List.pairwise_cons.mp htail).2 (by omega))
          (perm_insertHalving lt x bound after) (Bool.eq_false_iff.mpr hlt)

theorem sorted_foldl_insertSorted {xs ys : List α} (h : IsOrder lt (ys ++ xs)) (hs : Sorted lt ys) :
    Sorted lt (xs.foldl (insertSorted lt) ys) := by
  induction xs generalizing ys with
  | nil => exact hs
  | cons x xs ih =>
    have hperm : (insertSorted lt ys x ++ xs).Perm (ys ++ x :: xs) :=
      ((perm_insertHalving lt x ys.length ys).append_right xs).trans List.perm_middle.symm
    refine ih (h.perm hperm) (sorted_insertHalving (h.subset ?_) hs (Nat.le_refl _))
    intro z hz
    rcases List.mem_cons.mp hz with rfl | hz
    · exact List.mem_append_right _ List.mem_cons_self
    · exact List.mem_append_left _ hz

theorem sorted_sortBy {xs : List α} (h : IsOrder lt xs) : Sorted lt (sortBy lt xs) :=
  sorted_foldl_insertSorted (h.perm (perm_firstRun lt xs)) (sorted_firstRun h)

end

theorem sorted_sortOn {key : α → κ} {lt : κ → κ → Bool} {xs : List α} (h : IsOrder lt (xs.map key)) :
    Sorted (fun x y => lt (key x) (key y)) (sortOn key lt xs) := by
  have hkey {p : κ × α} (hp : p ∈ xs.map fun x => (key x, x)) : p.1 = key p.2 ∧ p.1 ∈ xs.map key := by
    obtain ⟨x, hx, rfl⟩ := List.mem_map.mp hp
    exact ⟨rfl, List.mem_map_of_mem hx⟩
  have hpairs : IsOrder (fun a b : κ × α => lt a.1 b.1) (xs.map fun x => (key x, x)) :=
    ⟨fun p hp q hq => h.asymm _ (hkey hp).2 _ (hkey hq).2,
      fun p hp q hq r hr => h.trans _ (hkey hp).2 _ (hkey hq).2 _ (hkey hr).2⟩
  refine List.pairwise_map.mpr ((sorted_sortBy hpairs).imp_of_mem fun hp hq hpq => ?_)
  show lt (key _) (key _) = false
  rw [← (hkey ((perm_sortBy _ _).mem_iff.mp hp)).1, ← (hkey ((perm_sortBy _ _).mem_iff.mp hq)).1]
  exact hpq

end FiniteAutomata
