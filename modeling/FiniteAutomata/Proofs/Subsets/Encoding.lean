import FiniteAutomata.Proofs.CanonicalOrder
import FiniteAutomata.Proofs.Subsets.Determinized

/-!
# When one set has one encoding

The canonical order looks at the type of a label, which equality does not. So
two encodings of one set are equal exactly when no two labels stand in
opposite orders in them (`encodings_of_sets`), and a truth value in place of
the number that it equals can turn the order round
(`canonicalSubset_of_reordered`).
-/

namespace FiniteAutomata

open Value (Composed Definite)

/-! ## Aligned lists -/

section
variable {α : Type} [BEq α] {lt : α → α → Bool}

/-- No two elements stand in opposite orders in the two lists. -/
def Aligned (lt : α → α → Bool) (xs ys : List α) : Prop :=
  ∀ x ∈ xs, ∀ x' ∈ xs, ∀ y ∈ ys, ∀ y' ∈ ys, (x == y) = true → (x' == y') = true → lt x x' = true → lt y' y = false

theorem Aligned.of_mem {xs ys xs' ys' : List α} (h : Aligned lt xs ys) (hxs : ∀ x ∈ xs', x ∈ xs)
    (hys : ∀ y ∈ ys', y ∈ ys) : Aligned lt xs' ys' :=
  fun x hx x' hx' y hy y' hy' => h x (hxs x hx) x' (hxs x' hx') y (hys y hy) y' (hys y' hy')

variable [EquivBEq α]

theorem SameSet.tail {x y : α} {xs ys : List α} (hxs : IsDistinct (x :: xs)) (hys : IsDistinct (y :: ys))
    (hxy : (x == y) = true) (h : SameSet (x :: xs) (y :: ys)) : SameSet xs ys := by
  have hnot {z w : α} {zs : List α} (hd : IsDistinct (z :: zs)) (hw : (w == z) = true) : zs.contains w = false := by
    rw [Bool.eq_false_iff]
    intro hc
    obtain ⟨v, hv, hwv⟩ := List.contains_iff_exists_mem_beq.mp hc
    have hne := (List.pairwise_cons.mp hd).1 v hv
    rw [BEq.trans (BEq.symm hw) hwv] at hne
    cases hne
  intro w
  by_cases hw : (w == x) = true
  · rw [hnot hxs hw, hnot hys (BEq.trans hw hxy)]
  · have := h w
    rw [List.contains_cons, List.contains_cons, ← BEq.congr_right hxy] at this
    simpa [hw] using this

theorem aligned_of_beq {xs ys : List α} (hxs : IsDistinct xs) (hys : IsDistinct ys) (horder : IsOrder lt ys)
    (hsx : Sorted lt xs) (hsy : Sorted lt ys) (h : (xs == ys) = true) : Aligned lt xs ys := by
  induction xs generalizing ys with
  | nil => exact fun x hx => absurd hx List.not_mem_nil
  | cons a xs ih =>
    cases ys with
    | nil => cases h
    | cons b ys =>
      obtain ⟨hab, hrest⟩ := list_beq_cons_iff.mp h
      obtain ⟨hax, hsx⟩ := List.pairwise_cons.mp hsx
      obtain ⟨hby, hsy⟩ := List.pairwise_cons.mp hsy
      -- the partner of the head is the head, and that of a later element is a later one
      have hhead {y : α} (hy : y ∈ b :: ys) (hay : (a == y) = true) : y = b :=
        hys.eq_of_beq hy List.mem_cons_self (BEq.trans (BEq.symm hay) hab)
      have htail {x y : α} (hx : x ∈ xs) (hy : y ∈ b :: ys) (hxy : (x == y) = true) : y ∈ ys := by
        rcases List.mem_cons.mp hy with rfl | hy
        · have hne := (List.pairwise_cons.mp hxs).1 x hx
          rw [BEq.trans hab (BEq.symm hxy)] at hne
          cases hne
        · exact hy
      have hlater := ih (List.pairwise_cons.mp hxs).2 (List.pairwise_cons.mp hys).2
        (horder.subset fun _ => List.mem_cons_of_mem _) hsx hsy hrest
      intro x hx x' hx' y hy y' hy' hxy hxy' hlt
      rcases List.mem_cons.mp hx with rfl | hxt
      · rw [hhead hy hxy]
        rcases List.mem_cons.mp hx' with rfl | hxt'
        · rw [hhead hy' hxy']
          refine Bool.eq_false_iff.mpr fun hbb => ?_
          rw [horder.asymm b List.mem_cons_self b List.mem_cons_self hbb] at hbb
          cases hbb
        · exact hby y' (htail hxt' hy' hxy')
      · rcases List.mem_cons.mp hx' with rfl | hxt'
        · rw [hax x hxt] at hlt
          cases hlt
        · exact hlater x hxt x' hxt' y (htail hxt hy hxy) y' (htail hxt' hy' hxy') hxy hxy' hlt

/-- Two rising lists of one set are equal when they are aligned: if the heads
differed, each would have its partner behind the other. -/
theorem beq_of_aligned {xs ys : List α} (hxs : IsDistinct xs) (hys : IsDistinct ys)
    (hrx : xs.Pairwise fun x x' => lt x x' = true) (hry : ys.Pairwise fun y y' => lt y y' = true)
    (hsame : SameSet xs ys) (h : Aligned lt xs ys) : (xs == ys) = true := by
  induction xs generalizing ys with
  | nil =>
    rw [List.isEmpty_iff.mp (hsame.isEmpty_eq.symm.trans List.isEmpty_nil)]
    exact BEq.rfl
  | cons x xs ih =>
    cases ys with
    | nil => cases hsame.isEmpty_eq
    | cons y ys =>
      obtain ⟨hx, hrx⟩ := List.pairwise_cons.mp hrx
      obtain ⟨hy, hry⟩ := List.pairwise_cons.mp hry
      have hheads : (x == y) = true := by
        obtain ⟨y', hy', hxy'⟩ := List.contains_iff_exists_mem_beq.mp
          ((hsame.iff x).mp (contains_of_mem List.mem_cons_self))
        obtain ⟨x', hx', hyx'⟩ := List.contains_iff_exists_mem_beq.mp
          ((hsame.iff y).mpr (contains_of_mem List.mem_cons_self))
        rcases List.mem_cons.mp hy' with rfl | hy''
        · exact hxy'
        · rcases List.mem_cons.mp hx' with rfl | hx''
          · exact BEq.symm hyx'
          · have hopposite := h x List.mem_cons_self x' hx' y' hy' y List.mem_cons_self hxy' (BEq.symm hyx')
              (hx x' hx'')
            rw [hy y' hy''] at hopposite
            cases hopposite
      refine list_beq_cons_iff.mpr ⟨hheads, ?_⟩
      exact ih (List.pairwise_cons.mp hxs).2 (List.pairwise_cons.mp hys).2 hrx hry (hsame.tail hxs hys hheads)
        (h.of_mem (fun _ => List.mem_cons_of_mem _) fun _ => List.mem_cons_of_mem _)

end

/-! ## Labels in canonical order -/

namespace Value

variable {xs ys : List Value}

/-- Labels of which the canonical order tells any two apart that differ. -/
structure Ordered (xs : List Value) : Prop where
  order : IsOrder OrderKey.lt (xs.map orderKey)
  total : ∀ x ∈ xs, ∀ y ∈ xs, (x == y) = false → keyLt x y = true ∨ keyLt y x = true

theorem Definite.isUndefined_eq {v : Value} (hv : Definite v) : v.isUndefined = false := by
  cases hv with
  | float hx hdef => exact hdef
  | _ => rfl

theorem ordered_of_definite (h : ∀ x ∈ xs, Definite x) : Ordered xs where
  order := isOrder_of_defined number_orderKey fun x hx => (h x hx).isUndefined_eq
  total := by
    intro x hx y hy hne
    have hx' := (h x hx).isUndefined_eq
    have hy' := (h y hy).isUndefined_eq
    rw [keyLt_iff_place_lt hx' hy', keyLt_iff_place_lt hy' hx']
    rcases lt_trichotomy x.orderKey.place y.orderKey.place with hlt | heq | hlt
    · exact .inl hlt
    · have hspelling : x.spelling = y.spelling := congrArg (fun p => (ofLex (ofLex p).2).2) heq
      rw [(h x hx).spelling_inj (h y hy) hspelling, BEq.rfl] at hne
      cases hne
    · exact .inr hlt

theorem ordered_of_composed (h : ∀ x ∈ xs, Composed false x) : Ordered xs :=
  ordered_of_definite fun x hx => .of_composed (h x hx)

theorem Ordered.subset (h : Ordered xs) (hsub : ∀ y ∈ ys, y ∈ xs) : Ordered ys where
  order := h.order.subset fun k hk => by
    obtain ⟨y, hy, rfl⟩ := List.mem_map.mp hk
    exact List.mem_map_of_mem (hsub y hy)
  total := fun x hx y hy => h.total x (hsub x hx) y (hsub y hy)

theorem Ordered.isOrder (h : Ordered xs) : IsOrder keyLt xs where
  asymm := fun _ hx _ hy => h.order.asymm _ (List.mem_map_of_mem hx) _ (List.mem_map_of_mem hy)
  trans := fun _ hx _ hy _ hz =>
    h.order.trans _ (List.mem_map_of_mem hx) _ (List.mem_map_of_mem hy) _ (List.mem_map_of_mem hz)

/-- Where equal labels are spelled alike, they are the same label, and no two
change their order. -/
theorem aligned_of_spelling {labels : List Value} (h : ∀ v ∈ labels, Definite v)
    (halike : ∀ v ∈ labels, ∀ w ∈ labels, (v == w) = true → v.spelling = w.spelling)
    (hxs : ∀ x ∈ xs, x ∈ labels) (hys : ∀ y ∈ ys, y ∈ labels) : Aligned keyLt xs ys := by
  have hsame (v w : Value) (hv : v ∈ labels) (hw : w ∈ labels) (heq : (v == w) = true) : v = w :=
    (h v hv).spelling_inj (h w hw) (halike v hv w hw heq)
  intro x hx x' hx' y hy y' hy' hxy hxy' hlt
  rw [← hsame x y (hxs x hx) (hys y hy) hxy, ← hsame x' y' (hxs x' hx') (hys y' hy') hxy']
  exact (ordered_of_definite h).isOrder.asymm x (hxs x hx) x' (hxs x' hx') hlt

end Value

open Value (keyLt Ordered)

variable {xs ys : List Value}

theorem sameSet_of_canonicalSubset_beq (h : (canonicalSubset xs == canonicalSubset ys) = true) : SameSet xs ys :=
  (sameSet_canonicalSubset xs).symm.trans ((sameSet_of_beq h).trans (sameSet_canonicalSubset ys))

theorem sorted_canonicalSubset (h : Ordered xs) : Sorted keyLt (canonicalSubset xs) :=
  sorted_sortOn (h.subset fun _ => mem_of_mem_distinct).order

theorem rising_canonicalSubset (h : Ordered xs) :
    (canonicalSubset xs).Pairwise fun x y => keyLt x y = true := by
  have hmem {x : Value} (hx : x ∈ canonicalSubset xs) : x ∈ xs := mem_of_mem_distinct (mem_canonicalSubset.mp hx)
  refine ((sorted_canonicalSubset h).and (isDistinct_canonicalSubset xs)).imp_of_mem ?_
  intro x y hx hy ⟨hnot, hne⟩
  rcases h.total x (hmem hx) y (hmem hy) hne with hlt | hlt
  · exact hlt
  · rw [show keyLt y x = false from hnot] at hlt
    cases hlt

theorem canonicalSubset_beq_iff (hxs : Ordered xs) (hys : Ordered ys) :
    (canonicalSubset xs == canonicalSubset ys) = true ↔ SameSet xs ys ∧ Aligned keyLt (distinct xs) (distinct ys) := by
  have hx := isDistinct_canonicalSubset xs
  have hy := isDistinct_canonicalSubset ys
  constructor
  · intro h
    have horder : IsOrder keyLt (canonicalSubset ys) :=
      (hys.subset fun _ hq => mem_of_mem_distinct (mem_canonicalSubset.mp hq)).isOrder
    have haligned := aligned_of_beq hx hy horder (sorted_canonicalSubset hxs) (sorted_canonicalSubset hys) h
    exact ⟨sameSet_of_canonicalSubset_beq h,
      haligned.of_mem (fun _ => mem_canonicalSubset.mpr) fun _ => mem_canonicalSubset.mpr⟩
  · intro ⟨hsame, haligned⟩
    have hsame' : SameSet (canonicalSubset xs) (canonicalSubset ys) :=
      (sameSet_canonicalSubset xs).trans (hsame.trans (sameSet_canonicalSubset ys).symm)
    exact beq_of_aligned hx hy (rising_canonicalSubset hxs) (rising_canonicalSubset hys) hsame'
      (haligned.of_mem (fun _ => mem_canonicalSubset.mp) fun _ => mem_canonicalSubset.mp)

/-! ## States for one set -/

namespace Automaton

variable {A : Automaton}

theorem subsets_beq_iff (h : Ordered A.stateLabels) {s t : Subset} (hs : s ∈ A.subsets) (ht : t ∈ A.subsets) :
    (s == t) = true ↔ SameSet s t ∧ Aligned keyLt s t := by
  obtain ⟨ps, hps, rfl⟩ := exists_encoded_of_mem_subsets hs
  obtain ⟨qs, hqs, rfl⟩ := exists_encoded_of_mem_subsets ht
  rw [canonicalSubset_beq_iff (h.subset hps.supply) (h.subset hqs.supply)]
  have hp := sameSet_canonicalSubset ps
  have hq := sameSet_canonicalSubset qs
  constructor
  · intro ⟨hsame, haligned⟩
    exact ⟨hp.trans (hsame.trans hq.symm),
      haligned.of_mem (fun _ => mem_canonicalSubset.mp) fun _ => mem_canonicalSubset.mp⟩
  · intro ⟨hsame, haligned⟩
    exact ⟨hp.symm.trans (hsame.trans hq),
      haligned.of_mem (fun _ => mem_canonicalSubset.mpr) fun _ => mem_canonicalSubset.mpr⟩

/-- On both symbols a set of two states is entered; on the second, one of them
is named by a truth value. -/
def twiceNamed : Automaton :=
  .ofDraft ⟨.nfa, [.int 0, .int 1], [.text "a", .text "b"], .int 0, [.int 1],
    [⟨.int 0, .text "a", .int 0⟩, ⟨.int 0, .text "a", .int 1⟩, ⟨.int 0, .text "b", .int 0⟩,
      ⟨.int 0, .text "b", .bool true⟩]⟩ (by decide +kernel) (by decide +kernel)

end Automaton

/-- Where the canonical order tells labels apart that differ, two lists have
equal encodings when they are one set and no two labels change their order
with the values that name them, and so for the states of the subset
construction. -/
theorem encodings_of_sets (xs ys : List Value) (A : Automaton) (hxs : Ordered xs) (hys : Ordered ys)
    (hA : Ordered A.stateLabels) :
    ((canonicalSubset xs == canonicalSubset ys) = true ↔
      SameSet xs ys ∧ Aligned keyLt (distinct xs) (distinct ys)) ∧
    ∀ s ∈ A.subsets, ∀ t ∈ A.subsets, ((s == t) = true ↔ SameSet s t ∧ Aligned keyLt s t) :=
  ⟨canonicalSubset_beq_iff hxs hys, fun _ hs _ ht => Automaton.subsets_beq_iff hA hs ht⟩

theorem encodings_of_sets_renamed :
    Ordered [.text "b", .int 1, .text "a"] ∧ Ordered [.text "a", .bool true, .text "b"] ∧
    Ordered Automaton.twiceNamed.stateLabels ∧
    (canonicalSubset [.text "b", .int 1, .text "a"] == canonicalSubset [.text "a", .bool true, .text "b"]) = true := by
  have hxs : Ordered [.text "b", .int 1, .text "a"] := Value.ordered_of_composed (by decide +kernel)
  have hys : Ordered [.text "a", .bool true, .text "b"] := Value.ordered_of_composed (by decide +kernel)
  have hA : Ordered Automaton.twiceNamed.stateLabels := Value.ordered_of_composed (by decide +kernel)
  refine ⟨hxs, hys, hA, (encodings_of_sets _ _ _ hxs hys hA).1.mpr ⟨sameMembers_iff.mp (by decide +kernel), ?_⟩⟩
  unfold Aligned
  decide +kernel

/-- The order of its elements, and which of two equal labels names an element,
change the encoding of a set. -/
theorem canonicalSubset_of_reordered :
    List.Perm [Value.bool true, .int 1, .int 0] [.int 1, .bool true, .int 0] ∧
    SameSet [Value.bool true, .int 1, .int 0] [Value.int 1, .bool true, .int 0] ∧
    (canonicalSubset [.bool true, .int 1, .int 0] == canonicalSubset [.int 1, .bool true, .int 0]) = false ∧
    ∃ s ∈ Automaton.twiceNamed.subsets, ∃ t ∈ Automaton.twiceNamed.subsets, SameSet s t ∧ (s == t) = false := by
  refine ⟨.swap _ _ _, sameMembers_iff.mp (by decide +kernel), by decide +kernel, ?_⟩
  have hfound : ∃ s ∈ Automaton.twiceNamed.subsets, ∃ t ∈ Automaton.twiceNamed.subsets,
      sameMembers s t = true ∧ (s == t) = false := by decide +kernel
  obtain ⟨s, hs, t, ht, hsame, hne⟩ := hfound
  exact ⟨s, hs, t, ht, sameMembers_iff.mp hsame, hne⟩

end FiniteAutomata
