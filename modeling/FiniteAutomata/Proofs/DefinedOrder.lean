import FiniteAutomata.Proofs.Sets
import Mathlib.Algebra.Order.Ring.Unbundled.Rat
import Mathlib.Data.List.Lex
import Mathlib.Data.Prod.Lex
import Mathlib.Data.String.Basic

/-!
# The canonical order of defined labels

Only undefined numbers have no place in the canonical order. All other labels
stand in the order of their keys (`OrderKey.lt_iff_place_lt`), so a list of
them gets sorted, and sorting it again changes nothing
(`Value.canonicalOrder_canonicalOrder`). Labels of a kind are sorted into one
list, however they are listed, exactly when no two of them have the same key
(`Value.sortsAlike_iff_keptApart`).
-/

namespace FiniteAutomata

/-! ## Sorted lists stay as they are -/

section
variable {α κ : Type}

theorem takeRun_eq_of_pairwise {related : α → α → Bool} {x : α} {xs : List α}
    (h : (x :: xs).Pairwise fun a b => related a b = true) : takeRun related x xs = (x :: xs, []) := by
  induction xs generalizing x with
  | nil => rfl
  | cons y ys ih =>
    obtain ⟨hx, hys⟩ := List.pairwise_cons.mp h
    unfold takeRun
    rw [if_pos (hx y List.mem_cons_self), ih hys]; rfl

theorem firstRun_eq_of_sorted {lt : α → α → Bool} {xs : List α} (h : Sorted lt xs) : firstRun lt xs = (xs, []) := by
  cases xs with
  | nil => rfl
  | cons x xs =>
    cases xs with
    | nil => rfl
    | cons y ys =>
      have hyx : lt y x = false := (List.pairwise_cons.mp h).1 y List.mem_cons_self
      rw [firstRun, hyx, if_neg Bool.false_ne_true]
      exact takeRun_eq_of_pairwise (h.imp fun hba => by rw [hba]; rfl)

theorem sortBy_eq_self {lt : α → α → Bool} {xs : List α} (h : Sorted lt xs) : sortBy lt xs = xs := by
  unfold sortBy
  rw [firstRun_eq_of_sorted h]; rfl

theorem sortOn_eq_self {key : α → κ} {lt : κ → κ → Bool} {xs : List α}
    (h : Sorted (fun x y => lt (key x) (key y)) xs) : sortOn key lt xs = xs := by
  have hpairs : Sorted (fun a b : κ × α => lt a.1 b.1) (xs.map fun x => (key x, x)) := List.pairwise_map.mpr h
  unfold sortOn
  rw [sortBy_eq_self hpairs, List.map_map]
  exact List.map_id xs

theorem IsOrder.of_lt_iff {β : Type} [LinearOrder β] {lt : α → α → Bool} {place : α → β} {xs : List α}
    (h : ∀ x ∈ xs, ∀ y ∈ xs, (lt x y = true ↔ place x < place y)) : IsOrder lt xs where
  asymm x hx y hy hxy := by
    rw [Bool.eq_false_iff]
    intro hyx
    exact lt_asymm ((h x hx y hy).mp hxy) ((h y hy x hx).mp hyx)
  trans x hx y hy z hz hyx hzy := by
    rw [Bool.eq_false_iff, Ne, h y hy x hx, not_lt] at hyx
    rw [Bool.eq_false_iff, Ne, h z hz y hy, not_lt] at hzy
    rw [Bool.eq_false_iff, Ne, h z hz x hx, not_lt]
    exact le_trans hyx hzy

end

/-! ## Numbers -/

namespace Binary64

def place : Binary64 → ℤ ×ₗ ℚ
  | infinite negative => toLex (if negative then -1 else 1, 0)
  | x => toLex (0, x.toRat?.getD 0)

variable {x y : Binary64} (hx : x.isUndefined = false) (hy : y.isUndefined = false)
include hx hy

theorem lt_iff_place_lt : x.lt y = true ↔ x.place < y.place := by
  cases x with
  | undefined tag => cases hx
  | infinite a =>
    cases y with
    | undefined tag => cases hy
    | infinite b => cases a <;> cases b <;> simp [lt, place, Prod.Lex.toLex_lt_toLex]
    | _ => cases a <;> simp [lt, place, Prod.Lex.toLex_lt_toLex]
  | _ =>
    cases y with
    | undefined tag => cases hy
    | infinite b => cases b <;> simp [lt, place, Prod.Lex.toLex_lt_toLex]
    | _ => simp [lt, place, Prod.Lex.toLex_lt_toLex]

theorem same_iff_place_eq : x.same y = true ↔ x.place = y.place := by
  cases x with
  | undefined tag => cases hx
  | infinite a =>
    cases y with
    | undefined tag => cases hy
    | infinite b => cases a <;> cases b <;> simp [same, place]
    | _ => cases a <;> simp [same, place, toRat?]
  | _ =>
    cases y with
    | undefined tag => cases hy
    | infinite b => cases b <;> simp [same, place, toRat?]
    | _ => simp [same, place, toRat?]

end Binary64

/-! ## Keys -/

/-- A key is compared by its type first, then by its number, and by its
spelling last. -/
def OrderKey.place (k : OrderKey) : String ×ₗ (ℤ ×ₗ ℚ) ×ₗ List Char :=
  toLex (k.typeName, toLex (k.number.exact.place, k.spelling))

theorem OrderKey.lt_iff_place_lt {k l : OrderKey} (hk : k.number.exact.isUndefined = false)
    (hl : l.number.exact.isUndefined = false) : OrderKey.lt k l = true ↔ k.place < l.place := by
  unfold lt place Number.same Number.lt
  rw [Prod.Lex.toLex_lt_toLex, Prod.Lex.toLex_lt_toLex]
  dsimp only
  by_cases hname : k.typeName = l.typeName
  · rw [if_neg (not_not.mpr hname), ← Binary64.same_iff_place_eq hk hl, ← Binary64.lt_iff_place_lt hk hl]
    by_cases hsame : k.number.exact.same l.number.exact = true
    · have hnot : ¬ k.number.exact.lt l.number.exact = true := by
        rw [Binary64.lt_iff_place_lt hk hl, (Binary64.same_iff_place_eq hk hl).mp hsame]
        exact lt_irrefl _
      simp [hname, hsame, hnot]
    · simp [hname, hsame]
  · rw [if_pos hname]
    simp [hname]

theorem OrderKey.same_iff_place_eq {k l : OrderKey} (hk : k.number.exact.isUndefined = false)
    (hl : l.number.exact.isUndefined = false) : k.same l = true ↔ k.place = l.place := by
  unfold same place Number.same
  rw [Bool.and_eq_true, Bool.and_eq_true, Binary64.same_iff_place_eq hk hl, beq_iff_eq, beq_iff_eq, toLex_inj,
    Prod.mk_inj, toLex_inj, Prod.mk_inj, and_assoc]

namespace Value

/-- Whether this is an undefined number. Labels with parts are defined
whatever their parts are. -/
def isUndefined : Value → Bool
  | float x => x.isUndefined
  | _ => false

theorem isUndefined_number (v : Value) : v.number.exact.isUndefined = v.isUndefined := by
  cases v <;> rfl

def keyLt (v w : Value) : Bool := OrderKey.lt v.orderKey w.orderKey

/-! ## Keys that hold the number of the label

All that follows is about any such keys, since limits of the runtime can
change the spelling in a key.
-/

/-- The order of labels by their keys. -/
def lowerBy (key : Value → OrderKey) (v w : Value) : Bool := OrderKey.lt (key v) (key w)

variable {key : Value → OrderKey} {v w : Value} {xs ys : List Value}

/-- However labels of the kind are listed, they are sorted into one list. -/
def SortsAlike (key : Value → OrderKey) (P : Value → Prop) : Prop :=
  ∀ xs ys : List Value, (∀ x ∈ xs, P x) → xs.Perm ys → sortOn key OrderKey.lt ys = sortOn key OrderKey.lt xs

/-- No two labels of the kind have the same key. -/
def KeptApart (key : Value → OrderKey) (P : Value → Prop) : Prop :=
  ∀ v w, P v → P w → (key v).same (key w) = true → v = w

theorem sortOn_eq_self_of_lowerBy (h : Sorted (lowerBy key) xs) : sortOn key OrderKey.lt xs = xs := sortOn_eq_self h

section
variable (hkey : ∀ v, (key v).number = v.number)
include hkey

theorem isUndefined_key (v : Value) : (key v).number.exact.isUndefined = v.isUndefined := by
  rw [hkey v, isUndefined_number]

section
variable (hv : v.isUndefined = false) (hw : w.isUndefined = false)
include hv hw

theorem lowerBy_iff_place_lt : lowerBy key v w = true ↔ (key v).place < (key w).place :=
  OrderKey.lt_iff_place_lt ((isUndefined_key hkey v).trans hv) ((isUndefined_key hkey w).trans hw)

theorem same_key_iff_place_eq : (key v).same (key w) = true ↔ (key v).place = (key w).place :=
  OrderKey.same_iff_place_eq ((isUndefined_key hkey v).trans hv) ((isUndefined_key hkey w).trans hw)

theorem same_key_iff : (key v).same (key w) = true ↔ lowerBy key v w = false ∧ lowerBy key w v = false := by
  rw [same_key_iff_place_eq hkey hv hw, Bool.eq_false_iff, Bool.eq_false_iff, Ne, Ne, lowerBy_iff_place_lt hkey hv hw,
    lowerBy_iff_place_lt hkey hw hv, not_lt, not_lt, and_comm]
  exact le_antisymm_iff

theorem sortOn_pair_of_same (h : (key v).same (key w) = true) : sortOn key OrderKey.lt [v, w] = [v, w] :=
  sortOn_eq_self_of_lowerBy (List.pairwise_pair.mpr ((same_key_iff hkey hv hw).mp h).2)

end

/-! ## Sorted lists of labels -/

section
variable (h : ∀ x ∈ xs, x.isUndefined = false)
include h

theorem isOrder_of_defined : IsOrder OrderKey.lt (xs.map key) := by
  have hnumber : ∀ k ∈ xs.map key, k.number.exact.isUndefined = false := by
    intro k hk
    obtain ⟨x, hx, rfl⟩ := List.mem_map.mp hk
    exact (isUndefined_key hkey x).trans (h x hx)
  exact .of_lt_iff fun k hk l hl => OrderKey.lt_iff_place_lt (hnumber k hk) (hnumber l hl)

theorem sorted_sortOn_of_defined : Sorted (lowerBy key) (sortOn key OrderKey.lt xs) :=
  sorted_sortOn (isOrder_of_defined hkey h)

end

/-! ## Kinds of labels -/

section
variable {P : Value → Prop} (hP : ∀ v, P v → v.isUndefined = false)
include hP

theorem KeptApart.eq_of_sorted (h : KeptApart key P) (hxs : ∀ x ∈ xs, P x) (hperm : xs.Perm ys)
    (hsx : Sorted (lowerBy key) xs) (hsy : Sorted (lowerBy key) ys) : xs = ys := by
  refine hperm.eq_of_pairwise ?_ hsx hsy
  intro v w hv hw hwv hvw
  have hv := hxs v hv
  have hw := hxs w (hperm.mem_iff.mpr hw)
  exact h v w hv hw ((same_key_iff hkey (hP v hv) (hP w hw)).mpr ⟨hvw, hwv⟩)

theorem KeptApart.eq_sortOn_iff (h : KeptApart key P) (hxs : ∀ x ∈ xs, P x) :
    ys = sortOn key OrderKey.lt xs ↔ ys.Perm xs ∧ Sorted (lowerBy key) ys := by
  have hperm : (sortOn key OrderKey.lt xs).Perm xs := perm_sortOn _ _ xs
  have hsorted := sorted_sortOn_of_defined hkey fun x hx => hP x (hxs x hx)
  constructor
  · rintro rfl
    exact ⟨hperm, hsorted⟩
  · intro ⟨hys, hsy⟩
    exact h.eq_of_sorted hkey hP (fun y hy => hxs y (hys.mem_iff.mp hy)) (hys.trans hperm.symm) hsy hsorted

theorem KeptApart.sortsAlike (h : KeptApart key P) : SortsAlike key P := by
  intro xs ys hxs hperm
  have hys : ∀ y ∈ ys, P y := fun y hy => hxs y (hperm.mem_iff.mpr hy)
  obtain ⟨hsame, hsorted⟩ := (h.eq_sortOn_iff hkey hP hys).mp rfl
  exact (h.eq_sortOn_iff hkey hP hxs).mpr ⟨hsame.trans hperm.symm, hsorted⟩

/-- Only equal labels stay in the order in which they are listed in both
orders. -/
theorem SortsAlike.keptApart (h : SortsAlike key P) : KeptApart key P := by
  intro v w hv hw hsame
  have hturned : (key w).same (key v) = true :=
    (same_key_iff hkey (hP w hw) (hP v hv)).mpr ((same_key_iff hkey (hP v hv) (hP w hw)).mp hsame).symm
  have halike := h [v, w] [w, v] (by simp [hv, hw]) (.swap _ _ _)
  rw [sortOn_pair_of_same hkey (hP v hv) (hP w hw) hsame, sortOn_pair_of_same hkey (hP w hw) (hP v hv) hturned] at halike
  exact (List.cons.inj halike).1.symm

theorem sortsAlike_iff_keptApart : SortsAlike key P ↔ KeptApart key P :=
  ⟨fun h => h.keptApart hkey hP, fun h => h.sortsAlike hkey hP⟩

theorem KeptApart.isStrictTotalOrder (h : KeptApart key P) :
    IsStrictTotalOrder {v // P v} fun v w => lowerBy key v w = true where
  trichotomous := by
    intro ⟨v, hv⟩ ⟨w, hw⟩ hvw hwv
    rw [Bool.not_eq_true] at hvw hwv
    exact Subtype.ext (h v w hv hw ((same_key_iff hkey (hP v hv) (hP w hw)).mpr ⟨hvw, hwv⟩))
  irrefl := by
    intro ⟨v, hv⟩
    rw [lowerBy_iff_place_lt hkey (hP v hv) (hP v hv)]
    exact lt_irrefl _
  trans := by
    intro ⟨u, hu⟩ ⟨v, hv⟩ ⟨w, hw⟩
    rw [lowerBy_iff_place_lt hkey (hP u hu) (hP v hv), lowerBy_iff_place_lt hkey (hP v hv) (hP w hw),
      lowerBy_iff_place_lt hkey (hP u hu) (hP w hw)]
    exact lt_trans

end

end

/-! ## Keys without limits -/

theorem number_orderKey (v : Value) : v.orderKey.number = v.number := rfl

theorem keyLt_iff_place_lt (hv : v.isUndefined = false) (hw : w.isUndefined = false) :
    keyLt v w = true ↔ v.orderKey.place < w.orderKey.place := lowerBy_iff_place_lt number_orderKey hv hw

section
variable (h : ∀ x ∈ xs, x.isUndefined = false)
include h

theorem sorted_canonicalOrder : Sorted keyLt (canonicalOrder xs) := sorted_sortOn_of_defined number_orderKey h

theorem canonicalOrder_canonicalOrder : canonicalOrder (canonicalOrder xs) = canonicalOrder xs :=
  sortOn_eq_self (sorted_canonicalOrder h)

end

end Value

end FiniteAutomata
