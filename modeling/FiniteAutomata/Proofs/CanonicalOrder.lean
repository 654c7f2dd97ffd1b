import FiniteAutomata.Automaton.Determinize
import FiniteAutomata.Proofs.DefinedOrder
import FiniteAutomata.Proofs.Text.Spelling
import Mathlib.Data.Prod.Basic

/-!
# The canonical order of a set

Values without sets stand in a linear order (`Value.orderKey_lt_iff`), in
which no two have the same key (`Value.keptApart_composed`). So lists that
hold the same of them are sorted to one list
(`Value.canonicalOrder_eq_of_perm`), and where equal labels are the same
label, one subset encodes each set (`Unaliased.canonicalSubset_eq`).
-/

namespace FiniteAutomata

open Value (Composed)

/-! ## Keys with integers -/

theorem Number.lt_int (m n : Int) : (Number.int m).lt (.int n) = decide (m < n) :=
  decide_eq_decide.mpr Rat.intCast_lt_intCast

theorem Number.same_int (m n : Int) : (Number.int m).same (.int n) = decide (m = n) := by
  show ((m : Rat) == n) = decide (m = n)
  rw [Bool.eq_iff_iff, beq_iff_eq, Rat.intCast_inj, decide_eq_true_iff]

namespace Value

def integer : Value → Int
  | int n => n
  | _ => 0

def rank (v : Value) : String × Int × List Char := (v.typeName, v.integer, v.spelling)

abbrev RankLt : String × Int × List Char → String × Int × List Char → Prop :=
  Prod.Lex (· < ·) (Prod.Lex (· < ·) (· < ·))

/-- The canonical order on values with integers for numbers. -/
def Before (v w : Value) : Prop := RankLt v.rank w.rank

variable {v w : Value}

theorem number_eq_integer {sets : Bool} (hv : Composed sets v) : v.number = .int v.integer := by
  cases hv <;> rfl

theorem orderKey_lt_iff {sets : Bool} (hv : Composed sets v) (hw : Composed sets w) :
    OrderKey.lt v.orderKey w.orderKey = true ↔ Before v w := by
  unfold OrderKey.lt orderKey Before rank
  simp only [number_eq_integer hv, number_eq_integer hw, Number.lt_int, Number.same_int, Prod.lex_def]
  by_cases hname : v.typeName = w.typeName
  · simp only [hname, ne_eq, not_true, if_false]
    by_cases hint : v.integer = w.integer
    · simp [hint]
    · simp [hint]
  · simp [hname]

theorem Composed.isUndefined_eq {sets : Bool} (hv : Composed sets v) : v.isUndefined = false := by cases hv <;> rfl

theorem keptApart_composed : KeptApart orderKey (Composed false) := by
  intro v w hv hw hsame
  unfold OrderKey.same at hsame
  rw [Bool.and_eq_true, beq_iff_eq] at hsame
  exact spelling_inj hv hw hsame.2

theorem canonicalOrder_eq_of_perm {xs ys : List Value} (h : ∀ x ∈ xs, Composed false x) (hperm : xs.Perm ys) : canonicalOrder xs = canonicalOrder ys :=
  (keptApart_composed.sortsAlike number_orderKey (fun _ => Composed.isUndefined_eq) xs ys h hperm).symm

end Value

/-! ## Labels without aliases -/

/-- Labels without sets of which no two are equal and yet of different types
or forms. -/
structure Unaliased (labels : List Value) : Prop where
  composed : ∀ v ∈ labels, Composed false v
  eq_of_beq : ∀ v ∈ labels, ∀ w ∈ labels, (v == w) = true → v = w

namespace Unaliased

variable {labels xs ys : List Value}

theorem mem_of_contains (h : Unaliased labels) (hxs : ∀ x ∈ xs, x ∈ labels) {v : Value} (hv : v ∈ labels)
    (hc : xs.contains v = true) : v ∈ xs := by
  obtain ⟨x, hx, hvx⟩ := List.contains_iff_exists_mem_beq.mp hc
  rw [h.eq_of_beq v hv x (hxs x hx) hvx]
  exact hx

theorem mem_distinct_of_sameSet (h : Unaliased labels) (hxs : ∀ x ∈ xs, x ∈ labels) (hys : ∀ y ∈ ys, y ∈ labels)
    (hsame : SameSet xs ys) {v : Value} (hv : v ∈ distinct xs) : v ∈ distinct ys := by
  have hmem := mem_of_mem_distinct hv
  refine h.mem_of_contains (fun y hy => hys y (mem_of_mem_distinct hy)) (hxs v hmem) ?_
  rw [contains_distinct, ← hsame v]
  exact contains_of_mem hmem

theorem perm_distinct (h : Unaliased labels) (hxs : ∀ x ∈ xs, x ∈ labels) (hys : ∀ y ∈ ys, y ∈ labels)
    (hsame : SameSet xs ys) : (distinct xs).Perm (distinct ys) := by
  have hnodup (zs : List Value) : (distinct zs).Nodup := by
    refine (isDistinct_distinct zs).imp fun hne heq => ?_
    rw [heq, BEq.rfl] at hne
    cases hne
  rw [List.perm_ext_iff_of_nodup (hnodup xs) (hnodup ys)]
  intro v
  exact ⟨h.mem_distinct_of_sameSet hxs hys hsame, h.mem_distinct_of_sameSet hys hxs hsame.symm⟩

theorem canonicalSubset_eq (h : Unaliased labels) (hxs : ∀ x ∈ xs, x ∈ labels) (hys : ∀ y ∈ ys, y ∈ labels)
    (hsame : SameSet xs ys) : canonicalSubset xs = canonicalSubset ys :=
  Value.canonicalOrder_eq_of_perm (fun x hx => h.composed x (hxs x (mem_of_mem_distinct hx)))
    (h.perm_distinct hxs hys hsame)

end Unaliased

end FiniteAutomata
