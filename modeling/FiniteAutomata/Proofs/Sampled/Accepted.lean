import FiniteAutomata.Proofs.Readings
import FiniteAutomata.Proofs.Sampled.Axes

/-!
# Accepted axes

The rules for probabilities only turn away what is known to be wrong. So a
range of accepted axes lies in the unit interval exactly when its bounds are
defined numbers (`IsUnitRange.isWithinUnit_iff`). Truth values are looked for
in lists and tuples, and a range of integers can be read from a set too: of
what is accepted, a truth value can only be a bound in a set
(`accepted_axes_within_bounds`).
-/

namespace FiniteAutomata

namespace Binary64

/-- The comparison that says yes, which undefined numbers never do. -/
def le (x y : Binary64) : Bool := x.lt y || (Number.float x).equal (.float y)

theorem le_eq (x y : Binary64) : x.le y = (x.lt y || (x.same y && !x.isUndefined)) := rfl

theorem eq_of_toRat? {x : Binary64} {p : Rat} (h : x.toRat? = some p) : x = .finite p ∨ x = .negativeZero ∧ p = 0 := by
  cases x with
  | negativeZero => cases h; exact Or.inr ⟨rfl, rfl⟩
  | finite q => cases h; exact Or.inl rfl
  | infinite a => cases h
  | undefined tag => cases h

theorem lt_of_toRat? {x y : Binary64} {p q : Rat} (hx : x.toRat? = some p) (hy : y.toRat? = some q) :
    x.lt y = decide (p < q) := by
  rcases eq_of_toRat? hx with rfl | ⟨rfl, rfl⟩
  · rcases eq_of_toRat? hy with rfl | ⟨rfl, rfl⟩ <;> rfl
  · rcases eq_of_toRat? hy with rfl | ⟨rfl, rfl⟩ <;> rfl

theorem equal_of_toRat? {x y : Binary64} {p q : Rat} (hx : x.toRat? = some p) (hy : y.toRat? = some q) :
    (Number.float x).equal (.float y) = (p == q) := by
  rcases eq_of_toRat? hx with rfl | ⟨rfl, rfl⟩
  · rcases eq_of_toRat? hy with rfl | ⟨rfl, rfl⟩ <;> exact Bool.and_true _
  · rcases eq_of_toRat? hy with rfl | ⟨rfl, rfl⟩ <;> exact Bool.and_true _

theorem le_iff_of_toRat? {x y : Binary64} {p q : Rat} (hx : x.toRat? = some p) (hy : y.toRat? = some q) :
    x.le y = true ↔ y.lt x = false := by
  unfold le
  rw [lt_of_toRat? hx hy, equal_of_toRat? hx hy, lt_of_toRat? hy hx, Bool.or_eq_true, decide_eq_true_iff,
    decide_eq_false_iff_not, Rat.not_lt, Rat.le_iff_lt_or_eq, beq_iff_eq]

theorem le_iff {x y : Binary64} :
    x.le y = true ↔ x.isUndefined = false ∧ y.isUndefined = false ∧ y.lt x = false := by
  cases x with
  | undefined s => simp [le_eq, lt, isUndefined]
  | infinite a =>
    cases y with
    | infinite b => cases a <;> cases b <;> decide
    | _ => simp [le_eq, lt, same, isUndefined, toRat?]
  | _ =>
    cases y with
    | infinite b => simp [le_eq, lt, same, isUndefined, toRat?]
    | undefined t => simp [le_eq, lt, same, isUndefined, toRat?]
    | _ =>
      rw [le_iff_of_toRat? rfl rfl]
      simp [isUndefined]

end Binary64

namespace Axes

/-! ## Probabilities -/

/-- The bounds lie in the unit interval, the lower one first. -/
structure IsWithinUnit (range : Binary64 × Binary64) : Prop where
  nonneg : (Binary64.finite 0).le range.1 = true
  ordered : range.1.le range.2 = true
  le_one : range.2.le (.finite 1) = true

theorem IsUnitRange.isWithinUnit_iff {range : Binary64 × Binary64} (h : IsUnitRange range) :
    IsWithinUnit range ↔ range.1.isUndefined = false ∧ range.2.isUndefined = false := by
  constructor
  · intro hwithin
    obtain ⟨hlow, hhigh, -⟩ := Binary64.le_iff.mp hwithin.ordered
    exact ⟨hlow, hhigh⟩
  · intro ⟨hlow, hhigh⟩
    exact ⟨Binary64.le_iff.mpr ⟨rfl, hlow, h.nonneg⟩, Binary64.le_iff.mpr ⟨hlow, hhigh, h.ordered⟩,
      Binary64.le_iff.mpr ⟨hhigh, rfl, h.le_one⟩⟩

/-! ## Truth values as bounds -/

def intRangeNames : List String := [statesName, alphabetName, transitionsName]

def HasBool (v : Value) : Prop := ∃ vs, Reading.elements? v = some vs ∧ ∃ b, .bool b ∈ vs

theorem isBool_iff {v : Value} : isBool v = true ↔ ∃ b, v = .bool b := by
  cases v with
  | bool b => simp [isBool]
  | _ => simp [isBool]

theorem boolBound?_eq_none_iff {v : Value} :
    boolBound? v = none ↔ ∀ name ∈ intRangeNames, ∀ u, v.field? name = some u → hasBoolBound u = false := by
  unfold boolBound? intRangeNames
  rw [List.find?_eq_none]
  refine forall₂_congr fun name _ => ?_
  cases v.field? name with
  | none => simp
  | some u => simp

/-- A pair with a truth value is overlooked when it is a set. -/
theorem isSet_of_hasBool {read : Value → Reading Int} {v : Value} {x : Int × Int} (h : Reading.pair read v = .ok x)
    (hbool : HasBool v) (hmissed : hasBoolBound v = false) : ∃ vs, v = .set vs ∨ v = .frozenSet vs := by
  obtain ⟨low, high, helements, -, -⟩ := Reading.pair_eq_ok h
  obtain ⟨vs, hvs, b, hb⟩ := hbool
  rw [helements] at hvs
  cases hvs
  have hfound : (isBool low || isBool high) = true := by
    rw [Bool.or_eq_true, isBool_iff, isBool_iff]
    rcases List.mem_cons.mp hb with hb | hb
    · exact Or.inl ⟨b, hb.symm⟩
    · exact Or.inr ⟨b, (List.mem_singleton.mp hb).symm⟩
  cases v with
  | list vs => cases helements; rw [hasBoolBound, hfound] at hmissed; cases hmissed
  | tuple vs => cases helements; rw [hasBoolBound, hfound] at hmissed; cases hmissed
  | set vs => exact ⟨vs, Or.inl rfl⟩
  | frozenSet vs => exact ⟨vs, Or.inr rfl⟩
  | _ => cases helements

theorem exists_pair_of_readFields {v : Value} {x : Axes} (h : readFields v = .ok x) {name : String}
    (hname : name ∈ intRangeNames) {u : Value} (hu : v.field? name = some u) :
    ∃ range, Reading.pair Reading.int u = .ok range := by
  simp only [readFields, Reading.next_eq_ok_iff] at h
  obtain ⟨_, _, ⟨_, _, ⟨_, transitions, hgiven, htransitions, -⟩, -⟩, -⟩ := h
  obtain ⟨_, alphabet, ⟨_, states, -, hstates, -⟩, halphabet, -⟩ := hgiven
  simp only [intRangeNames, List.mem_cons, List.not_mem_nil, or_false] at hname
  rcases hname with rfl | rfl | rfl
  · exact ⟨states, Reading.fieldOr_eq_ok hstates hu⟩
  · exact ⟨alphabet, Reading.fieldOr_eq_ok halphabet hu⟩
  · exact ⟨transitions, Reading.fieldOr_eq_ok htransitions hu⟩

/-- Accepted axes break no rule. Their probabilities lie in the unit interval
unless a bound is undefined, and a truth value is a bound of integers only in
a set. -/
theorem accepted_axes_within_bounds {v : Value} {x : Axes} (h : read v = .ok x) : x.Sound ∧
    (∀ range ∈ [x.epsilon, x.final],
      IsWithinUnit range ↔ range.1.isUndefined = false ∧ range.2.isUndefined = false) ∧
    ∀ name ∈ intRangeNames, ∀ u, v.field? name = some u → HasBool u → ∃ vs, u = .set vs ∨ u = .frozenSet vs := by
  obtain ⟨-, hbool, hfields, hsound⟩ := read_eq_ok_iff.mp h
  refine ⟨hsound, ?_, fun name hname u hu hhas => ?_⟩
  · rw [List.forall_mem_cons, List.forall_mem_singleton]
    exact ⟨hsound.epsilon.isWithinUnit_iff, hsound.final.isWithinUnit_iff⟩
  · obtain ⟨range, hrange⟩ := exists_pair_of_readFields hfields hname hu
    exact isSet_of_hasBool hrange hhas (boolBound?_eq_none_iff.mp hbool name hname u hu)

/-- The number of states is given as a value, and both probabilities as one
pair. -/
def looseRecord (states : Value) (range : Binary64 × Binary64) : Value :=
  .record [(.text statesName, states), (.text epsilonName, .list [.float range.1, .float range.2]),
    (.text finalName, .list [.float range.1, .float range.2])]

def looseAxes (states : Int × Int) (range : Binary64 × Binary64) : Axes :=
  { standard with states := states, epsilon := range, final := range }

theorem accepted_axes_within_bounds_loose :
    read (looseRecord (.list [.int 1, .int 3]) (.finite 0, .finite 1)) = .ok (looseAxes (1, 3) (.finite 0, .finite 1)) ∧
      IsWithinUnit (.finite 0, .finite 1) := by
  have hread : read (looseRecord (.list [.int 1, .int 3]) (.finite 0, .finite 1)) =
    .ok (looseAxes (1, 3) (.finite 0, .finite 1)) := rfl
  obtain ⟨-, hunit, -⟩ := accepted_axes_within_bounds hread
  exact ⟨hread, (hunit _ List.mem_cons_self).mpr ⟨rfl, rfl⟩⟩

/-- Undefined bounds of a probability are accepted, and so is a truth value in
a set. -/
theorem accepted_axes_out_of_bounds : ∃ x, read (looseRecord (.set [.bool true, .int 3]) (.undefined 0, .undefined 0)) =
    .ok x ∧ ¬ IsWithinUnit x.epsilon ∧ HasBool (.set [.bool true, .int 3]) := by
  refine ⟨looseAxes (1, 3) (.undefined 0, .undefined 0), rfl, ?_, _, rfl, true, List.mem_cons_self⟩
  intro h
  cases h.nonneg

end Axes

end FiniteAutomata
