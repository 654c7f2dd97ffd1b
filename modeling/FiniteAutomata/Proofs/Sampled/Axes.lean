import FiniteAutomata.Proofs.Draws
import FiniteAutomata.Sample.Draft

/-!
# Draws from the ranges of axes

Axes break no rule exactly when there is a kind, every range of integers has
members, and no probability of a range is known to lie outside the unit
interval (`problem?_eq_none_iff`). From such ranges every draw succeeds, and a
range of one probability gives just that one (`gives_probability`).
-/

namespace FiniteAutomata

namespace Axes

/-- An undefined bound is neither above nor below anything. -/
structure IsUnitRange (range : Binary64 × Binary64) : Prop where
  ordered : range.2.lt range.1 = false
  nonneg : range.1.lt (.finite 0) = false
  le_one : (Binary64.finite 1).lt range.2 = false

structure Sound (x : Axes) : Prop where
  kinds : x.kinds ≠ []
  states : 1 ≤ x.states.1 ∧ x.states.1 ≤ x.states.2
  alphabet : 1 ≤ x.alphabet.1 ∧ x.alphabet.1 ≤ x.alphabet.2 ∧ x.alphabet.2 ≤ maxAlphabet
  transitions : 0 ≤ x.transitions.1 ∧ x.transitions.1 ≤ x.transitions.2
  epsilon : IsUnitRange x.epsilon
  final : IsUnitRange x.final

variable {x : Axes}

theorem orderProblem?_eq_none_iff {name low high : String} {reversed : Bool} :
    orderProblem? name low high reversed = none ↔ reversed = false := by
  cases reversed with
  | false => simp [orderProblem?]
  | true => simp [orderProblem?]

theorem unless?_eq_none_iff {holds : Bool} {problem : String} : unless? holds problem = none ↔ holds = true := by
  cases holds with
  | false => simp [unless?]
  | true => simp [unless?]

theorem outsideUnit?_eq_none_iff {name : String} {range : Binary64 × Binary64} :
    outsideUnit? name range = none ↔ range.1.lt (.finite 0) = false ∧ (Binary64.finite 1).lt range.2 = false := by
  simp [outsideUnit?]

theorem problem?_eq_none_iff : x.problem? = none ↔ x.Sound := by
  unfold problem? intProblem? floatProblem?
  rw [List.findSome?_eq_none_iff]
  simp only [List.forall_mem_cons, orderProblem?_eq_none_iff, unless?_eq_none_iff,
    outsideUnit?_eq_none_iff]
  constructor
  · intro ⟨hkinds, hstates, halphabet, htransitions, hepsilon, hfinal, hlow, hlow', hhigh, hlow'', hepsilon', hfinal', _⟩
    exact {
      kinds := by simpa using hkinds
      states := by simp at hstates hlow; omega
      alphabet := by simp at halphabet hlow' hhigh; omega
      transitions := by simp at htransitions hlow''; omega
      epsilon := ⟨hepsilon, hepsilon'.1, hepsilon'.2⟩
      final := ⟨hfinal, hfinal'.1, hfinal'.2⟩ }
  · intro h
    simp [h.kinds, h.states, h.alphabet, h.transitions, h.epsilon.ordered, h.epsilon.nonneg, h.epsilon.le_one,
      h.final.ordered, h.final.nonneg, h.final.le_one]

/-- Axes are accepted when no truth value was found as a bound, every field
could be read and no rule is broken. -/
theorem read_eq_ok_iff {v : Value} : read v = .ok x ↔
    (∃ items, v = .record items) ∧ boolBound? v = none ∧ readFields v = .ok x ∧ x.Sound := by
  rw [← problem?_eq_none_iff]
  cases v with
  | record items =>
    unfold read Reading.record
    dsimp only
    constructor
    · intro h
      split at h
      · cases h
      · rename_i hbool
        split at h
        · cases h
        · rename_i y hfields
          split at h
          · cases h
          · rename_i hproblem
            cases h
            exact ⟨⟨items, rfl⟩, hbool, hfields, hproblem⟩
    · rintro ⟨-, hbool, hfields, hproblem⟩
      simp only [hbool, hfields, hproblem]
  | _ =>
    constructor
    · intro h
      cases h
    · rintro ⟨⟨items, hitems⟩, -⟩
      cases hitems

theorem sound_of_read {v : Value} (h : read v = .ok x) : x.Sound := (read_eq_ok_iff.mp h).2.2.2

end Axes

/-! ## Comparisons with rationals -/

theorem Binary64.same_finite_iff {x : Binary64} {q : Rat} : x.same (.finite q) = true ↔ x.toRat? = some q := by
  cases x with
  | negativeZero => simp [same, toRat?]
  | finite p => simp [same, toRat?]
  | infinite negative => simp [same, toRat?]
  | undefined tag => simp [same, toRat?]

theorem Binary64.finite_lt_of_same {x : Binary64} {q : Rat} (h : x.same (.finite q) = true) (p : Rat) :
    (finite p).lt x = decide (p < q) := by
  rw [same_finite_iff] at h
  cases x with
  | negativeZero => simp_all [lt, toRat?]
  | finite r => simp_all [lt, toRat?]
  | infinite negative => cases h
  | undefined tag => cases h

theorem Number.equal_of_same_finite {x y : Binary64} {q : Rat} (hx : x.same (.finite q) = true)
    (hy : y.same (.finite q) = true) : (Number.float x).equal (.float y) = true := by
  rw [Binary64.same_finite_iff] at hx hy
  unfold equal same exact
  cases x with
  | infinite negative => cases hx
  | undefined tag => cases hx
  | _ =>
    cases y with
    | infinite negative => cases hy
    | undefined tag => cases hy
    | _ => simp_all [Binary64.same, Binary64.toRat?, Binary64.isUndefined]

/-! ## Draws -/

namespace Sampling

theorem gives_unit : Gives unit fun u => ∃ q, u = .finite q ∧ 0 ≤ q ∧ q < 1 :=
  gives_draw.bind fun d _ => gives_pure ⟨d.fraction, rfl, d.fraction_nonneg, d.fraction_lt_one⟩

theorem gives_intRange {low high : Int} (h : low ≤ high) : Gives (intRange low high) fun n => low ≤ n ∧ n ≤ high := by
  unfold intRange
  rw [if_neg (Int.not_lt.mpr h)]
  exact gives_between h

theorem gives_uniform (low high : Binary64) : Gives (uniform low high) fun _ => True :=
  gives_unit.bind fun _ _ => gives_pure trivial

theorem checkOrder_floats {range : Binary64 × Binary64} (h : range.2.lt range.1 = false) (name : String) :
    checkOrder name (.float range.1) (.float range.2) = .ok () := by
  have habove : (Value.float range.1).isAbove (.float range.2) = .ok (range.2.lt range.1) := by
    simp [Value.isAbove, Value.isAboveFlat, Value.toNumber?, Number.lt, Number.exact]
  unfold checkOrder
  rw [habove, h]; rfl

theorem checkProbability_floats {range : Binary64 × Binary64} (h : Axes.IsUnitRange range) (low high : Value) :
    checkProbability low high (.float range.1) (.float range.2) = pure () := by
  unfold checkProbability Number.lt
  have hlow : (Number.float range.1).exact.lt (Number.int 0).exact = false := h.nonneg
  have hhigh : (Number.int 1).exact.lt (Number.float range.2).exact = false := h.le_one
  rw [hlow, hhigh]; rfl

theorem gives_probabilityBetween {range : Binary64 × Binary64} (h : Axes.IsUnitRange range) :
    (probabilityBetween (.float range.1) (.float range.2)).Gives fun v => ∃ p, v = .float p ∧
      ∀ q, range.1.same (.finite q) = true → range.2.same (.finite q) = true → p.same (.finite q) = true := by
  unfold probabilityBetween
  rw [checkOrder_floats h.ordered]
  show Gives (checkProbability _ _ (.float range.1) (.float range.2) >>= _) _
  rw [checkProbability_floats h, pure_bind]
  by_cases heq : (Number.float range.1).equal (.float range.2) = true
  · rw [if_pos heq]
    exact gives_pure ⟨range.1, rfl, fun _ hlow _ => hlow⟩
  · rw [if_neg heq]
    refine (gives_uniform range.1 range.2).bind fun p _ => gives_pure ⟨p, rfl, fun q hlow hhigh => ?_⟩
    exact absurd (Number.equal_of_same_finite hlow hhigh) heq

theorem gives_probability {range : Binary64 × Binary64} (h : Axes.IsUnitRange range) :
    (probability range).Gives fun p =>
      ∀ q, range.1.same (.finite q) = true → range.2.same (.finite q) = true → p.same (.finite q) = true := by
  refine (gives_probabilityBetween h).bind ?_
  rintro _ ⟨p, rfl, hp⟩
  exact gives_pure hp

end Sampling

end FiniteAutomata
