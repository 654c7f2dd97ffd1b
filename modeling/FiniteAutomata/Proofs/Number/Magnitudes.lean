import FiniteAutomata.Number.Shortest
import Mathlib.Algebra.Order.Field.Power
import Mathlib.Algebra.Order.Floor.Ring
import Mathlib.Data.Rat.Cast.Order
import Mathlib.Data.Rat.Floor
import Mathlib.Tactic.Linarith
import Mathlib.Tactic.NormNum
import Mathlib.Tactic.Positivity
import Mathlib.Tactic.Ring

/-!
# Powers and magnitudes

The powers of two and of ten are those of the rationals (`Binary64.twoPow_eq`,
`Decimal.tenPow_eq`), and the magnitude of a positive number is the exponent
of the last power that it reaches (`Binary64.magnitude_spec`,
`Decimal.tenPow_magnitude_le`).
-/

namespace FiniteAutomata

theorem powerOf_eq_zpow (base : Nat) (e : Int) :
    (if 0 ≤ e then (Nat.pow base e.toNat : ℚ) else mkRat 1 (Nat.pow base (-e).toNat)) = (base : ℚ) ^ e := by
  by_cases h : 0 ≤ e
  · obtain ⟨n, rfl⟩ := Int.eq_ofNat_of_zero_le h
    simp
  · obtain ⟨n, hn⟩ := Int.eq_ofNat_of_zero_le (show 0 ≤ -e by omega)
    obtain rfl : e = -n := by omega
    rw [if_neg h, Rat.mkRat_eq_div]
    simp

/-- The exponents of two powers around numerator and denominator give those
around the quotient. -/
theorem div_between {base : ℚ} (hbase : 1 < base) {p d : ℚ} {a b : Int} (hd : 0 < d) (hp : base ^ a ≤ p)
    (hp' : p < base ^ (a + 1)) (hdb : base ^ b ≤ d) (hd' : d < base ^ (b + 1)) :
    base ^ (a - b - 1) < p / d ∧ p / d < base ^ (a - b + 1) := by
  have hpos : 0 < base := lt_trans one_pos hbase
  have hlow : base ^ (a - b - 1) * d < base ^ a := by
    calc base ^ (a - b - 1) * d < base ^ (a - b - 1) * base ^ (b + 1) := by gcongr
      _ = base ^ a := by rw [← zpow_add₀ hpos.ne']; congr 1; ring
  have hhigh : base ^ (a + 1) ≤ base ^ (a - b + 1) * d := by
    calc base ^ (a + 1) = base ^ (a - b + 1) * base ^ b := by rw [← zpow_add₀ hpos.ne']; congr 1; ring
      _ ≤ base ^ (a - b + 1) * d := by gcongr
  exact ⟨(lt_div_iff₀ hd).mpr (lt_of_lt_of_le hlow hp), (div_lt_iff₀ hd).mpr (lt_of_lt_of_le hp' hhigh)⟩

theorem natAbs_num_div_den {q : ℚ} (hq : 0 < q) : (q.num.natAbs : ℚ) / q.den = q := by
  have hnum : (q.num.natAbs : ℚ) = (q.num : ℚ) := by
    rw [Nat.cast_natAbs, abs_of_pos (Rat.num_pos.mpr hq)]
  rw [hnum, Rat.num_div_den]

namespace Binary64

theorem twoPow_eq (e : Int) : twoPow e = 2 ^ e := powerOf_eq_zpow 2 e

theorem log2_spec {n : Nat} (hn : n ≠ 0) : (2 : ℚ) ^ (n.log2 : Int) ≤ n ∧ (n : ℚ) < 2 ^ ((n.log2 : Int) + 1) := by
  constructor
  · exact_mod_cast Nat.log2_self_le hn
  · exact_mod_cast Nat.lt_log2_self

variable {q : ℚ}

theorem magnitude_spec (hq : 0 < q) : 2 ^ magnitude q ≤ q ∧ q < 2 ^ (magnitude q + 1) := by
  obtain ⟨hnum, hnum'⟩ := log2_spec (Int.natAbs_ne_zero.mpr (Rat.num_pos.mpr hq).ne')
  obtain ⟨hden, hden'⟩ := log2_spec q.den_nz
  obtain ⟨hlow, hhigh⟩ := div_between one_lt_two (by exact_mod_cast q.den_pos) hnum hnum' hden hden'
  rw [natAbs_num_div_den hq] at hlow hhigh
  unfold magnitude
  dsimp only
  rw [twoPow_eq]
  split
  · rename_i h
    exact ⟨h, hhigh⟩
  · rename_i h
    rw [sub_add_cancel]
    exact ⟨hlow.le, not_le.mp h⟩

theorem magnitude_eq_iff (hq : 0 < q) {e : Int} : magnitude q = e ↔ 2 ^ e ≤ q ∧ q < 2 ^ (e + 1) := by
  obtain ⟨hlow, hhigh⟩ := magnitude_spec hq
  constructor
  · rintro rfl
    exact ⟨hlow, hhigh⟩
  · intro ⟨hlow', hhigh'⟩
    have h₁ := (zpow_lt_zpow_iff_right₀ (one_lt_two (α := ℚ))).mp (lt_of_le_of_lt hlow hhigh')
    have h₂ := (zpow_lt_zpow_iff_right₀ (one_lt_two (α := ℚ))).mp (lt_of_le_of_lt hlow' hhigh)
    omega

end Binary64

namespace Decimal

theorem tenPow_eq (e : Int) : tenPow e = 10 ^ e := powerOf_eq_zpow 10 e

theorem digitCount_pos (n : Nat) : 0 < digitCount n := List.length_pos_iff.mpr Nat.toDigits_ne_nil

theorem lt_pow_digitCount (n : Nat) : n < 10 ^ digitCount n :=
  (Nat.length_toDigits_le_iff (by decide) (digitCount_pos n)).mp le_rfl

theorem pow_pred_digitCount_le {n : Nat} (hn : n ≠ 0) : 10 ^ (digitCount n - 1) ≤ n := by
  by_contra hlt
  by_cases hone : digitCount n = 1
  · rw [hone] at hlt
    omega
  · have hpos := digitCount_pos n
    have hle := (Nat.length_toDigits_le_iff (by decide) (by omega)).mpr (not_le.mp hlt)
    change digitCount n ≤ digitCount n - 1 at hle
    omega

theorem digitCount_spec {n : Nat} (hn : n ≠ 0) :
    (10 : ℚ) ^ ((digitCount n : Int) - 1) ≤ n ∧ (n : ℚ) < 10 ^ (digitCount n : Int) := by
  constructor
  · rw [show (digitCount n : Int) - 1 = ((digitCount n - 1 : Nat) : Int) by have := digitCount_pos n; omega]
    exact_mod_cast pow_pred_digitCount_le hn
  · exact_mod_cast lt_pow_digitCount n

theorem tenPow_magnitude_le {q : ℚ} (hq : 0 < q) : 10 ^ magnitude q ≤ q := by
  obtain ⟨hnum, hnum'⟩ := digitCount_spec (Int.natAbs_ne_zero.mpr (Rat.num_pos.mpr hq).ne')
  obtain ⟨hden, hden'⟩ := digitCount_spec q.den_nz
  obtain ⟨hlow, -⟩ := div_between (show (1 : ℚ) < 10 by norm_num) (by exact_mod_cast q.den_pos) hnum
    (by rwa [sub_add_cancel]) hden (by rwa [sub_add_cancel])
  rw [natAbs_num_div_den hq] at hlow
  unfold magnitude
  dsimp only
  rw [tenPow_eq]
  split
  · rename_i h
    exact h
  · refine le_trans (le_of_eq ?_) hlow.le
    congr 1
    ring

end Decimal

end FiniteAutomata
