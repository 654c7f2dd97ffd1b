import FiniteAutomata.Proofs.Number.Magnitudes

/-!
# Numbers that round to a representable one

A representable number is an integer times the spacing around it, so its
neighbours are a spacing away, or half of that below a power of two. So every
number that is off by no more than half a unit in `10 ^ 16` rounds to it
(`Binary64.round_eq_of_close`).
-/

namespace FiniteAutomata

namespace Binary64

/-! ## The nearest integer -/

theorem halfEven_eq_of_near {x : ℚ} {k : Int} (h : |x - k| < 1 / 2) : halfEven x = k := by
  obtain ⟨hlow, hhigh⟩ := abs_lt.mp h
  unfold halfEven
  dsimp only
  rw [Rat.mkRat_eq_div]
  by_cases hk : (k : ℚ) ≤ x
  · have hfloor : x.floor = k := by
      refine le_antisymm (Int.lt_add_one_iff.mp (Rat.floor_lt_iff.mpr ?_)) (Rat.le_floor_iff.mpr hk)
      push_cast
      linarith
    rw [hfloor, if_pos]
    push_cast
    linarith
  · have hfloor : x.floor = k - 1 := by
      refine le_antisymm (Int.lt_add_one_iff.mp (Rat.floor_lt_iff.mpr ?_)) (Rat.le_floor_iff.mpr ?_)
      · push_cast
        linarith
      · push_cast
        linarith
    rw [hfloor, if_neg, if_pos]
    · ring
    · push_cast
      linarith
    · push_cast
      linarith

theorem abs_sub_halfEven_le (x : ℚ) : |x - halfEven x| ≤ 1 / 2 := by
  have hlow : (x.floor : ℚ) ≤ x := Rat.le_floor_iff.mp le_rfl
  have hhigh : x < ((x.floor + 1 : Int) : ℚ) := Rat.floor_lt_iff.mp (Int.lt_succ _)
  push_cast at hhigh
  rw [abs_le]
  unfold halfEven
  dsimp only
  rw [Rat.mkRat_eq_div]
  push_cast
  split
  · constructor <;> linarith
  · split
    · constructor <;> linarith
    · split
      · constructor <;> linarith
      · constructor <;> linarith

/-! ## Spacing -/

variable {q v : ℚ}

def grain (q : ℚ) : Int := max (magnitude q - 52) (-1074)

theorem spacing_eq (q : ℚ) : spacing q = 2 ^ grain q := twoPow_eq _

theorem spacing_pos (q : ℚ) : 0 < spacing q := by
  rw [spacing_eq]
  positivity

theorem two_zpow_sub_one (e : Int) : (2 : ℚ) ^ (e - 1) = 2 ^ e / 2 := by
  rw [zpow_sub_one₀ two_ne_zero, div_eq_mul_inv]

theorem exists_zpow_eq_mul_spacing {e : Int} (he : grain q ≤ e) : ∃ n : Int, (2 : ℚ) ^ e = n * spacing q := by
  obtain ⟨n, hn⟩ := Int.eq_ofNat_of_zero_le (show 0 ≤ e - grain q by omega)
  refine ⟨2 ^ n, ?_⟩
  rw [spacing_eq, show e = (n : Int) + grain q by omega, zpow_add₀ two_ne_zero]
  push_cast
  rw [zpow_natCast]

/-- Apart from zero, whose negative is another number, rounding does not
depend on the sign. -/
theorem round_neg (hv : v ≠ 0) : round (-v) = (round v).neg := by
  unfold round
  rw [if_neg hv, if_neg (neg_ne_zero.mpr hv)]
  dsimp only
  rcases lt_or_gt_of_ne hv with h | h
  · rw [decide_eq_true h, decide_eq_false (not_lt.mpr (neg_nonneg.mpr h.le))]
    simp only [Bool.false_eq_true, if_false, if_true]
    split
    · rfl
    · split
      · rfl
      · rename_i hne
        rw [neg, if_neg (neg_ne_zero.mpr hne), neg_neg]
  · rw [decide_eq_false (not_lt.mpr h.le), decide_eq_true (neg_neg_of_pos h)]
    simp only [Bool.false_eq_true, if_false, if_true, neg_neg]
    split
    · rfl
    · split
      · rfl
      · rename_i hne
        rw [neg, if_neg hne]

structure IsPositive (q : ℚ) : Prop where
  pos : 0 < q
  representable : round q = .finite q

theorem round_of_pos (hq : 0 < q) : round q =
    if twoPow 1024 ≤ (halfEven (q / spacing q) : ℚ) * spacing q then infinite false
    else finite ((halfEven (q / spacing q) : ℚ) * spacing q) := by
  unfold round
  rw [if_neg hq.ne']
  dsimp only
  rw [decide_eq_false (not_lt.mpr hq.le)]
  simp only [Bool.false_eq_true, if_false]
  split
  · rfl
  · split
    · rename_i h
      rw [h]
    · rfl

theorem IsPositive.spec (h : IsPositive q) : q < 2 ^ (1024 : Int) ∧ ∃ k : Int, q = k * spacing q := by
  have hround := h.representable
  rw [round_of_pos h.pos, twoPow_eq] at hround
  split at hround
  · cases hround
  · rename_i hlt
    have heq := Binary64.finite.inj hround
    rw [heq] at hlt
    exact ⟨not_le.mp hlt, _, heq.symm⟩

/-- What rounds to a positive number is at least half the least one, and it is
not much above the greatest. -/
theorem between_of_round (hv : 0 < v) (hq : 0 < q) (h : round v = .finite q) :
    2 ^ (-1075 : Int) ≤ v ∧ v < 2 ^ (1025 : Int) := by
  rw [round_of_pos hv, twoPow_eq] at h
  split at h
  · cases h
  · rename_i hlt
    have heq := Binary64.finite.inj h
    rw [heq, not_le] at hlt
    have hpos := spacing_pos v
    have hnear := abs_le.mp (abs_sub_halfEven_le (v / spacing v))
    generalize halfEven (v / spacing v) = k at heq hnear
    have hk : (1 : ℚ) ≤ k := by
      have hprod : 0 < k * spacing v := lt_of_lt_of_eq hq heq.symm
      exact_mod_cast pos_of_mul_pos_left hprod hpos.le
    have hlow : (1 / 2 : ℚ) ≤ v / spacing v := by linarith
    have hhigh : v / spacing v ≤ 2 * k := by linarith
    rw [le_div_iff₀ hpos] at hlow
    rw [div_le_iff₀ hpos] at hhigh
    have hleast : (2 : ℚ) ^ (-1074 : Int) ≤ spacing v := by
      rw [spacing_eq]
      exact zpow_le_zpow_right₀ one_le_two (le_max_right _ _)
    constructor
    · rw [show (-1075 : Int) = -1074 - 1 by norm_num, two_zpow_sub_one]
      linarith
    · rw [show (1024 : Int) = 1025 - 1 by norm_num, two_zpow_sub_one] at hlt
      linarith

/-- An integer number of spacings is rounded to, from less than half a spacing
away. -/
theorem IsPositive.round_eq_of_near (h : IsPositive q) (hv : 0 < v) {k : Int} (hk : q = k * spacing v)
    (hnear : |v - q| < spacing v / 2) : round v = .finite q := by
  have hpos := spacing_pos v
  have hhalf : halfEven (v / spacing v) = k := by
    apply halfEven_eq_of_near
    rw [hk] at hnear
    rw [show v / spacing v - k = (v - k * spacing v) / spacing v by field_simp, abs_div, abs_of_pos hpos,
      div_lt_iff₀ hpos]
    linarith
  rw [round_of_pos hv, hhalf, ← hk, twoPow_eq, if_neg (not_le.mpr h.spec.1)]

/-! ## Powers of two between the numbers -/

section
variable (h : IsPositive q)
include h

theorem IsPositive.neg_1074_le_magnitude : -1074 ≤ magnitude q := by
  obtain ⟨-, k, hk⟩ := h.spec
  have hpos := spacing_pos q
  have hk1 : (1 : ℚ) ≤ k := by
    have hprod : 0 < k * spacing q := lt_of_lt_of_eq h.pos hk
    exact_mod_cast pos_of_mul_pos_left hprod hpos.le
  have hle : (2 : ℚ) ^ (-1074 : Int) ≤ q := by
    calc (2 : ℚ) ^ (-1074 : Int) ≤ spacing q := by
          rw [spacing_eq]
          exact zpow_le_zpow_right₀ one_le_two (le_max_right _ _)
      _ ≤ k * spacing q := by nlinarith
      _ = q := hk.symm
  have hlt := (zpow_lt_zpow_iff_right₀ (one_lt_two (α := ℚ))).mp (lt_of_le_of_lt hle (magnitude_spec h.pos).2)
  omega

theorem IsPositive.grain_le : grain q ≤ magnitude q := by
  have := h.neg_1074_le_magnitude
  unfold grain
  omega

/-- Another power of two that is no smaller than the spacing is at least a
spacing away. -/
theorem IsPositive.spacing_le_sub {e : Int} (he : grain q ≤ e) (hne : q ≠ 2 ^ e) : spacing q ≤ |q - 2 ^ e| := by
  obtain ⟨-, k, hk⟩ := h.spec
  obtain ⟨n, hn⟩ := exists_zpow_eq_mul_spacing he
  have hpos := spacing_pos q
  have hdiff : q - 2 ^ e = ((k - n : Int) : ℚ) * spacing q := by
    rw [hn]
    push_cast
    linarith
  have hone : (1 : ℚ) ≤ |((k - n : Int) : ℚ)| := by
    have hint : k - n ≠ 0 := by
      intro hzero
      apply hne
      rw [hzero] at hdiff
      push_cast at hdiff
      linarith
    exact_mod_cast Int.one_le_abs hint
  rw [hdiff, abs_mul, abs_of_pos hpos]
  nlinarith

end

/-! ## Close numbers -/

/-- How far off a close number is, in powers of two: less than half a spacing,
and less than a quarter when the number is a power of two itself. -/
theorem div_lt_zpow {c : ℚ} {e : Int} (hc : c ≤ 2 ^ e) : c / (2 * 10 ^ 16) < 2 ^ (e - 54) := by
  have hpos : (0 : ℚ) < 2 ^ (e - 54) := by positivity
  have hpow : (2 : ℚ) ^ e = 2 ^ (e - 54) * 2 ^ 54 := by
    rw [← zpow_natCast, ← zpow_add₀ two_ne_zero]
    congr 1
    push_cast
    ring
  rw [div_lt_iff₀ (by positivity)]
  rw [hpow] at hc
  nlinarith

theorem zpow_le_spacing (q : ℚ) : 2 ^ (magnitude q - 52) ≤ spacing q := by
  rw [spacing_eq]
  exact zpow_le_zpow_right₀ one_le_two (le_max_left _ _)

section
variable (h : IsPositive q) (hclose : |v - q| ≤ q / (2 * 10 ^ 16))
include h hclose

theorem IsPositive.pos_of_close : 0 < v := by
  have := (abs_le.mp hclose).1
  have := h.pos
  linarith

theorem IsPositive.sub_lt_half_spacing : |v - q| < 2 ^ (magnitude q - 52) / 2 := by
  rw [← two_zpow_sub_one, show magnitude q - 52 - 1 = magnitude q + 1 - 54 by ring]
  exact lt_of_le_of_lt hclose (div_lt_zpow (magnitude_spec h.pos).2.le)

/-- A power of two is a whole spacing away, so a close number stays on the
side of it that `q` is on. -/
theorem IsPositive.sub_lt_sub_zpow {e : Int} (he : grain q ≤ e) (hne : q ≠ 2 ^ e) : |v - q| < |q - 2 ^ e| := by
  have hoff := h.sub_lt_half_spacing hclose
  have hspacing := zpow_le_spacing q
  have hpos : (0 : ℚ) < 2 ^ (magnitude q - 52) := by positivity
  exact lt_of_lt_of_le (by linarith) (h.spacing_le_sub he hne)

theorem IsPositive.round_eq_of_level (hlevel : magnitude v = magnitude q) : round v = .finite q := by
  have hspacing : spacing v = spacing q := by rw [spacing_eq, spacing_eq, grain, grain, hlevel]
  have hoff := h.sub_lt_half_spacing hclose
  have hle := zpow_le_spacing q
  obtain ⟨-, k, hk⟩ := h.spec
  rw [← hspacing] at hk hle
  exact h.round_eq_of_near (h.pos_of_close hclose) hk (by linarith)

/-- Below a power of two the spacing may be half of that above, but the power
itself is closer still. -/
theorem IsPositive.round_eq_of_zpow {e : Int} (hq : q = 2 ^ e) (hv : v < 2 ^ e) : round v = .finite q := by
  have hoff : |v - q| < 2 ^ (e - 54) := lt_of_le_of_lt hclose (div_lt_zpow hq.le)
  have hpow : (2 : ℚ) ^ (e - 54) < 2 ^ (e - 1) := zpow_lt_zpow_right₀ one_lt_two (by omega)
  have hpos := h.pos_of_close hclose
  have hlevel : magnitude v = e - 1 := by
    rw [magnitude_eq_iff hpos, sub_add_cancel]
    refine ⟨?_, hv⟩
    rw [abs_of_neg (by linarith)] at hoff
    rw [two_zpow_sub_one] at hpow ⊢
    linarith
  have hgrain : grain v ≤ e := by
    have he : magnitude q = e := by
      rw [magnitude_eq_iff h.pos, hq]
      exact ⟨le_rfl, zpow_lt_zpow_right₀ one_lt_two (by omega)⟩
    have := h.neg_1074_le_magnitude
    unfold grain
    omega
  obtain ⟨n, hn⟩ := exists_zpow_eq_mul_spacing hgrain
  have hspacing := zpow_le_spacing v
  rw [hlevel, show e - 1 - 52 = e - 54 + 1 by ring, zpow_add_one₀ two_ne_zero] at hspacing
  exact h.round_eq_of_near hpos (hq.trans hn) (by linarith)

theorem IsPositive.round_eq_of_close : round v = .finite q := by
  obtain ⟨hlow, hhigh⟩ := magnitude_spec h.pos
  have hgrain := h.grain_le
  have hpos := h.pos_of_close hclose
  rcases lt_or_ge v (2 ^ magnitude q) with hbelow | habove
  · refine h.round_eq_of_zpow hclose ?_ hbelow
    by_contra hne
    have hlt := h.sub_lt_sub_zpow hclose hgrain hne
    rw [abs_of_neg (by linarith), abs_of_nonneg (by linarith)] at hlt
    linarith
  · rcases lt_or_ge v (2 ^ (magnitude q + 1)) with hbelow | habove'
    · exact h.round_eq_of_level hclose ((magnitude_eq_iff hpos).mpr ⟨habove, hbelow⟩)
    · have hlt := h.sub_lt_sub_zpow hclose (show grain q ≤ magnitude q + 1 by omega) hhigh.ne
      rw [abs_of_pos (by linarith), abs_of_neg (by linarith)] at hlt
      linarith

end

end Binary64

end FiniteAutomata
