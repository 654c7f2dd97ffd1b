import FiniteAutomata.Proofs.Number.Layout
import FiniteAutomata.Proofs.Number.Shortest

/-!
# Floating point numbers are read back from their texts

The reader of numerals finds a number again in its text
(`Binary64.plainFloat?_text`), so different numbers have different texts, and
none has the text of an integer (`Binary64.exists_mark_mem_text`).
-/

namespace FiniteAutomata

/-- The exponents up to which the reader computes powers of ten are wide
enough. -/
theorem two_zpow_le_ten_zpow (n : Nat) : (2 : ℚ) ^ ((3 * n : Nat) : Int) ≤ 10 ^ (n : Int) := by
  rw [zpow_natCast, zpow_natCast, pow_mul]
  exact pow_le_pow_left₀ (by norm_num) (by norm_num) n

theorem ten_zpow_neg_le_two_zpow (n : Nat) : (10 : ℚ) ^ (-(n : Int)) ≤ 2 ^ (-((3 * n : Nat) : Int)) := by
  rw [zpow_neg, zpow_neg]
  exact inv_anti₀ (by positivity) (two_zpow_le_ten_zpow n)

namespace Numeral

open Binary64 (IsPositive)

/-! ## Decimals that round to a number -/

section
variable {d : Decimal} {q : ℚ} (hd : 0 < d.value) (hq : 0 < q) (h : Binary64.round d.value = .finite q)
include hd

theorem digits_ne_zero : d.digits ≠ 0 := by
  intro hzero
  rw [Decimal.value_eq, hzero, Nat.cast_zero, zero_mul] at hd
  exact lt_irrefl _ hd

include hq h

theorem digitCount_add_exponent_between : -400 ≤ (Decimal.digitCount d.digits : Int) + d.exponent ∧
    (Decimal.digitCount d.digits : Int) + d.exponent ≤ 400 := by
  obtain ⟨hlow, hhigh⟩ := Binary64.between_of_round hd hq h
  obtain ⟨hleast, hmost⟩ := Decimal.digitCount_spec (digits_ne_zero hd)
  have hpow : (0 : ℚ) < 10 ^ d.exponent := by positivity
  rw [Decimal.value_eq] at hlow hhigh
  constructor
  · have hlt : (10 : ℚ) ^ (-(400 : Nat) : Int) < 10 ^ ((Decimal.digitCount d.digits : Int) + d.exponent) := by
      calc (10 : ℚ) ^ (-(400 : Nat) : Int) ≤ 2 ^ (-((3 * 400 : Nat) : Int)) := ten_zpow_neg_le_two_zpow 400
        _ ≤ 2 ^ (-1075 : Int) := zpow_le_zpow_right₀ one_le_two (by norm_num)
        _ ≤ (d.digits : ℚ) * 10 ^ d.exponent := hlow
        _ < 10 ^ (Decimal.digitCount d.digits : Int) * 10 ^ d.exponent := by gcongr
        _ = 10 ^ ((Decimal.digitCount d.digits : Int) + d.exponent) := (zpow_add₀ (by norm_num) _ _).symm
    have := (zpow_lt_zpow_iff_right₀ (show (1 : ℚ) < 10 by norm_num)).mp hlt
    omega
  · have hlt : (10 : ℚ) ^ ((Decimal.digitCount d.digits : Int) - 1 + d.exponent) < 10 ^ ((400 : Nat) : Int) := by
      calc (10 : ℚ) ^ ((Decimal.digitCount d.digits : Int) - 1 + d.exponent)
          = 10 ^ ((Decimal.digitCount d.digits : Int) - 1) * 10 ^ d.exponent := zpow_add₀ (by norm_num) _ _
        _ ≤ (d.digits : ℚ) * 10 ^ d.exponent := by gcongr
        _ < 2 ^ (1025 : Int) := hhigh
        _ ≤ 2 ^ ((3 * 400 : Nat) : Int) := zpow_le_zpow_right₀ one_le_two (by norm_num)
        _ ≤ 10 ^ ((400 : Nat) : Int) := two_zpow_le_ten_zpow 400
    have := (zpow_lt_zpow_iff_right₀ (show (1 : ℚ) < 10 by norm_num)).mp hlt
    omega

theorem ofDecimal_eq (negative : Bool) : ofDecimal negative d = .finite (if negative then -q else q) := by
  obtain ⟨hlow, hhigh⟩ := digitCount_add_exponent_between hd hq h
  unfold ofDecimal
  dsimp only
  rw [if_neg (digits_ne_zero hd), if_neg (by omega), if_neg (by omega)]
  cases negative with
  | false => exact h
  | true =>
    rw [if_pos rfl, if_pos rfl, Binary64.round_neg hd.ne', h, Binary64.neg, if_neg hq.ne']

end

/-! ## Texts that start with a digit -/

section
variable {c : Char} (hc : c.isDigit = true) (cs : List Char)
include hc

theorem toLower_eq_self : c.toLower = c := by
  have hle : c.val ≤ '9'.val := of_decide_eq_true ((Bool.and_eq_true _ _).mp hc).2
  unfold Char.toLower
  rw [dif_neg]
  intro ⟨hge, _⟩
  exact absurd (UInt32.le_trans hge hle) (by decide)

theorem ofList_map_toLower_ne (word : String) {l : Char} (hword : word.toList.head? = some l)
    (hl : l.isDigit = false) : String.ofList ((c :: cs).map Char.toLower) ≠ word := by
  rintro rfl
  rw [String.toList_ofList, List.map_cons, toLower_eq_self hc] at hword
  rw [← Option.some.inj hword, hc] at hl
  cases hl

/-- A text that starts with a digit, with or without a minus before it, is no
name of a number. -/
theorem plainFloat?_digit : plainFloat? (c :: cs) = (decimal? (c :: cs)).map (ofDecimal false) ∧
    plainFloat? ('-' :: c :: cs) = (decimal? (c :: cs)).map (ofDecimal true) := by
  have hinf := ofList_map_toLower_ne hc cs "inf" rfl rfl
  have hinfinity := ofList_map_toLower_ne hc cs "infinity" rfl rfl
  have hnan := ofList_map_toLower_ne hc cs "nan" rfl rfl
  have hsigned : signed (c :: cs) = (false, c :: cs) := by
    unfold signed
    split
    · rename_i heq
      rw [(List.cons.inj heq).1] at hc
      cases hc
    · rename_i heq
      rw [(List.cons.inj heq).1] at hc
      cases hc
    · rfl
  have hminus : signed ('-' :: c :: cs) = (true, c :: cs) := rfl
  unfold plainFloat?
  rw [hsigned, hminus]
  dsimp only
  rw [decide_eq_false hinf, decide_eq_false hinfinity, Bool.or_self]
  constructor
  · rw [if_neg Bool.false_ne_true, if_neg hnan]
  · rw [if_neg Bool.false_ne_true, if_neg hnan]

end

end Numeral

namespace Binary64

/-! ## Representable numbers -/

theorem IsRepresentable.neg {q : ℚ} (h : (finite q).IsRepresentable) (hq : q < 0) : IsPositive (-q) where
  pos := neg_pos.mpr hq
  representable := by
    have hround : round q = .finite q := h
    rw [round_neg hq.ne, hround, Binary64.neg, if_neg hq.ne]

/-! ## Texts of positive numbers -/

theorem exists_positiveText_eq_cons {q : ℚ} (h : IsPositive q) :
    ∃ c cs, positiveText q = c :: cs ∧ c.isDigit = true :=
  Decimal.exists_layout_eq_cons (Decimal.digits_shortest_ne_zero h)

theorem map_decimal?_positiveText {q : ℚ} (h : IsPositive q) (negative : Bool) :
    (Numeral.decimal? (positiveText q)).map (Numeral.ofDecimal negative) =
      some (.finite (if negative then -q else q)) := by
  obtain ⟨d, hd, hvalue⟩ := Decimal.reads_layout (Decimal.digits_shortest_ne_zero h)
  have hround := Decimal.round_shortest h
  rw [← hvalue] at hround
  have hpos : 0 < d.value := by
    rw [hvalue, Decimal.value_eq]
    have := Nat.pos_of_ne_zero (Decimal.digits_shortest_ne_zero h)
    positivity
  unfold positiveText
  rw [hd, Option.map_some, Numeral.ofDecimal_eq hpos h.pos hround]

/-! ## Texts -/

variable {x : Binary64}

theorem plainFloat?_text (hx : x.IsRepresentable) (hdef : x.isUndefined = false) :
    Numeral.plainFloat? x.text.toList = some x := by
  cases x with
  | negativeZero => rfl
  | infinite negative => cases negative <;> decide +kernel
  | undefined tag => cases hdef
  | finite q =>
    unfold text
    dsimp only
    rcases lt_trichotomy q 0 with hq | rfl | hq
    · have hpos := IsRepresentable.neg hx hq
      obtain ⟨c, cs, hcs, hc⟩ := exists_positiveText_eq_cons hpos
      have hread := map_decimal?_positiveText hpos true
      rw [if_neg hq.ne, if_pos hq, String.toList_ofList, hcs, (Numeral.plainFloat?_digit hc cs).2, ← hcs, hread,
        if_pos rfl, neg_neg]
    · rfl
    · have hpos : IsPositive q := ⟨hq, hx⟩
      obtain ⟨c, cs, hcs, hc⟩ := exists_positiveText_eq_cons hpos
      have hread := map_decimal?_positiveText hpos false
      rw [if_neg hq.ne', if_neg hq.le.not_gt, String.toList_ofList, hcs, (Numeral.plainFloat?_digit hc cs).1, ← hcs,
        hread, if_neg Bool.false_ne_true]

/-! ## The characters of a text -/

section
variable (hx : x.IsRepresentable) (hdef : x.isUndefined = false)
include hdef

theorem isNumberChar_of_mem_text : ∀ c ∈ x.text.toList, isNumberChar c = true := by
  cases x with
  | negativeZero => exact List.all_eq_true.mp rfl
  | infinite negative => cases negative <;> exact List.all_eq_true.mp rfl
  | undefined tag => cases hdef
  | finite q =>
    unfold text
    dsimp only
    split
    · exact List.all_eq_true.mp rfl
    · split
      · rw [String.toList_ofList]
        exact List.forall_mem_cons.mpr ⟨rfl, fun c => Decimal.isNumberChar_of_mem_layout⟩
      · rw [String.toList_ofList]
        exact fun c => Decimal.isNumberChar_of_mem_layout

theorem exists_mark_mem_text : ∃ c ∈ x.text.toList, isMark c = true := by
  cases x with
  | negativeZero => exact ⟨'.', by decide +kernel, rfl⟩
  | infinite negative => cases negative <;> exact ⟨'i', by decide +kernel, rfl⟩
  | undefined tag => cases hdef
  | finite q =>
    unfold text
    dsimp only
    split
    · exact ⟨'.', by decide +kernel, rfl⟩
    · split
      · rw [String.toList_ofList]
        obtain ⟨c, hc, hmark⟩ := Decimal.exists_mark_mem_layout (Decimal.shortest (-q))
        exact ⟨c, List.mem_cons_of_mem _ hc, hmark⟩
      · rw [String.toList_ofList]
        exact Decimal.exists_mark_mem_layout (Decimal.shortest q)

include hx

theorem exists_text_eq_cons : ∃ c cs, x.text.toList = c :: cs ∧ (c.isDigit = true ∨ c = '-' ∨ c = 'i') := by
  cases x with
  | negativeZero => exact ⟨_, _, rfl, .inr (.inl rfl)⟩
  | infinite negative =>
    cases negative with
    | false => exact ⟨_, _, rfl, .inr (.inr rfl)⟩
    | true => exact ⟨_, _, rfl, .inr (.inl rfl)⟩
  | undefined tag => cases hdef
  | finite q =>
    unfold text
    dsimp only
    split
    · exact ⟨_, _, rfl, .inl rfl⟩
    · rename_i hne
      split
      · rw [String.toList_ofList]
        exact ⟨_, _, rfl, .inr (.inl rfl)⟩
      · rename_i hq
        obtain ⟨c, cs, hcs, hc⟩ := exists_positiveText_eq_cons
          (⟨lt_of_le_of_ne (not_lt.mp hq) (Ne.symm hne), hx⟩ : IsPositive q)
        rw [String.toList_ofList]
        exact ⟨c, cs, hcs, .inl hc⟩

end

end Binary64

end FiniteAutomata
