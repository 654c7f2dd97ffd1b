import FiniteAutomata.Number.Numeral
import FiniteAutomata.Proofs.Number.Magnitudes
import Mathlib.Data.List.TakeWhile

/-!
# The text of a decimal is read back

The layout of a decimal leaves out the zeros at its end, moves the point or
gives an exponent. None of that changes the value that the reader of numerals
finds (`Decimal.reads_layout`).
-/

namespace FiniteAutomata

/-! ## Digits -/

namespace Numeral

theorem natOf_append (cs ds : List Char) : natOf (cs ++ ds) = 10 ^ ds.length * natOf cs + natOf ds :=
  (Nat.ofDigitChars_append 0).trans Nat.ofDigitChars_eq_ofDigitChars_zero

theorem natOf_zeros (n : Nat) : natOf (Decimal.zeros n) = 0 :=
  Nat.ofDigitChars_replicate_zero.trans (Nat.mul_zero _)

theorem natOf_zeros_append (n : Nat) (cs : List Char) : natOf (Decimal.zeros n ++ cs) = natOf cs := by
  rw [natOf_append, natOf_zeros, Nat.mul_zero, Nat.zero_add]

theorem natOf_append_zeros (cs : List Char) (n : Nat) : natOf (cs ++ Decimal.zeros n) = 10 ^ n * natOf cs := by
  rw [natOf_append, natOf_zeros, Nat.add_zero, Decimal.zeros, List.length_replicate]

theorem natOf_toDigits (n : Nat) : natOf (Nat.toDigits 10 n) = n := Nat.ofDigitChars_ten_toDigits

def AllDigits (cs : List Char) : Prop := ∀ c ∈ cs, c.isDigit = true

theorem allDigits_toDigits (n : Nat) : AllDigits (Nat.toDigits 10 n) :=
  fun _ h => Nat.isDigit_of_mem_toDigits (by decide) (by decide) h

theorem allDigits_zeros (n : Nat) : AllDigits (Decimal.zeros n) := by
  intro c h
  rw [List.eq_of_mem_replicate h]; rfl

theorem AllDigits.append {cs ds : List Char} (h : AllDigits cs) (h' : AllDigits ds) : AllDigits (cs ++ ds) :=
  List.forall_mem_append.mpr ⟨h, h'⟩

/-! ## Reading numerals -/

/-- The end of a numeral: nothing, or a letter and an exponent. -/
inductive Ends : List Char → Int → Prop where
  | plain : Ends [] 0
  | scaled {cs : List Char} {e : Int} (h : plainInt? cs = some e) : Ends ('e' :: cs) e

theorem Ends.exponent?_eq {tail : List Char} {e : Int} (h : Ends tail e) : exponent? tail = some e := by
  cases h with
  | plain => rfl
  | scaled h => exact h

section
variable {whole fraction tail : List Char} {e : Int} (hw : AllDigits whole) (hne : whole ≠ []) (hends : Ends tail e)
include hw hne hends

theorem decimal?_whole : decimal? (whole ++ tail) = some ⟨natOf whole, e⟩ := by
  have hempty : whole.isEmpty = false := by rw [← Bool.not_eq_true, List.isEmpty_iff]; exact hne
  unfold decimal?
  rw [List.takeWhile_append_of_pos hw, List.dropWhile_append_of_pos hw]
  cases hends with
  | plain => simp [hempty, exponent?]
  | scaled h => simp [hempty, exponent?, h]

theorem decimal?_point (hf : AllDigits fraction) : decimal? (whole ++ '.' :: (fraction ++ tail)) =
    some ⟨natOf (whole ++ fraction), e - fraction.length⟩ := by
  have hempty : whole.isEmpty = false := by rw [← Bool.not_eq_true, List.isEmpty_iff]; exact hne
  unfold decimal?
  rw [List.takeWhile_append_of_pos hw, List.dropWhile_append_of_pos hw]
  have htail : tail.takeWhile Char.isDigit = [] ∧ tail.dropWhile Char.isDigit = tail := by
    cases hends with
    | plain => exact ⟨rfl, rfl⟩
    | scaled h => exact ⟨rfl, rfl⟩
  simp [hempty, List.takeWhile_append_of_pos hf, List.dropWhile_append_of_pos hf, htail, hends.exponent?_eq]

end

theorem plainInt?_exponent (e : Int) (n : Nat) :
    plainInt? ((if e < 0 then '-' else '+') :: Decimal.zeros n ++ Nat.toDigits 10 e.natAbs) = some e := by
  have hdigits := (allDigits_zeros n).append (allDigits_toDigits e.natAbs)
  have hne : Decimal.zeros n ++ Nat.toDigits 10 e.natAbs ≠ [] :=
    List.append_ne_nil_of_right_ne_nil _ Nat.toDigits_ne_nil
  have hread (negative : Bool) : (if (Decimal.zeros n ++ Nat.toDigits 10 e.natAbs).isEmpty ||
      !(Decimal.zeros n ++ Nat.toDigits 10 e.natAbs).all Char.isDigit then none
      else some (applySign negative (natOf (Decimal.zeros n ++ Nat.toDigits 10 e.natAbs)))) =
      some (applySign negative e.natAbs) := by
    rw [List.all_eq_true.mpr hdigits, List.isEmpty_eq_false_iff.mpr hne, natOf_zeros_append, natOf_toDigits]; rfl
  split
  · refine (hread true).trans (congrArg some ?_)
    show -(e.natAbs : Int) = e
    omega
  · refine (hread false).trans (congrArg some ?_)
    show (e.natAbs : Int) = e
    omega

end Numeral

/-- The characters of numerals and of the name of the infinite numbers. -/
def isNumberChar (c : Char) : Bool := c.isDigit || ['.', 'e', '-', '+', 'i', 'n', 'f'].contains c

/-- The characters that tell these from the texts of integers. -/
def isMark (c : Char) : Bool := ['.', 'e', 'i'].contains c

/-! ## Layouts -/

namespace Decimal

open Numeral (natOf AllDigits Ends)

variable {d : Decimal}

theorem value_eq (d : Decimal) : d.value = (d.digits : ℚ) * 10 ^ d.exponent := by rw [value, tenPow_eq]

/-- Two decimals, of which one has as many more zeros as its exponent is
less. -/
theorem value_eq_of_shift {n : Nat} {e e' : Int} (k : Nat) (h : e = e' + k) :
    (⟨10 ^ k * n, e'⟩ : Decimal).value = (⟨n, e⟩ : Decimal).value := by
  rw [value_eq, value_eq, h, zpow_add₀ (by norm_num), zpow_natCast]
  push_cast
  ring

def point (d : Decimal) : Int := (digitCount d.digits : Int) + d.exponent

theorem exists_toDigits_eq (d : Decimal) : ∃ k, Nat.toDigits 10 d.digits = d.significant ++ zeros k := by
  obtain ⟨zs, hzs⟩ : ∃ zs, zs = (Nat.toDigits 10 d.digits).reverse.takeWhile (· == '0') := ⟨_, rfl⟩
  refine ⟨zs.length, ?_⟩
  have hzeros : zs.reverse = zeros zs.length := by
    refine List.eq_replicate_iff.mpr ⟨List.length_reverse, fun c hc => ?_⟩
    rw [List.mem_reverse, hzs] at hc
    have heq := List.mem_takeWhile_imp hc
    exact beq_iff_eq.mp heq
  unfold significant
  rw [← hzeros, ← List.reverse_append, hzs, List.takeWhile_append_dropWhile, List.reverse_reverse]

theorem allDigits_significant (d : Decimal) : AllDigits d.significant := by
  obtain ⟨k, hk⟩ := exists_toDigits_eq d
  exact fun c hc => Numeral.allDigits_toDigits d.digits c (hk ▸ List.mem_append_left _ hc)

theorem value_significant (d : Decimal) :
    (⟨natOf d.significant, d.point - d.significant.length⟩ : Decimal).value = d.value := by
  obtain ⟨k, hk⟩ := exists_toDigits_eq d
  have hdigits : d.digits = 10 ^ k * natOf d.significant := by
    rw [← Numeral.natOf_append_zeros, ← hk, Numeral.natOf_toDigits]
  have hcount : digitCount d.digits = d.significant.length + k := by
    rw [digitCount, hk, List.length_append, zeros, List.length_replicate]
  have hshift : d.point - d.significant.length = d.exponent + k := by
    rw [point, hcount]
    push_cast
    ring
  rw [← value_eq_of_shift k hshift, ← hdigits]

theorem significant_ne_nil (h : d.digits ≠ 0) : d.significant ≠ [] := by
  intro hnil
  obtain ⟨k, hk⟩ := exists_toDigits_eq d
  apply h
  rw [← Numeral.natOf_toDigits d.digits, hk, hnil, List.nil_append, Numeral.natOf_zeros]

def Reads (cs : List Char) (q : ℚ) : Prop := ∃ e, Numeral.decimal? cs = some e ∧ e.value = q

section
variable {digits : List Char} (hd : AllDigits digits) (hne : digits ≠ []) (point : Int)
include hd hne

theorem reads_positional :
    Reads (positional digits point) (⟨natOf digits, point - digits.length⟩ : Decimal).value := by
  unfold positional
  split
  · rename_i hp
    have hread := Numeral.decimal?_point (Numeral.allDigits_zeros 1) (by decide) .plain
      ((Numeral.allDigits_zeros (-point).toNat).append hd)
    refine ⟨_, (congrArg Numeral.decimal? (by simp [zeros])).trans hread, ?_⟩
    rw [Numeral.natOf_zeros_append, Numeral.natOf_zeros_append, List.length_append, zeros, List.length_replicate]
    congr 2
    push_cast
    omega
  · split
    · rename_i hp hle
      have hread := Numeral.decimal?_point (hd.append (Numeral.allDigits_zeros (point.toNat - digits.length)))
        (List.append_ne_nil_of_left_ne_nil hne _) .plain (Numeral.allDigits_zeros 1)
      refine ⟨_, (congrArg Numeral.decimal? (by simp [zeros])).trans hread, ?_⟩
      rw [List.append_assoc, zeros, zeros, ← List.replicate_add, ← zeros, Numeral.natOf_append_zeros,
        List.length_replicate]
      refine value_eq_of_shift _ ?_
      push_cast
      omega
    · rename_i hp hlt
      have hfraction : AllDigits (digits.drop point.toNat) := fun c hc => hd c (List.mem_of_mem_drop hc)
      have htake : digits.take point.toNat ≠ [] := by
        intro hnil
        rcases List.take_eq_nil_iff.mp hnil with hzero | hnil
        · omega
        · exact hne hnil
      have hread := Numeral.decimal?_point (fun c hc => hd c (List.mem_of_mem_take hc)) htake .plain hfraction
      refine ⟨_, (congrArg Numeral.decimal? (by simp)).trans hread, ?_⟩
      rw [List.take_append_drop, List.length_drop]
      congr 2
      omega

theorem reads_scientific :
    Reads (scientific digits (point - 1)) (⟨natOf digits, point - digits.length⟩ : Decimal).value := by
  obtain ⟨c, cs, rfl⟩ := List.exists_cons_of_ne_nil hne
  have hends : Ends ('e' :: (if point - 1 < 0 then '-' else '+') ::
      zeros (2 - (Nat.toDigits 10 (point - 1).natAbs).length) ++ Nat.toDigits 10 (point - 1).natAbs) (point - 1) :=
    .scaled (Numeral.plainInt?_exponent _ _)
  have hhead : AllDigits [c] := List.forall_mem_singleton.mpr (hd c List.mem_cons_self)
  unfold scientific
  dsimp only
  cases cs with
  | nil =>
    refine ⟨_, (congrArg Numeral.decimal? (by simp)).trans (Numeral.decimal?_whole hhead (by simp) hends), ?_⟩
    rfl
  | cons c' cs =>
    have hread := Numeral.decimal?_point hhead (by simp) hends (fun x hx => hd x (List.mem_cons_of_mem _ hx))
    refine ⟨_, (congrArg Numeral.decimal? (by simp)).trans hread, ?_⟩
    congr 2
    simp only [List.length_cons]
    push_cast
    ring

end

theorem reads_layout (h : d.digits ≠ 0) : Reads d.layout d.value := by
  rw [← value_significant]
  unfold layout
  dsimp only
  split
  · exact reads_positional (allDigits_significant d) (significant_ne_nil h) d.point
  · exact reads_scientific (allDigits_significant d) (significant_ne_nil h) d.point

/-! ## The characters of a layout -/

theorem exists_layout_eq_cons (h : d.digits ≠ 0) : ∃ c cs, d.layout = c :: cs ∧ c.isDigit = true := by
  obtain ⟨c, cs, hcs⟩ := List.exists_cons_of_ne_nil (significant_ne_nil h)
  have hc : c.isDigit = true := allDigits_significant d c (hcs ▸ List.mem_cons_self)
  unfold layout
  dsimp only
  rw [hcs]
  split
  · unfold positional
    split
    · exact ⟨_, _, rfl, rfl⟩
    · split
      · exact ⟨_, _, rfl, hc⟩
      · rename_i hp _
        obtain ⟨n, hn⟩ : ∃ n, ((digitCount d.digits : Int) + d.exponent).toNat = n + 1 :=
          ⟨_, (Nat.succ_pred_eq_of_pos (by omega)).symm⟩
        rw [hn]
        exact ⟨_, _, rfl, hc⟩
  · exact ⟨_, _, rfl, hc⟩

theorem exists_mark_mem_layout (d : Decimal) : ∃ c ∈ d.layout, isMark c = true := by
  unfold layout
  dsimp only
  split
  · refine ⟨'.', ?_, rfl⟩
    unfold positional
    split
    · simp
    · split <;> simp
  · refine ⟨'e', ?_, rfl⟩
    unfold scientific
    simp

theorem isNumberChar_of_mem_layout {c : Char} (h : c ∈ d.layout) : isNumberChar c = true := by
  have hdigits (cs : List Char) (hcs : AllDigits cs) : ∀ c ∈ cs, isNumberChar c = true := by
    intro c hc
    rw [isNumberChar, hcs c hc, Bool.true_or]
  have hsig := hdigits _ (allDigits_significant d)
  have hzeros (n : Nat) := hdigits _ (Numeral.allDigits_zeros n)
  revert c
  unfold layout
  dsimp only
  split
  · unfold positional
    split
    · simp only [List.forall_mem_append, List.forall_mem_cons]
      exact ⟨⟨rfl, rfl, hzeros _⟩, hsig⟩
    · split
      · simp only [List.forall_mem_append, List.forall_mem_cons]
        exact ⟨⟨hsig, hzeros _⟩, rfl, rfl, fun _ h => nomatch h⟩
      · simp only [List.forall_mem_append, List.forall_mem_cons]
        exact ⟨fun c hc => hsig c (List.mem_of_mem_take hc), rfl, fun c hc => hsig c (List.mem_of_mem_drop hc)⟩
  · unfold scientific
    dsimp only
    simp only [List.forall_mem_append, List.forall_mem_cons]
    refine ⟨⟨⟨fun c hc => hsig c (List.mem_of_mem_take hc), ?_⟩, rfl, ?_, hzeros _⟩,
      hdigits _ (Numeral.allDigits_toDigits _)⟩
    · split
      · exact fun _ h => nomatch h
      · exact List.forall_mem_cons.mpr ⟨rfl, fun c hc => hsig c (List.mem_of_mem_drop hc)⟩
    · split <;> rfl

end Decimal

end FiniteAutomata
