import FiniteAutomata.Proofs.Number.Rounding

/-!
# The shortest decimal reads back

Of the two neighbours with seventeen digits, the nearer one is close enough to
round to the number, so the search for the shortest decimal finds one that
reads back (`Decimal.round_shortest`).
-/

namespace FiniteAutomata

namespace Decimal

open Binary64 (IsPositive)

variable {q : ℚ} {d : Decimal}

theorem readsBack_iff : readsBack q d = true ↔ Binary64.round d.value = .finite q := decide_eq_true_iff

theorem readsBack_of_withDigits? {count : Nat} (h : withDigits? q count = some d) : readsBack q d = true := by
  unfold withDigits? at h
  dsimp only at h
  split at h
  · rename_i hlow
    cases h
    exact ((Bool.and_eq_true _ _).mp hlow).1
  · split at h
    · rename_i hhigh
      cases h
      exact hhigh
    · cases h

theorem isSome_withDigits? {count : Nat}
    (h : readsBack q (neighbours q (magnitude q + 1 - count)).1 = true ∨
      readsBack q (neighbours q (magnitude q + 1 - count)).2 = true) : (withDigits? q count).isSome = true := by
  unfold withDigits?
  dsimp only
  by_cases hhigh : readsBack q (neighbours q (magnitude q + 1 - count)).2 = true
  · rw [hhigh]
    split
    · rfl
    · rw [if_pos rfl]; rfl
  · rw [if_pos]
    · rfl
    · simp [h.resolve_right hhigh, hhigh]

theorem neighbours_spec (hq : 0 < q) (e : Int) : (neighbours q e).1.value ≤ q ∧
    q ≤ (neighbours q e).2.value ∧ (neighbours q e).2.value = (neighbours q e).1.value + 10 ^ e := by
  have hstep : (0 : ℚ) < 10 ^ e := by positivity
  have hfloor : 0 ≤ (q / 10 ^ e).floor := Rat.le_floor_iff.mpr (by push_cast; positivity)
  have hcast : (((q / 10 ^ e).floor.toNat : Nat) : ℚ) = (q / 10 ^ e).floor := by
    exact_mod_cast Int.toNat_of_nonneg hfloor
  have hlow : ((q / 10 ^ e).floor : ℚ) ≤ q / 10 ^ e := Rat.le_floor_iff.mp le_rfl
  have hhigh : q / 10 ^ e < (((q / 10 ^ e).floor + 1 : Int) : ℚ) := Rat.floor_lt_iff.mp (Int.lt_succ _)
  unfold neighbours value
  simp only [tenPow_eq]
  push_cast at hhigh ⊢
  rw [hcast]
  exact ⟨(le_div_iff₀ hstep).mp hlow, ((div_lt_iff₀ hstep).mp hhigh).le, by ring⟩

theorem exists_readsBack (h : IsPositive q) : readsBack q (neighbours q (magnitude q + 1 - (17 : Nat))).1 = true ∨
    readsBack q (neighbours q (magnitude q + 1 - (17 : Nat))).2 = true := by
  obtain ⟨e, he⟩ : ∃ e : Int, e = magnitude q + 1 - (17 : Nat) := ⟨_, rfl⟩
  have hfine : (10 : ℚ) ^ e ≤ q / 10 ^ 16 := by
    rw [le_div_iff₀ (by positivity), ← zpow_natCast (10 : ℚ) 16, ← zpow_add₀ (by norm_num)]
    refine le_trans (le_of_eq ?_) (tenPow_magnitude_le h.pos)
    congr 1
    rw [he]
    push_cast
    ring
  rw [← he, readsBack_iff, readsBack_iff]
  obtain ⟨hlow, hhigh, hstep⟩ := neighbours_spec h.pos e
  have hhalf : q / (2 * 10 ^ 16) = q / 10 ^ 16 / 2 := by rw [div_div, mul_comm]
  rcases le_total (q - (neighbours q e).1.value) ((neighbours q e).2.value - q) with hle | hle
  · refine Or.inl (h.round_eq_of_close ?_)
    rw [abs_of_nonpos (by linarith), hhalf]
    linarith
  · refine Or.inr (h.round_eq_of_close ?_)
    rw [abs_of_nonneg (by linarith), hhalf]
    linarith

theorem readsBack_shortest (h : IsPositive q) : readsBack q (shortest q) = true := by
  have hfound : ((List.range 17).findSome? fun n => withDigits? q (n + 1)).isSome = true :=
    List.findSome?_isSome_iff.mpr ⟨16, List.mem_range.mpr (by decide), isSome_withDigits? (exists_readsBack h)⟩
  obtain ⟨d, hd⟩ := Option.isSome_iff_exists.mp hfound
  obtain ⟨n, -, hn⟩ := List.exists_of_findSome?_eq_some hd
  unfold shortest
  rw [hd]
  exact readsBack_of_withDigits? hn

theorem round_shortest (h : IsPositive q) : Binary64.round (shortest q).value = .finite q :=
  readsBack_iff.mp (readsBack_shortest h)

theorem digits_shortest_ne_zero (h : IsPositive q) : (shortest q).digits ≠ 0 := by
  intro hzero
  have hround := round_shortest h
  rw [value, hzero, Nat.cast_zero, zero_mul] at hround
  have hq : (0 : ℚ) = q := Binary64.finite.inj hround
  exact h.pos.ne hq

end Decimal

end FiniteAutomata
