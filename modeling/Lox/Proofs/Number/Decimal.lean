import Lox.Proofs.Number.Nearest

/-! A decimal number is read as the double nearest to it. Where the power of ten is not computed,
the number is past every double or rounds to nothing. -/
namespace Lox.Number

variable {n : ℕ} {whole places : List Char}

theorem lt_pow_length (n : ℕ) : n < 10 ^ (Nat.toDigits 10 n).length :=
  (Nat.length_toDigits_le_iff (by decide) Nat.length_toDigits_pos).mp le_rfl

theorem pow_length_le (hn : n ≠ 0) : 10 ^ ((Nat.toDigits 10 n).length - 1) ≤ n := by
  rcases Nat.eq_zero_or_pos ((Nat.toDigits 10 n).length - 1) with hone | hmore
  · rw [hone, pow_zero]
    exact Nat.pos_of_ne_zero hn
  · refine not_lt.mp fun hlt => ?_
    have hlength := (Nat.length_toDigits_le_iff (by decide) hmore).mpr hlt
    omega

theorem ten_zpow_lt : (10 : ℚ) ^ (-401 : ℤ) < unit 0 / 2 := by
  have hpow : (2 : ℚ) ^ 1075 < 10 ^ 401 := by
    exact_mod_cast (by decide +kernel : 2 ^ 1075 < 10 ^ 401)
  have hunit : unit 0 / 2 = (2 ^ 1075 : ℚ)⁻¹ := by
    rw [unit, show ((0 : ℕ) : ℤ) - 1074 = -(1075 : ℕ) + 1 from rfl, zpow_add_one₀ two_ne_zero,
      mul_div_cancel_right₀ _ two_ne_zero, zpow_neg, zpow_natCast]
  rw [hunit, show (-401 : ℤ) = -(401 : ℕ) from rfl, zpow_neg, zpow_natCast]
  exact inv_strictAnti₀ (by positivity) hpow

theorem past_le_ten_zpow : past ≤ 10 ^ (400 : ℤ) := by
  have hpow : (2 : ℚ) ^ 53 * 2 ^ 971 ≤ 10 ^ 400 := by
    exact_mod_cast (by decide +kernel : 2 ^ 53 * 2 ^ 971 ≤ 10 ^ 400)
  rw [← unit_greatest] at hpow
  exact past_lt_carry.le.trans hpow

/-- The power of ten makes no number of this many digits as much as half the least double. -/
theorem mul_zpow_lt (n : ℕ) {exponent : ℤ} (h : exponent + (Nat.toDigits 10 n).length < -400) :
    (n : ℚ) * 10 ^ exponent < unit 0 / 2 := by
  have hn : (n : ℚ) < 10 ^ (Nat.toDigits 10 n).length := by exact_mod_cast lt_pow_length n
  calc (n : ℚ) * 10 ^ exponent
      < 10 ^ (Nat.toDigits 10 n).length * 10 ^ exponent :=
        mul_lt_mul_of_pos_right hn (by positivity)
    _ = 10 ^ (exponent + (Nat.toDigits 10 n).length) := by
        rw [zpow_add₀ (by norm_num), zpow_natCast, mul_comm]
    _ ≤ 10 ^ (-401 : ℤ) := zpow_le_zpow_right₀ (by norm_num) (by omega)
    _ < unit 0 / 2 := ten_zpow_lt

theorem past_le_mul_zpow (hn : n ≠ 0) {exponent : ℤ}
    (h : 400 < exponent + (Nat.toDigits 10 n).length) : past ≤ n * 10 ^ exponent := by
  have hpos : 0 < (Nat.toDigits 10 n).length := Nat.length_toDigits_pos
  have hle : (10 : ℚ) ^ ((Nat.toDigits 10 n).length - 1) ≤ n := by exact_mod_cast pow_length_le hn
  calc past ≤ 10 ^ (400 : ℤ) := past_le_ten_zpow
    _ ≤ 10 ^ (exponent + ((Nat.toDigits 10 n).length - 1 : ℕ)) :=
        zpow_le_zpow_right₀ (by norm_num) (by omega)
    _ = 10 ^ ((Nat.toDigits 10 n).length - 1) * 10 ^ exponent := by
        rw [zpow_add₀ (by norm_num), zpow_natCast, mul_comm]
    _ ≤ n * 10 ^ exponent := mul_le_mul_of_nonneg_right hle (by positivity)

/-- The power of ten need not be computed where that is not done. -/
theorem bitsOfDecimal_eq (n : ℕ) (exponent : ℤ) :
    bitsOfDecimal n exponent =
      nearestBits (n * 10 ^ exponent.toNat) (10 ^ (-exponent).toNat) := by
  have hden : 10 ^ (-exponent).toNat ≠ 0 := by positivity
  have hvalue : ((n * 10 ^ exponent.toNat : ℕ) : ℚ) / (10 ^ (-exponent).toNat : ℕ) =
      n * 10 ^ exponent := by
    rw [zpow_eq_div (by norm_num) exponent]
    push_cast
    rw [mul_div_assoc]
  unfold bitsOfDecimal
  dsimp only
  split_ifs with hsmall hlarge
  · rcases hsmall with rfl | hfar
    · rw [Nat.zero_mul, nearestBits, if_pos rfl]
    · exact (nearestBits_tiny hden (hvalue ▸ mul_zpow_lt n hfar)).symm
  · have hn : n ≠ 0 := fun hzero => hsmall (.inl hzero)
    exact (nearestBits_infinite hden (hvalue ▸ past_le_mul_zpow hn hlarge)).symm
  · rfl

/-- The number that is written with the digits on both sides of a point. -/
def written (whole places : List Char) : ℚ := ofDigits (whole ++ places) / 10 ^ places.length

theorem written_eq_div (whole places : List Char) :
    written whole places = (ofDigits (whole ++ places) : ℚ) / (10 ^ places.length : ℕ) := by
  rw [written, Nat.cast_pow, Nat.cast_ofNat]

theorem toBits_decimal (whole places : List Char) :
    (Lexical.decimal whole places).toBits.toNat =
      nearestBits (ofDigits (whole ++ places)) (10 ^ places.length) := by
  rw [Lexical.decimal, toBits_ofMagnitude (bitsOfDecimal_le _ _), bitsOfDecimal_eq, neg_neg,
    Int.toNat_natCast, Int.toNat_of_nonpos (by omega), pow_zero, Nat.mul_one]

/-- A numeral stands for the double that is nearest to what it writes. -/
theorem decimal_nearest (h : written whole places < past) :
    IsNearest (written whole places) (Lexical.decimal whole places).toBits.toNat := by
  rw [written_eq_div] at h
  rw [toBits_decimal, written_eq_div]
  exact isNearest_nearestBits (by positivity) h

/-- A numeral past the range of doubles stands for infinity. -/
theorem decimal_infinite (h : past ≤ written whole places) :
    (Lexical.decimal whole places).toBits.toNat = infinityBits := by
  rw [written_eq_div] at h
  rw [toBits_decimal]
  exact nearestBits_infinite (by positivity) h

end Lox.Number
