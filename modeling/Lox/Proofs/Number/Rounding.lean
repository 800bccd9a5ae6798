import Lox.Number.Binary64
import Mathlib.Algebra.Order.Field.Power
import Mathlib.Algebra.Order.Field.Rat
import Mathlib.Tactic.Linarith
import Mathlib.Tactic.Positivity
import Mathlib.Tactic.WLOG

/-! Rounding to the nearest natural number, a half going to the even neighbour. What comes of it is
known from the distance alone: no number that is nearer to the result rounds to another. -/
namespace Lox.Number

variable {x y : ℚ} {n k : ℕ}

/-- `n` is nearest to `x`, and of two that are nearest it is the even one. -/
structure RoundsTo (x : ℚ) (n : ℕ) : Prop where
  near : |(n : ℚ) - x| ≤ 1 / 2
  even : |(n : ℚ) - x| = 1 / 2 → Even n

theorem roundsTo_self (n : ℕ) : RoundsTo n n := ⟨by norm_num, fun h => by norm_num at h⟩

/-- Two that are both nearest are a half away, and not both even. -/
theorem RoundsTo.unique (h : RoundsTo x n) (h' : RoundsTo x k) : n = k := by
  wlog hlt : n < k generalizing n k
  · rcases Nat.lt_trichotomy n k with hn | hn | hn
    · exact this h h' hn
    · exact hn
    · exact (this h' h hn).symm
  have hnear := abs_le.mp h.near
  have hnear' := abs_le.mp h'.near
  have hstep : (n : ℚ) + 1 ≤ k := by exact_mod_cast hlt
  have hk : (k : ℚ) = n + 1 := by linarith
  have hhalf : |(n : ℚ) - x| = 1 / 2 := by
    rw [abs_of_nonpos (by linarith)]
    linarith
  have hhalf' : |(k : ℚ) - x| = 1 / 2 := by
    rw [abs_of_nonneg (by linarith)]
    linarith
  have hsucc : k = n + 1 := by exact_mod_cast hk
  have heven := h'.even hhalf'
  rw [hsucc] at heven
  exact absurd (h.even hhalf) (Nat.even_add_one.mp heven)

/-- The result and any other number are at least one apart, so that not both are near. -/
theorem one_le_add_abs_sub {z : ℤ} (hz : z ≠ n) (x : ℚ) :
    1 ≤ |(z : ℚ) - x| + |(n : ℚ) - x| := by
  have hfar : (1 : ℚ) ≤ |(z : ℚ) - n| := by exact_mod_cast Int.one_le_abs (sub_ne_zero.mpr hz)
  have htri := abs_sub_le (z : ℚ) x n
  rw [abs_sub_comm x n] at htri
  exact hfar.trans htri

theorem RoundsTo.le_abs_sub (h : RoundsTo x n) (z : ℤ) : |(n : ℚ) - x| ≤ |(z : ℚ) - x| := by
  by_cases hz : z = n
  · rw [hz, Int.cast_natCast]
  · linarith [h.near, one_le_add_abs_sub hz x]

/-- Of two whole numbers that are as near, the even one is taken. -/
theorem RoundsTo.even_of_eq (h : RoundsTo x n) {z : ℤ} (hz : z ≠ n)
    (heq : |(z : ℚ) - x| = |(n : ℚ) - x|) : Even n := by
  have hfar := one_le_add_abs_sub hz x
  rw [heq] at hfar
  exact h.even (le_antisymm h.near (by linarith))

/-- What is not further from the result has the same result. -/
theorem RoundsTo.of_nearer (h : RoundsTo x n) (hy : |(n : ℚ) - y| ≤ |(n : ℚ) - x|) :
    RoundsTo y n :=
  ⟨hy.trans h.near, fun hhalf => h.even (le_antisymm h.near (hhalf ▸ hy))⟩

theorem RoundsTo.le (h : RoundsTo x n) (hx : x ≤ k) : n ≤ k := by
  have hnear := (abs_le.mp h.near).2
  have hlt : (n : ℚ) < k + 1 := by linarith
  exact Nat.lt_succ_iff.mp (by exact_mod_cast hlt)

theorem RoundsTo.ge (h : RoundsTo x n) (hx : k ≤ x) : k ≤ n := by
  have hnear := (abs_le.mp h.near).1
  have hlt : (k : ℚ) < n + 1 := by linarith
  exact Nat.lt_succ_iff.mp (by exact_mod_cast hlt)

/-- Just below the middle the lower number is the nearest one. -/
theorem RoundsTo.le_of_lt (h : RoundsTo x n) (hx : x < k + 1 / 2) : n ≤ k := by
  have hnear := (abs_le.mp h.near).2
  have hlt : (n : ℚ) < k + 1 := by linarith
  exact Nat.lt_succ_iff.mp (by exact_mod_cast hlt)

/-- In the middle, or above it, an odd number is not the nearest one. -/
theorem RoundsTo.lt_of_odd (h : RoundsTo x n) (hk : Odd k) (hx : k + 1 / 2 ≤ x) : k < n := by
  have hnear := (abs_le.mp h.near).1
  have hle : k ≤ n := h.ge (by linarith)
  refine lt_of_le_of_ne hle ?_
  rintro rfl
  have hhalf : |(k : ℚ) - x| = 1 / 2 := by
    rw [abs_of_nonpos (by linarith)]
    linarith
  exact Nat.not_even_iff_odd.mpr hk (h.even hhalf)

/-- A part that is less than one half is dropped, one that is more counts as one, and a half makes
the result even. -/
theorem roundsTo_add {part : ℚ} (q : ℕ) (h₀ : 0 ≤ part) (h₁ : part < 1) :
    RoundsTo (q + part)
      (if part < 1 / 2 then q else if 1 / 2 < part then q + 1 else q + q % 2) := by
  split_ifs with hless hmore
  · have hoff : |(q : ℚ) - (q + part)| = part := by
      rw [sub_add_cancel_left, abs_neg, abs_of_nonneg h₀]
    exact ⟨by linarith, fun h => by linarith⟩
  · have hoff : |((q + 1 : ℕ) : ℚ) - (q + part)| = 1 - part := by
      rw [Nat.cast_add_one, add_sub_add_left_eq_sub, abs_of_pos (by linarith)]
    exact ⟨by linarith, fun h => by linarith⟩
  · obtain rfl : part = 1 / 2 := by linarith
    have hoff : |((q + q % 2 : ℕ) : ℚ) - (q + 1 / 2)| = 1 / 2 := by
      rcases Nat.mod_two_eq_zero_or_one q with h | h <;> rw [h] <;> push_cast <;>
        rw [add_sub_add_left_eq_sub] <;> norm_num [abs_of_pos, abs_of_neg]
    exact ⟨hoff.le, fun _ => by rw [Nat.even_iff]; omega⟩

/-- Division with a remainder rounds as it should. -/
theorem roundsTo_roundDiv (num : ℕ) {den : ℕ} (hden : 0 < den) :
    RoundsTo ((num : ℚ) / den) (roundDiv num den) := by
  have hpos : (0 : ℚ) < den := by exact_mod_cast hden
  have hquot : (num : ℚ) / den = (num / den : ℕ) + (num % den : ℕ) / den := by
    have hnum : (num : ℚ) = den * (num / den : ℕ) + (num % den : ℕ) := by
      exact_mod_cast (Nat.div_add_mod num den).symm
    conv_lhs => rw [hnum, add_div, mul_div_cancel_left₀ _ hpos.ne']
  have hpart₁ : ((num % den : ℕ) : ℚ) / den < 1 := by
    rw [div_lt_one hpos]
    exact_mod_cast Nat.mod_lt num hden
  have hless : ((num % den : ℕ) : ℚ) / den < 1 / 2 ↔ 2 * (num % den) < den := by
    rw [div_lt_div_iff₀ hpos two_pos, one_mul, mul_comm]
    exact_mod_cast Iff.rfl
  have hmore : 1 / 2 < ((num % den : ℕ) : ℚ) / den ↔ den < 2 * (num % den) := by
    rw [div_lt_div_iff₀ two_pos hpos, one_mul, mul_comm]
    exact_mod_cast Iff.rfl
  have hround := roundsTo_add (num / den) (by positivity) hpart₁
  simp only [hless, hmore] at hround
  rw [hquot]
  exact hround

end Lox.Number
