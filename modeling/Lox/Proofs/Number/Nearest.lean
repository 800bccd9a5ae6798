import Lox.Proofs.Number.Bits
import Lox.Proofs.Number.Rounding

/-! What the patterns of doubles stand for, and the pattern of a quotient: no other finite double is
nearer to it. -/
namespace Lox.Number

variable {bits bits' place place' m m' num den : ℕ} {x u : ℚ}

/-- The number without its sign. -/
def Exact.magnitude : Exact → ℚ
  | .finite _ m q => m * 2 ^ q
  | _ => 0

/-- What a pattern up to that of infinity stands for. -/
def magnitude (bits : ℕ) : ℚ := (Exact.ofBits bits).magnitude

/-- The worth of a last place, the places counted from that of the least double. -/
def unit (place : ℕ) : ℚ := 2 ^ ((place : ℤ) - 1074)

theorem unit_pos (place : ℕ) : 0 < unit place := by
  unfold unit
  positivity

theorem unit_add (place k : ℕ) : unit (place + k) = 2 ^ k * unit place := by
  rw [unit, unit, Nat.cast_add, add_sub_right_comm, zpow_add₀ two_ne_zero, zpow_natCast, mul_comm]

/-- The parts of a pattern: how far the last place is up, and how many of it there are. A carry into
the next power is allowed. -/
structure Packs (bits place m : ℕ) : Prop where
  eq : bits = place * 2 ^ 52 + m
  le : m ≤ 2 ^ 53
  lead : place = 0 ∨ 2 ^ 52 ≤ m

theorem exists_packs (bits : ℕ) : ∃ place m, Packs bits place m ∧ m < 2 ^ 53 := by
  by_cases h : bits < 2 ^ 52
  · exact ⟨0, bits, ⟨by simp, by omega, .inl rfl⟩, by omega⟩
  · refine ⟨bits / 2 ^ 52 - 1, 2 ^ 52 + bits % 2 ^ 52, ⟨?_, ?_, ?_⟩, ?_⟩ <;> omega

/-- The fields of a double taken apart: below the first power a fraction has no leading one. -/
theorem ofBits_eq {field fraction : ℕ} (hfield : field < 2047) (hfraction : fraction < 2 ^ 52) :
    Exact.ofBits (field * 2 ^ 52 + fraction) =
      if field = 0 then .finite false fraction (-1074)
      else .finite false (2 ^ 52 + fraction) ((field : ℤ) - 1075) := by
  have hpow : Nat.pow 2 63 = 2 ^ 63 ∧ Nat.pow 2 52 = 2 ^ 52 := ⟨rfl, rfl⟩
  have hsign : (field * 2 ^ 52 + fraction) / 2 ^ 63 % 2 = 0 := by omega
  have hhigh : (field * 2 ^ 52 + fraction) / 2 ^ 52 % 2048 = field := by omega
  have hlow : (field * 2 ^ 52 + fraction) % 2 ^ 52 = fraction := by omega
  simp only [Exact.ofBits, hpow, hsign, hhigh, hlow]
  rw [if_neg (by omega)]
  rfl

/-- The parts of a pattern give its number. -/
theorem Packs.magnitude_eq (h : Packs bits place m) (hfinite : bits < infinityBits) :
    magnitude bits = m * unit place := by
  obtain ⟨rfl, hle, hlead⟩ := h
  rw [infinityBits_eq] at hfinite
  by_cases hsmall : m < 2 ^ 52
  · obtain rfl : place = 0 := by omega
    rw [magnitude, ofBits_eq (by omega) hsmall, if_pos rfl]
    rfl
  by_cases hcarry : m = 2 ^ 53
  · have hbits : place * 2 ^ 52 + m = (place + 2) * 2 ^ 52 + 0 := by omega
    rw [magnitude, hbits, ofBits_eq (by omega) (by omega), if_neg (by omega), Exact.magnitude,
      hcarry, show ((place + 2 : ℕ) : ℤ) - 1075 = ((place + 1 : ℕ) : ℤ) - 1074 by omega, ← unit,
      unit_add]
    push_cast
    ring
  · have hbits : place * 2 ^ 52 + m = (place + 1) * 2 ^ 52 + (m - 2 ^ 52) := by omega
    rw [magnitude, hbits, ofBits_eq (by omega) (by omega), if_neg (by omega), Exact.magnitude,
      show ((place + 1 : ℕ) : ℤ) - 1075 = (place : ℤ) - 1074 by omega, ← unit,
      show 2 ^ 52 + (m - 2 ^ 52) = m by omega]

/-- A carry out of a lower place is worth no more than the leading bit of a higher one. -/
theorem carry_le_lead (hlt : place < place') : 2 ^ 53 * unit place ≤ 2 ^ 52 * unit place' := by
  obtain ⟨k, rfl⟩ := Nat.exists_eq_add_of_lt hlt
  have hpow : (2 : ℚ) ^ 53 ≤ 2 ^ 52 * 2 ^ (k + 1) := by
    have hone : (1 : ℚ) ≤ 2 ^ k := one_le_pow₀ one_le_two
    rw [pow_succ _ k, pow_succ _ 52]
    nlinarith
  calc (2 : ℚ) ^ 53 * unit place
      ≤ 2 ^ 52 * 2 ^ (k + 1) * unit place := mul_le_mul_of_nonneg_right hpow (unit_pos place).le
    _ = 2 ^ 52 * unit (place + k + 1) := by rw [add_assoc, unit_add, mul_assoc]

/-- In a lower place there is less than the leading bit of a higher one is worth. -/
theorem lt_lead (hm : m < 2 ^ 53) (hlt : place < place') :
    m * unit place < 2 ^ 52 * unit place' := by
  refine lt_of_lt_of_le ?_ (carry_le_lead hlt)
  exact mul_lt_mul_of_pos_right (by exact_mod_cast hm) (unit_pos place)

/-- Patterns are in the order of their numbers. -/
theorem magnitude_lt (hlt : bits < bits') (hfinite : bits' < infinityBits) :
    magnitude bits < magnitude bits' := by
  obtain ⟨place, m, h, hm⟩ := exists_packs bits
  obtain ⟨place', m', h', hm'⟩ := exists_packs bits'
  rw [h.magnitude_eq (hlt.trans hfinite), h'.magnitude_eq hfinite]
  have hbits := h.eq
  have hbits' := h'.eq
  have hlead := h'.lead
  rcases Nat.lt_trichotomy place place' with hplace | rfl | hplace
  · refine (lt_lead hm hplace).trans_le (mul_le_mul_of_nonneg_right ?_ (unit_pos place').le)
    exact_mod_cast hlead.resolve_left (by omega)
  · refine mul_lt_mul_of_pos_right ?_ (unit_pos place)
    exact_mod_cast (by omega : m < m')
  · have := h.lead
    omega

/-- Doubles of one value have the same bits. -/
theorem magnitude_injOn (hfinite : bits < infinityBits) (hfinite' : bits' < infinityBits)
    (h : magnitude bits = magnitude bits') : bits = bits' := by
  rcases Nat.lt_trichotomy bits bits' with hlt | heq | hlt
  · exact absurd h (magnitude_lt hlt hfinite').ne
  · exact heq
  · exact absurd h (magnitude_lt hlt hfinite).ne'

/-- The greatest double, which is a whole number. -/
def greatest : ℕ := (2 ^ 53 - 1) * 2 ^ 971

theorem unit_greatest : unit 2045 = 2 ^ 971 := by
  rw [unit, show ((2045 : ℕ) : ℤ) - 1074 = (971 : ℕ) from rfl, zpow_natCast]

theorem greatest_eq : (greatest : ℚ) = (2 ^ 53 - 1 : ℕ) * unit 2045 := by
  rw [unit_greatest, greatest, Nat.cast_mul, Nat.cast_pow, Nat.cast_ofNat]

theorem magnitude_le_greatest (hfinite : bits < infinityBits) : magnitude bits ≤ greatest := by
  have hpacks : Packs (infinityBits - 1) 2045 (2 ^ 53 - 1) := ⟨rfl, by omega, .inr (by omega)⟩
  rw [greatest_eq, ← hpacks.magnitude_eq (by decide)]
  rcases Nat.lt_or_ge bits (infinityBits - 1) with hlt | hge
  · exact (magnitude_lt hlt (by decide)).le
  · exact (congrArg magnitude (by omega : bits = infinityBits - 1)).le

/-- Half a last place past the greatest double. From there on all is infinity. -/
def past : ℚ := ((2 ^ 53 - 1 : ℕ) + 1 / 2) * unit 2045

theorem greatest_lt_past : (greatest : ℚ) < past := by
  rw [greatest_eq, past]
  exact mul_lt_mul_of_pos_right (by linarith) (unit_pos _)

theorem past_lt_carry : past < 2 ^ 53 * unit 2045 :=
  mul_lt_mul_of_pos_right (by norm_num) (unit_pos _)

/-- The pattern of a finite double to which no other is nearer. Of two that are equally near it is
the even one. -/
structure IsNearest (x : ℚ) (bits : ℕ) : Prop where
  finite : bits < infinityBits
  near : ∀ bits' < infinityBits, |magnitude bits - x| ≤ |magnitude bits' - x|
  even : ∀ bits' < infinityBits, bits' ≠ bits → |magnitude bits' - x| = |magnitude bits - x| →
    Even bits

/-! The nearest double to a quotient. -/

/-- A power as a quotient of natural ones. -/
theorem zpow_eq_div {base : ℚ} (hbase : base ≠ 0) (z : ℤ) :
    base ^ z = base ^ z.toNat / base ^ (-z).toNat := by
  rw [← zpow_natCast, ← zpow_natCast, ← zpow_sub₀ hbase]
  congr 1
  omega

theorem zpow_le_div_iff (z : ℤ) (hden : 0 < den) :
    (2 : ℚ) ^ z ≤ num / den ↔ den * 2 ^ z.toNat ≤ num * 2 ^ (-z).toNat := by
  rw [zpow_eq_div two_ne_zero, div_le_div_iff₀ (by positivity) (by exact_mod_cast hden), mul_comm]
  exact_mod_cast Iff.rfl

/-- The test settles which of two powers it is. -/
theorem lowerPower_spec {guess : ℤ} (hden : 0 < den) (hlow : (2 : ℚ) ^ (guess - 1) ≤ num / den)
    (hhigh : (num : ℚ) / den < 2 ^ (guess + 1)) :
    (2 : ℚ) ^ lowerPower 2 guess num den ≤ num / den ∧
      (num : ℚ) / den < 2 ^ (lowerPower 2 guess num den + 1) := by
  have htest : (2 : ℚ) ^ guess ≤ num / den ↔ _ := zpow_le_div_iff guess hden
  unfold lowerPower
  split_ifs with h
  · exact ⟨htest.mpr h, hhigh⟩
  · exact ⟨hlow, by rw [sub_add_cancel]; exact not_le.mp fun hle => h (htest.mp hle)⟩

/-- The lengths in bits tell the power but for one. -/
theorem log2_bounds (hnum : num ≠ 0) (hden : den ≠ 0) :
    (2 : ℚ) ^ ((num.log2 : ℤ) - den.log2 - 1) ≤ num / den ∧
      (num : ℚ) / den < 2 ^ ((num.log2 : ℤ) - den.log2 + 1) := by
  have hpos : (0 : ℚ) < den := by exact_mod_cast Nat.pos_of_ne_zero hden
  have hnumlow : (2 : ℚ) ^ num.log2 ≤ num := by exact_mod_cast Nat.log2_self_le hnum
  have hnumhigh : (num : ℚ) < 2 ^ (num.log2 + 1) := by exact_mod_cast Nat.lt_log2_self
  have hdenlow : (2 : ℚ) ^ den.log2 ≤ den := by exact_mod_cast Nat.log2_self_le hden
  have hdenhigh : (den : ℚ) < 2 ^ (den.log2 + 1) := by exact_mod_cast Nat.lt_log2_self
  rw [show (num.log2 : ℤ) - den.log2 - 1 = (num.log2 : ℕ) - (den.log2 + 1 : ℕ) by push_cast; ring,
    show (num.log2 : ℤ) - den.log2 + 1 = (num.log2 + 1 : ℕ) - (den.log2 : ℕ) by push_cast; ring,
    zpow_sub₀ two_ne_zero, zpow_sub₀ two_ne_zero]
  simp only [zpow_natCast]
  exact ⟨div_le_div₀ num.cast_nonneg hnumlow hpos hdenhigh.le,
    div_lt_div₀ hnumhigh hdenlow (by positivity) (by positivity)⟩

/-- How the bits of a quotient are put together: its multiple of a last place is rounded. -/
structure Fitted (x : ℚ) (place m : ℕ) : Prop where
  rounds : RoundsTo (x / unit place) m
  high : x < 2 ^ 53 * unit place
  low : place = 0 ∨ 2 ^ 52 * unit place ≤ x

/-- A quotient is rounded to a fraction that fits the place of its leading bit. -/
theorem nearestBits_eq (hnum : num ≠ 0) (hden : den ≠ 0) : ∃ place m,
    Fitted (num / den) place m ∧ nearestBits num den = min (place * 2 ^ 52 + m) infinityBits := by
  obtain ⟨hlow, hhigh⟩ := log2_bounds hnum hden
  obtain ⟨hlow, hhigh⟩ := lowerPower_spec (Nat.pos_of_ne_zero hden) hlow hhigh
  set e := lowerPower 2 ((num.log2 : ℤ) - den.log2) num den with he
  set q := max (e - 52) (-1074) with hq
  have hplace : ((q + 1074).toNat : ℤ) = q + 1074 := Int.toNat_of_nonneg (by omega)
  have hunit : unit (q + 1074).toNat = 2 ^ q := by rw [unit, hplace, add_sub_cancel_right]
  refine ⟨(q + 1074).toNat,
    roundDiv (num * 2 ^ (-q).toNat) (den * 2 ^ q.toNat), ⟨?_, ?_, ?_⟩, ?_⟩
  · have hscaled : 0 < den * 2 ^ q.toNat := by positivity
    have hround := roundsTo_roundDiv (num * 2 ^ (-q).toNat) hscaled
    rw [hunit, zpow_eq_div two_ne_zero, div_div_div_eq]
    exact_mod_cast hround
  · rw [hunit, ← zpow_natCast, ← zpow_add₀ two_ne_zero]
    exact hhigh.trans_le (zpow_le_zpow_right₀ one_le_two (by push_cast; omega))
  · by_cases hleast : q = -1074
    · exact .inl (by omega)
    · right
      rw [hunit, ← zpow_natCast, ← zpow_add₀ two_ne_zero]
      exact (zpow_le_zpow_right₀ one_le_two (by push_cast; omega)).trans hlow
  · rw [nearestBits, if_neg hnum]
    rfl

theorem Fitted.packs (h : Fitted x place m) : Packs (place * 2 ^ 52 + m) place m := by
  have hpos := unit_pos place
  refine ⟨rfl, h.rounds.le ?_, h.low.imp_right fun hlow => h.rounds.ge ?_⟩
  · rw [div_le_iff₀ hpos]
    exact_mod_cast h.high.le
  · rw [le_div_iff₀ hpos]
    exact_mod_cast hlow

/-- Below the end of the range nothing is rounded to infinity. -/
theorem Fitted.finite (h : Fitted x place m) (hx : x < past) :
    place * 2 ^ 52 + m < infinityBits := by
  have hle := h.packs.le
  rw [infinityBits_eq]
  rcases Nat.lt_trichotomy place 2045 with hplace | rfl | hplace
  · omega
  · have hm : m ≤ 2 ^ 53 - 1 := h.rounds.le_of_lt (by rwa [div_lt_iff₀ (unit_pos _)])
    omega
  · have hlow := h.low.resolve_left (by omega)
    have hcarry := carry_le_lead hplace
    exact absurd hx (not_lt.mpr (past_lt_carry.le.trans (hcarry.trans hlow)))

/-- At the end of the range and past it all is rounded to infinity. -/
theorem Fitted.infinite (h : Fitted x place m) (hx : past ≤ x) :
    infinityBits ≤ place * 2 ^ 52 + m := by
  have hlead := h.packs.lead
  rw [infinityBits_eq]
  rcases Nat.lt_trichotomy place 2045 with hplace | rfl | hplace
  · have hcarry := h.high.trans_le (carry_le_lead hplace)
    have hpast : 2 ^ 52 * unit 2045 ≤ past :=
      mul_le_mul_of_nonneg_right (by norm_num) (unit_pos _).le
    exact absurd hx (not_le.mpr (hcarry.trans_le hpast))
  · have hm : 2 ^ 53 - 1 < m :=
      h.rounds.lt_of_odd (by decide) (by rwa [le_div_iff₀ (unit_pos _)])
    omega
  · omega

/-- Below half the least double all is rounded to nothing. -/
theorem Fitted.eq_zero (h : Fitted x place m) (hx : x < unit 0 / 2) :
    place * 2 ^ 52 + m = 0 := by
  have hpos := unit_pos 0
  have hplace : place = 0 := by
    by_contra hne
    have hlow := h.low.resolve_left hne
    have hcarry := carry_le_lead (Nat.pos_of_ne_zero hne)
    linarith
  subst hplace
  have hm : m ≤ 0 := h.rounds.le_of_lt (by
    rw [div_lt_iff₀ hpos, Nat.cast_zero]
    linarith)
  omega

theorem abs_mul_sub_eq (hu : 0 < u) (a : ℚ) : |a * u - x| = |a - x / u| * u := by
  rw [← abs_of_pos hu, ← abs_mul, abs_of_pos hu, sub_mul, div_mul_cancel₀ _ hu.ne']

/-- No other number of units is nearer than the one rounded to. -/
theorem RoundsTo.le_abs_sub_mul (h : RoundsTo (x / u) m) (hu : 0 < u) (z : ℤ) :
    |m * u - x| ≤ |z * u - x| := by
  rw [abs_mul_sub_eq hu, abs_mul_sub_eq hu]
  exact mul_le_mul_of_nonneg_right (h.le_abs_sub z) hu.le

/-- Where a double has its place: below the leading bit of the last place, or on its grid. -/
theorem Packs.below_or_grid (h : Packs bits place' m') (hm : m' < 2 ^ 53)
    (hfinite : bits < infinityBits) (place : ℕ) :
    place' < place ∧ magnitude bits < 2 ^ 52 * unit place ∨
      ∃ z : ℤ, magnitude bits = z * unit place := by
  rw [h.magnitude_eq hfinite]
  rcases Nat.lt_or_ge place' place with hplace | hplace
  · exact .inl ⟨hplace, lt_lead hm hplace⟩
  · obtain ⟨k, rfl⟩ := Nat.exists_eq_add_of_le hplace
    refine .inr ⟨m' * 2 ^ k, ?_⟩
    push_cast
    rw [unit_add, mul_assoc]

/-- The leading bit of the last place is on its grid and nearer than anything below it. -/
theorem Fitted.lt_of_below (h : Fitted x place m) (hplace : place ≠ 0)
    (hbelow : magnitude bits < 2 ^ 52 * unit place) :
    |m * unit place - x| < |magnitude bits - x| := by
  have hlow := h.low.resolve_left hplace
  have hlead := h.rounds.le_abs_sub_mul (unit_pos place) (2 ^ 52)
  rw [Int.cast_pow, Int.cast_ofNat, abs_of_nonpos (sub_nonpos.mpr hlow)] at hlead
  rw [abs_of_nonpos (sub_nonpos.mpr (hbelow.trans_le hlow).le)]
  linarith

/-- The doubles in higher places are on the grid of the last place. Those in lower ones are below
the leading bit, which is on it. -/
theorem Fitted.isNearest (h : Fitted x place m) (hfinite : place * 2 ^ 52 + m < infinityBits) :
    IsNearest x (place * 2 ^ 52 + m) := by
  have hvalue := h.packs.magnitude_eq hfinite
  refine ⟨hfinite, fun bits hbits => ?_, fun bits hbits hne heq => ?_⟩
  · rw [hvalue]
    obtain ⟨place', m', hpacks, hm'⟩ := exists_packs bits
    obtain ⟨hplace, hbelow⟩ | ⟨z, hz⟩ := hpacks.below_or_grid hm' hbits place
    · exact (h.lt_of_below (by omega) hbelow).le
    · rw [hz]
      exact h.rounds.le_abs_sub_mul (unit_pos place) z
  · rw [hvalue] at heq
    obtain ⟨place', m', hpacks, hm'⟩ := exists_packs bits
    obtain ⟨hplace, hbelow⟩ | ⟨z, hz⟩ := hpacks.below_or_grid hm' hbits place
    · exact absurd heq (h.lt_of_below (by omega) hbelow).ne'
    · have hzm : z ≠ m := by
        rintro rfl
        exact hne (magnitude_injOn hbits hfinite (by rw [hz, hvalue, Int.cast_natCast]))
      rw [hz, abs_mul_sub_eq (unit_pos place), abs_mul_sub_eq (unit_pos place)] at heq
      have hm := h.rounds.even_of_eq hzm (mul_right_cancel₀ (unit_pos place).ne' heq)
      exact (Even.mul_left (by decide) place).add hm

theorem magnitude_zero : magnitude 0 = 0 := by norm_num [magnitude, Exact.ofBits, Exact.magnitude]

/-- The pattern of a quotient below the end of the range is that of the nearest double. -/
theorem isNearest_nearestBits (hden : den ≠ 0) (hx : (num : ℚ) / den < past) :
    IsNearest (num / den) (nearestBits num den) := by
  by_cases hnum : num = 0
  · subst hnum
    rw [nearestBits, if_pos rfl]
    exact ⟨by decide, fun bits _ => by simp [magnitude_zero], fun _ _ _ _ => Even.zero⟩
  · obtain ⟨place, m, hfitted, hbits⟩ := nearestBits_eq hnum hden
    have hfinite := hfitted.finite hx
    rw [hbits, min_eq_left hfinite.le]
    exact hfitted.isNearest hfinite

theorem nearestBits_infinite (hden : den ≠ 0) (hx : past ≤ (num : ℚ) / den) :
    nearestBits num den = infinityBits := by
  have hnum : num ≠ 0 := by
    rintro rfl
    rw [Nat.cast_zero, zero_div] at hx
    exact absurd hx (not_le.mpr (mul_pos (by norm_num) (unit_pos _)))
  obtain ⟨place, m, hfitted, hbits⟩ := nearestBits_eq hnum hden
  rw [hbits, min_eq_right (hfitted.infinite hx)]

theorem nearestBits_tiny (hden : den ≠ 0) (hx : (num : ℚ) / den < unit 0 / 2) :
    nearestBits num den = 0 := by
  by_cases hnum : num = 0
  · rw [nearestBits, if_pos hnum]
  · obtain ⟨place, m, hfitted, hbits⟩ := nearestBits_eq hnum hden
    rw [hbits, hfitted.eq_zero hx, Nat.zero_min]

end Lox.Number
