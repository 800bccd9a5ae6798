import Lox.Proofs.Scan.Numeral
import Lox.Number.Fixed
import Mathlib

/-! The doubles that numerals of the language stand for: their bits survive, they are not negative,
and their text is made of figures.

What is known of the bits of a `Float`, such as `Float.ofBits_toBits`, comes with the whole library
and with no part of it. -/
namespace Lox.Number

variable {bits n : Nat} {c : Char}

theorem infinityBits_eq : infinityBits = 9218868437227405312 := rfl

open Float.Model Float.Model.UnpackedFloat in
/-- Up to infinity no pattern is one of the many that stand for no number. -/
theorem toBits_ofBits {b : UInt64} (h : b.toNat ≤ infinityBits) : (Float.ofBits b).toBits = b := by
  have hvalid : Format.binary64.Valid b.toBitVec := by
    refine ⟨fun hexponent hmantissa => absurd ?_ hmantissa⟩
    rw [unpackExponent_def] at hexponent
    have hfield : b.toNat >>> 52 % 2048 = 2047 := by
      simpa [Format.binary64] using congrArg BitVec.toNat hexponent
    have hfraction : b.toNat % 2 ^ 52 = 0 := by
      simp only [infinityBits_eq, Nat.shiftRight_eq_div_pow] at h hfield
      omega
    rw [unpackMantissa_def]
    apply BitVec.eq_of_toNat_eq
    simpa [Format.binary64] using hfraction
  let x : Float := .ofModel ⟨b, hvalid⟩
  have hx : x.toBits = b := rfl
  rw [← hx, Float.ofBits_toBits]

/-- A double that is made of bits has these bits. -/
theorem toBits_ofMagnitude (h : bits ≤ infinityBits) :
    (ofMagnitude false bits).toBits.toNat = bits := by
  have hnat : (UInt64.ofNat bits).toNat = bits := by
    refine UInt64.toNat_ofNat_of_lt' (Nat.lt_of_le_of_lt h ?_)
    decide
  rw [ofMagnitude, if_neg (by simp), toBits_ofBits (by rw [hnat]; exact h), hnat]

theorem exact_ofMagnitude (h : bits ≤ infinityBits) :
    exact (ofMagnitude false bits) = Exact.ofBits bits := by
  rw [exact, toBits_ofMagnitude h]

/-- A pattern up to infinity stands for infinity or a finite number that is not negative. -/
theorem ofBits_cases (h : bits ≤ infinityBits) :
    Exact.ofBits bits = .infinite false ∨ ∃ m q, Exact.ofBits bits = .finite false m q := by
  have hpow : Nat.pow 2 63 = 9223372036854775808 ∧ Nat.pow 2 52 = 4503599627370496 := ⟨rfl, rfl⟩
  rw [infinityBits_eq] at h
  have hsign : (bits / 9223372036854775808 % 2 == 1) = false := by
    rw [beq_eq_false_iff_ne]
    omega
  simp only [Exact.ofBits, hpow, hsign]
  split
  · rw [if_pos (by omega)]
    exact Or.inl rfl
  · split
    · exact Or.inr ⟨_, _, rfl⟩
    · exact Or.inr ⟨_, _, rfl⟩

/-- What is read is never a NaN. -/
theorem bitsOfDecimal_le (digits : Nat) (exponent : Int) :
    bitsOfDecimal digits exponent ≤ infinityBits := by
  unfold bitsOfDecimal
  dsimp only
  split
  · exact Nat.zero_le _
  · split
    · exact Nat.le_refl _
    · exact nearestBits_le _ _

/-! The text of a number. -/

theorem isDigit_of_mem_decimal (h : c ∈ decimal n) : c.isDigit :=
  Nat.isDigit_of_mem_toDigits (by omega) (by omega) h

/-- A finite number is printed with its value in millionths, rounded. -/
theorem numeral_finite (m : Nat) (q : Int) :
    (Exact.finite false m q).numeral = millionths (roundToMillionths m q) := by
  rw [Exact.numeral, sign, if_neg Bool.false_ne_true, List.nil_append]

theorem millionths_ne_nil (n : Nat) : millionths n ≠ [] := by
  rw [millionths, decimal]
  exact List.append_ne_nil_of_left_ne_nil Nat.toDigits_ne_nil _

theorem isFigure_of_mem_millionths (h : c ∈ millionths n) : IsFigure c := by
  rw [millionths, List.mem_append] at h
  rcases h with h | h
  · exact Or.inl (isDigit_of_mem_decimal h)
  · split at h
    · cases h
    · rcases List.mem_cons.mp h with rfl | h
      · exact Or.inr rfl
      · rw [List.leftpad, List.mem_append, List.mem_replicate] at h
        rcases h with ⟨-, rfl⟩ | h
        · exact Or.inl rfl
        · exact Or.inl (isDigit_of_mem_decimal h)

/-- A numeral in the text of a program that is not past the greatest double stands for a finite
number without a sign. -/
theorem exact_decimal (whole places : List Char)
    (h : exact (Lexical.decimal whole places) ≠ .infinite false) :
    ∃ m q, exact (Lexical.decimal whole places) = .finite false m q := by
  have hle := bitsOfDecimal_le (ofDigits (whole ++ places)) (-(places.length : Int))
  rw [Lexical.decimal, exact_ofMagnitude hle] at h ⊢
  exact (ofBits_cases hle).resolve_left h

end Lox.Number
