import Lox.Proofs.Number.Decimal
import Lox.Proofs.Scan.Layout

/-! The text that is shown for a number is a numeral, and reads back as a number for which the same
text is shown. -/
namespace Lox

namespace Lexical

variable {text : List Char} {kind : TokenKind} {literal : Literal}

/-- A lexeme in one line is scanned as one token. -/
theorem scan_lexeme (h : Lexeme text kind literal) (hline : '\n' ∉ text) :
    scan (String.ofList text) =
      ⟨[⟨kind, String.ofList text, literal, 1⟩], .endOfInput 1, []⟩ := by
  obtain ⟨c, cs, rfl⟩ := List.exists_cons_of_ne_nil h.ne_nil
  have hcount : (c :: cs).count '\n' = 0 := List.count_eq_zero.mpr hline
  have hmunch : Scan.munch c (cs ++ []) = _ := munch_lexeme h rfl (by simp [Gapped])
  have hpieces := pieces_munch hmunch 1
  rw [List.append_nil, hcount] at hpieces
  simp [scan, hpieces, hcount, Scan.Piece.token?, Scan.Piece.error?]

end Lexical

namespace Number

variable {bits n digits : ℕ}

/-- The digits that are written for a number write it. -/
theorem ofDigits_decimal (n : ℕ) : ofDigits (decimal n) = n := Nat.ofDigitChars_ten_toDigits

theorem ofDigits_append (ds es : List Char) :
    ofDigits (ds ++ es) = 10 ^ es.length * ofDigits ds + ofDigits es :=
  Nat.ofDigitChars_append 0 |>.trans Nat.ofDigitChars_eq_ofDigitChars_zero

theorem isDigits_decimal (n : ℕ) : Lexical.IsDigits (decimal n) :=
  ⟨Nat.toDigits_ne_nil, fun _ hc => isDigit_of_mem_decimal hc⟩

/-- The six places of a number that needs no more, with zeros before it. -/
theorem places_spec (hn : n < 10 ^ 6) :
    let places := (decimal n).leftpad 6 '0'
    Lexical.IsDigits places ∧ places.length = 6 ∧ ofDigits places = n := by
  have hlength : (decimal n).length ≤ 6 :=
    (Nat.length_toDigits_le_iff (by decide) (by decide)).mpr hn
  refine ⟨⟨?_, ?_⟩, ?_, ?_⟩
  · exact List.append_ne_nil_of_right_ne_nil _ Nat.toDigits_ne_nil
  · intro c hc
    rcases List.mem_append.mp hc with hc | hc
    · rw [(List.mem_replicate.mp hc).2]
      rfl
    · exact isDigit_of_mem_decimal hc
  · rw [List.length_leftpad]
    omega
  · rw [List.leftpad, ofDigits_append, ofDigits_decimal]
    have hzeros (k : ℕ) : ofDigits (List.replicate k '0') = 0 :=
      Nat.ofDigitChars_replicate_zero
    rw [hzeros, Nat.mul_zero, Nat.zero_add]

/-- A number of millionths is written as a numeral, whose digits write it. -/
theorem lexeme_millionths (n : ℕ) : ∃ whole places : List Char,
    written whole places = n / 10 ^ 6 ∧
      Lexical.Lexeme (millionths n) .number (.number (Lexical.decimal whole places)) := by
  have hsplit := Nat.div_add_mod n (10 ^ 6)
  unfold millionths
  have hpow : Nat.pow 10 6 = 10 ^ 6 := rfl
  rw [hpow]
  split_ifs with hzero
  · refine ⟨decimal (n / 10 ^ 6), [], ?_, ?_⟩
    · have hmul : (n : ℚ) = 10 ^ 6 * (n / 10 ^ 6 : ℕ) := by
        exact_mod_cast (by omega : n = 10 ^ 6 * (n / 10 ^ 6))
      rw [written, List.append_nil, ofDigits_decimal, List.length_nil, pow_zero, div_one, hmul,
        mul_div_cancel_left₀ _ (by positivity)]
    · rw [List.append_nil]
      exact .whole (isDigits_decimal (n / 10 ^ 6))
  · obtain ⟨hdigits, hlength, hvalue⟩ := places_spec (Nat.mod_lt n (by decide : 0 < 10 ^ 6))
    refine ⟨decimal (n / 10 ^ 6), _, ?_, .fraction (isDigits_decimal (n / 10 ^ 6)) hdigits⟩
    rw [written, ofDigits_append, ofDigits_decimal, hlength, hvalue, hsplit]

/-- Bits below those of infinity are those of a finite number. -/
theorem ofBits_finite (hfinite : bits < infinityBits) :
    ∃ m q, Exact.ofBits bits = .finite false m q := by
  rw [infinityBits_eq] at hfinite
  have hbits := Nat.div_add_mod' bits (2 ^ 52)
  rw [← hbits, ofBits_eq (by omega) (Nat.mod_lt _ (by positivity))]
  split_ifs
  · exact ⟨_, _, rfl⟩
  · exact ⟨_, _, rfl⟩

/-- The millionths printed are the number's own, rounded to even. -/
theorem roundsTo_millionths (m : ℕ) (q : ℤ) :
    RoundsTo (m * 2 ^ q * 10 ^ 6) (roundToMillionths m q) := by
  have hpos : 0 < 2 ^ (-q).toNat := by positivity
  have hround := roundsTo_roundDiv (m * 10 ^ 6 * 2 ^ q.toNat) hpos
  have hvalue : (m : ℚ) * 2 ^ q * 10 ^ 6 =
      (m * 10 ^ 6 * 2 ^ q.toNat : ℕ) / (2 ^ (-q).toNat : ℕ) := by
    rw [zpow_eq_div two_ne_zero]
    push_cast
    ring
  rw [hvalue]
  exact hround

/-- What is shown for a finite double is its number of millionths, rounded. -/
theorem exists_shown (hfinite : bits < infinityBits) : ∃ n,
    (Exact.ofBits bits).numeral = millionths n ∧ RoundsTo (magnitude bits * 10 ^ 6) n := by
  obtain ⟨m, q, hbits⟩ := ofBits_finite hfinite
  refine ⟨roundToMillionths m q, ?_, ?_⟩
  · rw [hbits, numeral_finite]
  · rw [magnitude, hbits]
    exact roundsTo_millionths m q

/-- The double that is nearest to what is shown for another has the same shown for it, as it is no
further off. If the other is a whole number, nothing was lost and it is the same. -/
theorem nearest_shown {shown bits' : ℕ} (hfinite : bits < infinityBits)
    (hshown : RoundsTo (magnitude bits * 10 ^ 6) shown)
    (hnearest : |magnitude bits' - shown / 10 ^ 6| ≤ |magnitude bits - shown / 10 ^ 6|)
    (hfinite' : bits' < infinityBits) :
    RoundsTo (magnitude bits' * 10 ^ 6) shown ∧
      ((∃ n : ℕ, magnitude bits = n) → bits' = bits) := by
  have hscale (a : ℚ) : |(shown : ℚ) - a * 10 ^ 6| = |a - shown / 10 ^ 6| * 10 ^ 6 := by
    rw [← abs_of_pos (by positivity : (0 : ℚ) < 10 ^ 6), ← abs_mul, abs_sub_comm,
      abs_of_pos (by positivity : (0 : ℚ) < 10 ^ 6)]
    congr 1
    field_simp
  refine ⟨hshown.of_nearer ?_, ?_⟩
  · rw [hscale, hscale]
    exact mul_le_mul_of_nonneg_right hnearest (by positivity)
  · rintro ⟨n, hn⟩
    have hwhole : shown = n * 10 ^ 6 := by
      rw [hn] at hshown
      refine hshown.unique ?_
      exact_mod_cast roundsTo_self (n * 10 ^ 6)
    have hexact : (shown : ℚ) / 10 ^ 6 = magnitude bits := by
      rw [hwhole, hn, Nat.cast_mul, Nat.cast_pow, Nat.cast_ofNat,
        mul_div_cancel_right₀ _ (by positivity)]
    rw [hexact, sub_self, abs_zero] at hnearest
    exact magnitude_injOn hfinite' hfinite (sub_eq_zero.mp (abs_nonpos_iff.mp hnearest))

/-- The text that is shown for a finite double without a sign is scanned as one numeral and nothing
else. The double that this stands for has the same text, and is the same one if it was a whole
number. -/
theorem scan_numeral (x : Float) (hx : x.toBits.toNat < infinityBits) : ∃ y : Float,
    scan (numeral x) = ⟨[⟨.number, numeral x, .number y, 1⟩], .endOfInput 1, []⟩ ∧
      numeral y = numeral x ∧
      ((∃ n : ℕ, (exact x).magnitude = n) → y.toBits = x.toBits) := by
  obtain ⟨shown, htext, hshown⟩ := exists_shown hx
  have hle : shown ≤ greatest * 10 ^ 6 := hshown.le (by
    push_cast
    exact mul_le_mul_of_nonneg_right (magnitude_le_greatest hx) (by positivity))
  obtain ⟨whole, places, hvalue, hlexeme⟩ := lexeme_millionths shown
  have hrange : written whole places < past := by
    refine lt_of_le_of_lt ?_ greatest_lt_past
    rw [hvalue, div_le_iff₀ (by positivity)]
    exact_mod_cast hle
  have hnearest := decimal_nearest hrange
  have hclosest := hnearest.near _ hx
  rw [hvalue] at hclosest
  obtain ⟨hsame, hwhole⟩ := nearest_shown hx hshown hclosest hnearest.finite
  have hnumeral : numeral x = String.ofList (millionths shown) := congrArg String.ofList htext
  refine ⟨Lexical.decimal whole places, ?_, ?_, fun hn => ?_⟩
  · rw [hnumeral]
    refine Lexical.scan_lexeme hlexeme fun hline => ?_
    have hbounds := (isFigure_of_mem_millionths hline).bounds
    simp at hbounds
  · obtain ⟨shown', htext', hshown'⟩ := exists_shown hnearest.finite
    rw [hnumeral, numeral, exact, htext', hshown'.unique hsame]
  · exact UInt64.toNat_inj.mp (hwhole hn)

theorem scan_numeral_twoToSixty :
    let x := Float.ofBits 0x43B0000000000000
    x.toBits.toNat < infinityBits ∧ (exact x).magnitude = (2 ^ 60 : ℕ) ∧
      numeral x = "1152921504606846976" ∧ ∃ y : Float,
        scan (numeral x) = ⟨[⟨.number, numeral x, .number y, 1⟩], .endOfInput 1, []⟩ ∧
          numeral y = numeral x ∧ y.toBits = x.toBits := by
  intro x
  have hbits : x.toBits = 0x43B0000000000000 := toBits_ofBits (by decide)
  have hx : x.toBits.toNat < infinityBits := by
    rw [hbits]
    decide
  have hexact : exact x = .finite false (2 ^ 52) 8 := by
    rw [exact, hbits]
    decide
  have hwhole : (exact x).magnitude = (2 ^ 60 : ℕ) := by
    rw [hexact, Exact.magnitude]
    norm_num
  obtain ⟨y, hscan, hsame, htoBits⟩ := scan_numeral x hx
  refine ⟨hx, hwhole, ?_, y, hscan, hsame, htoBits ⟨_, hwhole⟩⟩
  rw [numeral, hexact]
  decide

end Number

end Lox
