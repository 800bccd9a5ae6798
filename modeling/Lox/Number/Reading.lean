import Lox.Text.Blank
import Lox.Text.Digit
import Lox.Text.Trim
import Lox.Number.Binary64

/-!
Reading a number from text.

The text is a decimal number with an optional sign, point and exponent, or a word for infinity or
for no number, in upper or lower case. Blanks around it are skipped, digits of every script count,
and a single `_` may stand between two digits. The value is the nearest double.
-/

namespace Lox.Number

/-- A character in its plain form: a digit of any script as an ASCII one, a blank beyond ASCII as a
space. Nothing else beyond ASCII occurs in a number. -/
def plain? (c : Char) : Option Char :=
  if c.toNat < 0x7F then some c
  else if Text.isBlank c then some ' '
  else (Text.digitValue? c).map Nat.digitChar

/-- The blanks of ASCII that may stand around a number. -/
def isPadding (c : Char) : Bool := c = ' ' || (0x9 ≤ c.toNat && c.toNat ≤ 0xD)

/-- The text without the padding at its two ends. -/
def unpad (cs : List Char) : List Char := Text.trim isPadding cs

/-- The text without its `_` marks, each of which must stand between two digits. -/
def unmark? (afterDigit : Bool) : List Char → Option (List Char)
  | [] => some []
  | '_' :: cs =>
    if afterDigit && (cs.head?.any Char.isDigit) then unmark? false cs else none
  | c :: cs => (unmark? c.isDigit cs).map (c :: ·)

def ofDigits (digits : List Char) : Nat :=
  digits.foldl (fun n c => 10 * n + (c.toNat - '0'.toNat)) 0

/-- A sign and what follows it. -/
def splitSign : List Char → Bool × List Char
  | '-' :: cs => (true, cs)
  | '+' :: cs => (false, cs)
  | cs => (false, cs)

/-- The exponent that ends a number; without one it is zero. -/
def exponent? : List Char → Option Int
  | [] => some 0
  | c :: cs =>
    let (negative, digits) := splitSign cs
    if (c = 'e' || c = 'E') && !digits.isEmpty && digits.all Char.isDigit then
      some (if negative then -(ofDigits digits : Int) else ofDigits digits)
    else none

/-- The bits of the double nearest to `digits · 10 ^ exponent`. Far outside the range of doubles the
power is not computed: the number is past the greatest, or below half the least. -/
def bitsOfDecimal (digits : Nat) (exponent : Int) : Nat :=
  let first := exponent + (Nat.toDigits 10 digits).length
  if digits = 0 ∨ first < -400 then 0
  else if 400 < first then infinityBits
  else nearestBits (digits * Nat.pow 10 exponent.toNat) (Nat.pow 10 (-exponent).toNat)

/-- The bits of an unsigned decimal number. -/
def magnitude? (cs : List Char) : Option Nat :=
  let whole := cs.takeWhile Char.isDigit
  let rest := cs.dropWhile Char.isDigit
  let (places, rest) :=
    match rest with
    | '.' :: cs => (cs.takeWhile Char.isDigit, cs.dropWhile Char.isDigit)
    | _ => ([], rest)
  if whole.isEmpty && places.isEmpty then none
  else (exponent? rest).map fun e => bitsOfDecimal (ofDigits (whole ++ places)) (e - places.length)

def nanBits : Nat := infinityBits + Nat.pow 2 51

/-- The bits of an unsigned number, in figures or words. -/
def unsigned? (cs : List Char) : Option Nat :=
  match String.ofList (cs.map Char.toLower) with
  | "inf" | "infinity" => some infinityBits
  | "nan" => some nanBits
  | _ => magnitude? cs

/-- The number a text stands for. -/
def read? (text : String) : Option Float := do
  let cs ← text.toList.mapM plain?
  let cs ← unmark? false (unpad cs)
  let (negative, cs) := splitSign cs
  (unsigned? cs).map (ofMagnitude negative)

end Lox.Number
