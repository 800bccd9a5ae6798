import Lox.Number.Binary64

/-!
The text `print` shows for a number: its exact value rounded to six decimal places, a half going to
the even neighbour, and without the places where all six are zero. The sign bit always shows, so
there is a `-0`.
-/

namespace Lox.Number

def decimal (n : Nat) : List Char := Nat.toDigits 10 n

def sign (negative : Bool) : List Char := if negative then ['-'] else []

/-- A number of millionths, with a point before its six places, which are left out where zero. -/
def millionths (n : Nat) : List Char :=
  decimal (n / Nat.pow 10 6) ++
    if n % Nat.pow 10 6 = 0 then [] else '.' :: (decimal (n % Nat.pow 10 6)).leftpad 6 '0'

/-- How many millionths `mantissa · 2 ^ exponent` is, rounded. -/
def roundToMillionths (mantissa : Nat) (exponent : Int) : Nat :=
  roundDiv (mantissa * Nat.pow 10 6 * Nat.pow 2 exponent.toNat) (Nat.pow 2 (-exponent).toNat)

/-- The characters `print` shows for an exact number. -/
def Exact.numeral : Exact → List Char
  | .nan => ['n', 'a', 'n']
  | .infinite negative => sign negative ++ ['i', 'n', 'f']
  | .finite negative m q => sign negative ++ millionths (roundToMillionths m q)

/-- The text `print` shows for a number. -/
def numeral (x : Float) : String := String.ofList (exact x).numeral

example : (Exact.finite false 5 (-1)).numeral = "2.500000".toList := by decide +kernel
example : (Exact.finite true 0 0).numeral = "-0".toList := by decide +kernel
example : (Exact.finite false 1 (-7)).numeral = "0.007812".toList := by decide +kernel

end Lox.Number
