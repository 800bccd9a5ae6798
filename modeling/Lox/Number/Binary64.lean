/-!
Doubles as exact numbers.

`Exact` is what a double stands for: a signed integer times a power of two, an infinity, or no
number. `nearestBits` goes the other way: the pattern of the double nearest to a quotient of natural
numbers, a tie going to the even pattern. Everything is natural number arithmetic.
-/

namespace Lox.Number

/-- `num / den` rounded to the nearest integer; a half goes to the even neighbour. -/
def roundDiv (num den : Nat) : Nat :=
  let quotient := num / den
  let twice := 2 * (num % den)
  if twice < den then quotient
  else if den < twice then quotient + 1
  else quotient + quotient % 2

@[simp] theorem roundDiv_one (n : Nat) : roundDiv n 1 = n := by
  simp [roundDiv, Nat.mod_one]

/-- What a double stands for: `finite s m q` is `m · 2 ^ q`, negated if `s`. -/
inductive Exact where
  | nan
  | infinite (negative : Bool)
  | finite (negative : Bool) (mantissa : Nat) (exponent : Int)
  deriving DecidableEq, Repr

/-- The number that 64 bits stand for: a sign, eleven bits of exponent, 52 of fraction. -/
def Exact.ofBits (bits : Nat) : Exact :=
  let negative := bits / Nat.pow 2 63 % 2 == 1
  let field : Nat := bits / Nat.pow 2 52 % 2048
  let fraction := bits % Nat.pow 2 52
  if field = 2047 then if fraction = 0 then .infinite negative else .nan
  else if field = 0 then .finite negative fraction (-1074)
  else .finite negative (Nat.pow 2 52 + fraction) ((field : Int) - 1075)

/-- The number a double stands for. -/
def exact (x : Float) : Exact := Exact.ofBits x.toBits.toNat

/-- The greatest `e` with `base ^ e ≤ num / den`, given that `guess` is that or one more. -/
def lowerPower (base : Nat) (guess : Int) (num den : Nat) : Int :=
  if den * Nat.pow base guess.toNat ≤ num * Nat.pow base (-guess).toNat then guess else guess - 1

/-- The bits of infinity, the first pattern past the finite doubles. -/
def infinityBits : Nat := 2047 * Nat.pow 2 52

/-- The bits of the double nearest to `num / den`. The last place is worth `2 ^ q`; as the mantissa
overlaps the exponent field by its leading bit, adding the two gives the pattern, also for subnormal
numbers and where rounding carries into the next power. -/
def nearestBits (num den : Nat) : Nat :=
  if num = 0 then 0
  else
    let e := lowerPower 2 ((num.log2 : Int) - den.log2) num den
    let q := max (e - 52) (-1074)
    let mantissa := roundDiv (num * Nat.pow 2 (-q).toNat) (den * Nat.pow 2 q.toNat)
    min ((q + 1074).toNat * Nat.pow 2 52 + mantissa) infinityBits

theorem nearestBits_le (num den : Nat) : nearestBits num den ≤ infinityBits := by
  unfold nearestBits
  split
  · exact Nat.zero_le _
  · exact Nat.min_le_right _ _

/-- The double with the given magnitude and sign. -/
def ofMagnitude (negative : Bool) (bits : Nat) : Float :=
  Float.ofBits (UInt64.ofNat (if negative then Nat.pow 2 63 + bits else bits))

example : nearestBits 1 1 = 0x3FF0000000000000 ∧ nearestBits 1 10 = 0x3FB999999999999A := by decide
example : nearestBits 1 (2 ^ 1075) = 0 ∧ nearestBits 3 (2 ^ 1076) = 1 := by decide +kernel
example : nearestBits (2 ^ 1024 - 2 ^ 970) 1 = infinityBits := by decide +kernel

end Lox.Number
