import Lox.Number.Fixed
import Lox.Text.Trim

/-!
The text a dump shows for a number: the fewest digits that read back as the same double, and of
those the nearest to it. A layout says how the digits are set: with a point among them, or with an
exponent.
-/

namespace Lox.Number

/-- The decimal number `digits · 10 ^ exponent`. -/
structure Decimal where
  digits : Nat
  exponent : Int
  deriving DecidableEq, Repr

/-- The bits of the double nearest to a decimal number. -/
def Decimal.bits (d : Decimal) : Nat :=
  nearestBits (d.digits * Nat.pow 10 d.exponent.toNat) (Nat.pow 10 (-d.exponent).toNat)

/-- The nearest of the two decimal numbers around `num / den` on the grid of `10 ^ exponent` that
reads back as `bits`. -/
def onGrid? (bits num den : Nat) (exponent : Int) : Option Decimal :=
  let num := num * Nat.pow 10 (-exponent).toNat
  let den := den * Nat.pow 10 exponent.toNat
  let below := num / den
  let nearer := roundDiv num den
  [nearer, if nearer = below then below + 1 else below].map (⟨·, exponent⟩)
    |>.find? (·.bits = bits)

/-- The first decimal number on finer and finer grids that reads back; `tries` bounds the search,
and the last grid is taken without a test. -/
def refine (bits num den : Nat) : Nat → Int → Decimal
  | 0, exponent =>
    ⟨roundDiv (num * Nat.pow 10 (-exponent).toNat) (den * Nat.pow 10 exponent.toNat), exponent⟩
  | tries + 1, exponent =>
    (onGrid? bits num den exponent).getD (refine bits num den tries (exponent - 1))

/-- The shortest decimal number that reads back as the double `mantissa · 2 ^ exponent`, which is
not zero. Seventeen digits are enough for every double. -/
def shortest (mantissa : Nat) (exponent : Int) : Decimal :=
  let num := mantissa * Nat.pow 2 exponent.toNat
  let den := Nat.pow 2 (-exponent).toNat
  let guess : Int := (decimal num).length - (decimal den).length
  refine (nearestBits num den) num den 16 (lowerPower 10 guess num den)

/-- How digits are set: the powers of ten of the first digit between which no exponent is written,
and how many digits an exponent has at least. -/
structure Layout where
  least : Int
  greatest : Int
  exponentWidth : Nat

/-- Dumps write an exponent below `1e-4` and from `1e16` on, with two digits or more. -/
def dumped : Layout := ⟨-4, 15, 2⟩

/-- Digits with a point: `point` of them stand before it. A point has a digit on both sides. -/
def setPoint (digits : List Char) (point : Int) : List Char :=
  if point ≤ 0 then '0' :: '.' :: List.replicate (-point).toNat '0' ++ digits
  else
    let whole := digits.take point.toNat
    let places := digits.drop point.toNat
    whole ++ List.replicate (point.toNat - digits.length) '0' ++
      '.' :: if places.isEmpty then ['0'] else places

/-- Digits with an exponent: one of them stands before the point, if there is a point at all. -/
def setExponent (width : Nat) (digits : List Char) (exponent : Int) : List Char :=
  let places := digits.drop 1
  digits.take 1 ++ (if places.isEmpty then [] else '.' :: places) ++
    'e' :: (if exponent < 0 then '-' else '+') :: (decimal exponent.natAbs).leftpad width '0'

def Layout.set (layout : Layout) (d : Decimal) : List Char :=
  let all := decimal d.digits
  let digits := Text.trimEnd (· = '0') all
  let first : Int := d.exponent + all.length - 1
  if layout.least ≤ first ∧ first ≤ layout.greatest then setPoint digits (first + 1)
  else setExponent layout.exponentWidth digits first

/-- The characters a dump shows for an exact number. -/
def Exact.dump : Exact → List Char
  | .nan => ['n', 'a', 'n']
  | .infinite negative => sign negative ++ ['i', 'n', 'f']
  | .finite negative m q =>
    sign negative ++ if m = 0 then ['0', '.', '0'] else dumped.set (shortest m q)

def dump (x : Float) : String := String.ofList (exact x).dump

end Lox.Number
