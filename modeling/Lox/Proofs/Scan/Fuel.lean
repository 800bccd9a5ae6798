import Lox.Scan

/-! Scanning with as much fuel as there are characters. It comes to the same, and the scan of a text
that is known can be computed by it. -/
namespace Lox

open Scan (Piece piece munch pieces)

/-- The pieces of a text, of which there are no more than the fuel allows. -/
def Scan.piecesWithin (line : Nat) : Nat → List Char → List Piece
  | fuel + 1, c :: cs =>
    piece line c cs :: piecesWithin (piece line c cs).line fuel (cs.drop (munch c cs).2)
  | _, _ => []

theorem Scan.piecesWithin_eq {fuel : Nat} {cs : List Char} (line : Nat) (h : cs.length ≤ fuel) :
    piecesWithin line fuel cs = pieces line cs := by
  induction fuel generalizing line cs with
  | zero =>
    obtain rfl := List.length_eq_zero_iff.mp (Nat.le_zero.mp h)
    simp [piecesWithin]
  | succ fuel ih =>
    cases cs with
    | nil => simp [piecesWithin]
    | cons c cs =>
      rw [piecesWithin, pieces_cons, ih]
      simp only [List.length_cons, List.length_drop] at h ⊢
      omega

/-- Scanning without a bound on the number of pieces. -/
theorem scan_eq (source : String) :
    scan source =
      let cs := source.toList
      let pieces := Scan.piecesWithin 1 cs.length cs
      { tokens := pieces.filterMap (·.token?)
        finish := .endOfInput (1 + cs.count '\n' : Nat)
        errors := pieces.filterMap (·.error?) } := by
  simp only [Scan.piecesWithin_eq 1 (Nat.le_refl _)]
  rfl

end Lox
