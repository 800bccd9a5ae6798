import Lox.Fault
import Lox.Number.Reading

/-!
Scanning: a source text as a sequence of pieces, each a token, a gap or a fault.

`munch` decides what stands at a character and how many of the characters after it belong to it,
always the most that can. `pieces` cuts the whole text; no character is lost, as
`flatMap_lexeme_pieces` says. `scan` sorts the pieces into the tokens and the errors.
-/

namespace Lox.Scan

/-- What a piece of source text is. -/
inductive Class where
  | token (kind : TokenKind) (literal : Literal)
  | gap
  | fault (f : ScanFault)
  deriving Repr

/-- A piece of source text. The line is that of its last character. -/
structure Piece where
  sort : Class
  lexeme : List Char
  line : Nat
  deriving Repr

/-- The tokens of a single character that begin no longer token. -/
def single? : Char → Option TokenKind
  | '(' => some .leftParen
  | ')' => some .rightParen
  | '{' => some .leftBrace
  | '}' => some .rightBrace
  | ',' => some .comma
  | '.' => some .dot
  | '-' => some .minus
  | '+' => some .plus
  | ';' => some .semicolon
  | '*' => some .star
  | _ => none

/-- The characters that form one token with a following `=` and another without it. -/
def double? : Char → Option (TokenKind × TokenKind)
  | '!' => some (.bangEqual, .bang)
  | '=' => some (.equalEqual, .equal)
  | '<' => some (.lessEqual, .less)
  | '>' => some (.greaterEqual, .greater)
  | _ => none

/-- The blank characters of the language, the line feed among them. -/
def isGap (c : Char) : Bool := c = ' ' || c = '\r' || c = '\t' || c = '\n'

/-- The characters a name begins with: the letters of ASCII and `_`. -/
def isNameStart (c : Char) : Bool := c.isAlpha || c = '_'

/-- The characters a name goes on with. -/
def isNamePart (c : Char) : Bool := c.isAlphanum || c = '_'

/-- How many characters at the head satisfy `p`. -/
def run (p : Char → Bool) (cs : List Char) : Nat := (cs.takeWhile p).length

/-- How many characters after its first digit belong to a numeral. A point belongs to it only if a
digit follows. -/
def numeralRun (cs : List Char) : Nat :=
  let n := run Char.isDigit cs
  match cs.drop n with
  | '.' :: d :: rest => if d.isDigit then n + 1 + run Char.isDigit (d :: rest) else n
  | _ => n

def numeral (text : String) : Class :=
  match Number.read? text with
  | some x => .token .number (.number x)
  | none => .fault (.invalidNumber text)

/-- What stands at `c`, and how many of the characters after it belong to it. -/
def munch (c : Char) (cs : List Char) : Class × Nat :=
  match single? c, double? c with
  | some kind, _ => (.token kind .nil, 0)
  | none, some (joined, alone) =>
    if cs.head? = some '=' then (.token joined .nil, 1) else (.token alone .nil, 0)
  | none, none =>
    if c = '/' then
      if cs.head? = some '/' then (.gap, run (· ≠ '\n') cs) else (.token .slash .nil, 0)
    else if isGap c then (.gap, 0)
    else if c = '"' then
      let n := run (· ≠ '"') cs
      if n < cs.length then (.token .string (.string (String.ofList (cs.take n))), n + 1)
      else (.fault .unterminatedString, n)
    else if c.isDigit then
      let n := numeralRun cs
      (numeral (String.ofList (c :: cs.take n)), n)
    else if isNameStart c then
      let n := run isNamePart cs
      (.token (TokenKind.ofWord (String.ofList (c :: cs.take n))) .nil, n)
    else (.fault (.unexpectedCharacter c), 0)

/-- The piece that begins at `c`, where `line` is the line of `c`. -/
def piece (line : Nat) (c : Char) (cs : List Char) : Piece :=
  let (sort, n) := munch c cs
  let lexeme := c :: cs.take n
  ⟨sort, lexeme, line + lexeme.count '\n'⟩

/-- The pieces of a text that begins on `line`, after those already cut. -/
def piecesFrom (line : Nat) (done : Array Piece) : List Char → Array Piece
  | [] => done
  | c :: cs =>
    let next := piece line c cs
    piecesFrom next.line (done.push next) (cs.drop (munch c cs).2)
termination_by cs => cs.length
decreasing_by simp only [List.length_drop, List.length_cons]; omega

/-- The pieces of a text that begins on `line`. -/
def pieces (line : Nat) (cs : List Char) : List Piece := (piecesFrom line #[] cs).toList

theorem piecesFrom_eq (line : Nat) (done : Array Piece) (cs : List Char) :
    (piecesFrom line done cs).toList = done.toList ++ pieces line cs := by
  match cs with
  | [] => simp [pieces, piecesFrom]
  | c :: cs =>
    rw [pieces, piecesFrom, piecesFrom, piecesFrom_eq _ (done.push _) (cs.drop _),
      piecesFrom_eq _ (#[].push _) (cs.drop _)]
    simp
termination_by cs.length
decreasing_by all_goals simp only [List.length_drop, List.length_cons]; omega

@[simp] theorem pieces_nil (line : Nat) : pieces line [] = [] := by
  simp [pieces, piecesFrom]

/-- The first piece, and the pieces of what it leaves. -/
theorem pieces_cons (line : Nat) (c : Char) (cs : List Char) :
    pieces line (c :: cs) =
      piece line c cs :: pieces (piece line c cs).line (cs.drop (munch c cs).2) := by
  rw [pieces, piecesFrom]
  simpa using piecesFrom_eq (piece line c cs).line #[piece line c cs] (cs.drop (munch c cs).2)

/-- A piece and what it leaves make up the text. -/
theorem lexeme_piece (line : Nat) (c : Char) (cs : List Char) :
    (piece line c cs).lexeme ++ cs.drop (munch c cs).2 = c :: cs := by
  simp [piece]

/-- The pieces hold the whole text, in order. -/
theorem flatMap_lexeme_pieces (line : Nat) (cs : List Char) :
    (pieces line cs).flatMap (·.lexeme) = cs := by
  match cs with
  | [] => simp
  | c :: cs =>
    rw [pieces_cons, List.flatMap_cons, flatMap_lexeme_pieces, lexeme_piece]
termination_by cs.length
decreasing_by simp only [List.length_drop, List.length_cons]; omega

def Piece.token? (p : Piece) : Option Token :=
  match p.sort with
  | .token kind literal => some ⟨kind, String.ofList p.lexeme, literal, p.line⟩
  | _ => none

def Piece.error? (p : Piece) : Option ScanError :=
  match p.sort with
  | .fault f => some ⟨f, p.line⟩
  | _ => none

end Lox.Scan

namespace Lox

/-- A scanned source text: its tokens, the token that ends them, and what could not be scanned. -/
structure Scan where
  tokens : List Token
  finish : Token
  errors : List ScanError
  deriving Repr

/-- All tokens, the last one included. -/
def Scan.listing (s : Scan) : List Token := s.tokens ++ [s.finish]

/-- Scans a source text. A character that begins no token is reported and skipped. -/
def scan (source : String) : Scan :=
  let cs := source.toList
  let pieces := Scan.pieces 1 cs
  { tokens := pieces.filterMap (·.token?)
    finish := .endOfInput (1 + cs.count '\n' : Nat)
    errors := pieces.filterMap (·.error?) }

end Lox
