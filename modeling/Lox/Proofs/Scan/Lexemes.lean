import Lox.Scan

/-! The lexical grammar: which texts are lexemes and what tokens they are, and the lexeme that a
text begins with, taken as long as it can be. -/
namespace Lox.Lexical

/-- The lexemes made of marks. -/
def symbols : List (List Char × TokenKind) :=
  [(['('], .leftParen), ([')'], .rightParen), (['{'], .leftBrace), (['}'], .rightBrace),
    ([','], .comma), (['.'], .dot), (['-'], .minus), (['+'], .plus), ([';'], .semicolon),
    (['*'], .star), (['/'], .slash), (['!'], .bang), (['!', '='], .bangEqual), (['='], .equal),
    (['=', '='], .equalEqual), (['<'], .less), (['<', '='], .lessEqual), (['>'], .greater),
    (['>', '='], .greaterEqual)]

/-- The words that are no identifiers. -/
def reserved : List (String × TokenKind) :=
  [("and", .kwAnd), ("break", .kwBreak), ("class", .kwClass), ("else", .kwElse),
    ("false", .kwFalse), ("for", .kwFor), ("fun", .kwFun), ("if", .kwIf), ("nil", .kwNil),
    ("or", .kwOr), ("print", .kwPrint), ("return", .kwReturn), ("super", .kwSuper),
    ("this", .kwThis), ("true", .kwTrue), ("var", .kwVar), ("while", .kwWhile)]

/-- At least one digit, and nothing else. -/
def IsDigits (cs : List Char) : Prop := cs ≠ [] ∧ ∀ c ∈ cs, c.isDigit

/-- The letters of ASCII, and `_`. -/
def IsLetter (c : Char) : Prop := 'A' ≤ c ∧ c ≤ 'Z' ∨ 'a' ≤ c ∧ c ≤ 'z' ∨ c = '_'

/-- A letter, then letters and digits. -/
def IsWord (cs : List Char) : Prop :=
  ∃ c ds, cs = c :: ds ∧ IsLetter c ∧ ∀ d ∈ ds, IsLetter d ∨ d.isDigit

/-- The double nearest to a decimal number, as `Number.decimal_nearest` says. -/
def decimal (whole places : List Char) : Float :=
  Number.ofMagnitude false
    (Number.bitsOfDecimal (Number.ofDigits (whole ++ places)) (-(places.length : Int)))

/-- The texts that are tokens, with the kind and the literal of the token. -/
inductive Lexeme : List Char → TokenKind → Literal → Prop
  | symbol {text kind} (h : (text, kind) ∈ symbols) : Lexeme text kind .nil
  | string {body} (h : '"' ∉ body) :
      Lexeme ('"' :: (body ++ ['"'])) .string (.string (String.ofList body))
  | whole {ds} (h : IsDigits ds) : Lexeme ds .number (.number (decimal ds []))
  | fraction {ds es} (hd : IsDigits ds) (he : IsDigits es) :
      Lexeme (ds ++ '.' :: es) .number (.number (decimal ds es))
  | keyword {text kind} (hw : IsWord text) (h : (String.ofList text, kind) ∈ reserved) :
      Lexeme text kind .nil
  | identifier {text} (hw : IsWord text)
      (h : ∀ kind, (String.ofList text, kind) ∉ reserved) : Lexeme text .identifier .nil

/-- Two slashes and what follows them in the line. -/
def IsComment (text : List Char) : Prop := ∃ body, text = '/' :: '/' :: body ∧ '\n' ∉ body

/-- A lexeme or a comment. -/
def Element (text : List Char) : Prop := (∃ kind literal, Lexeme text kind literal) ∨ IsComment text

/-- No lexeme or comment that stands at the same place is longer than `text`. -/
def Longest (text after : List Char) : Prop :=
  ∀ other, Element other → other <+: text ++ after → other.length ≤ text.length

end Lox.Lexical
