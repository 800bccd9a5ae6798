/-!
Tokens: the words of a program. A token has a kind, the characters it was read from, the value those
characters stand for when they are a numeral or a quoted string, and a line number.

`keyword?` is the table of reserved words; every other name is an identifier.
-/

namespace Lox

/-- The kinds of token. `kw` marks the reserved words. -/
inductive TokenKind where
  | leftParen | rightParen | leftBrace | rightBrace
  | comma | dot | minus | plus | semicolon | slash | star
  | bang | bangEqual | equal | equalEqual | greater | greaterEqual | less | lessEqual
  | identifier | string | number
  | kwAnd | kwBreak | kwClass | kwElse | kwFalse | kwFun | kwFor | kwIf | kwNil | kwOr | kwPrint
  | kwReturn | kwSuper | kwThis | kwTrue | kwVar | kwWhile
  | eof
  deriving DecidableEq, Repr, Inhabited

namespace TokenKind

/-- The name a token dump shows for a kind. -/
def name : TokenKind → String
  | leftParen => "LEFT_PAREN"
  | rightParen => "RIGHT_PAREN"
  | leftBrace => "LEFT_BRACE"
  | rightBrace => "RIGHT_BRACE"
  | comma => "COMMA"
  | dot => "DOT"
  | minus => "MINUS"
  | plus => "PLUS"
  | semicolon => "SEMICOLON"
  | slash => "SLASH"
  | star => "STAR"
  | bang => "BANG"
  | bangEqual => "BANG_EQUAL"
  | equal => "EQUAL"
  | equalEqual => "EQUAL_EQUAL"
  | greater => "GREATER"
  | greaterEqual => "GREATER_EQUAL"
  | less => "LESS"
  | lessEqual => "LESS_EQUAL"
  | identifier => "IDENTIFIER"
  | string => "STRING"
  | number => "NUMBER"
  | kwAnd => "AND"
  | kwBreak => "BREAK"
  | kwClass => "CLASS"
  | kwElse => "ELSE"
  | kwFalse => "FALSE"
  | kwFun => "FUN"
  | kwFor => "FOR"
  | kwIf => "IF"
  | kwNil => "NIL"
  | kwOr => "OR"
  | kwPrint => "PRINT"
  | kwReturn => "RETURN"
  | kwSuper => "SUPER"
  | kwThis => "THIS"
  | kwTrue => "TRUE"
  | kwVar => "VAR"
  | kwWhile => "WHILE"
  | eof => "EOF"

/-- Every kind, in the order of declaration. -/
def all : List TokenKind :=
  [leftParen, rightParen, leftBrace, rightBrace, comma, dot, minus, plus, semicolon, slash, star,
    bang, bangEqual, equal, equalEqual, greater, greaterEqual, less, lessEqual, identifier, string,
    number, kwAnd, kwBreak, kwClass, kwElse, kwFalse, kwFun, kwFor, kwIf, kwNil, kwOr, kwPrint,
    kwReturn, kwSuper, kwThis, kwTrue, kwVar, kwWhile, eof]

theorem mem_all (k : TokenKind) : k ∈ all := by cases k <;> decide

def ofName? (s : String) : Option TokenKind :=
  all.find? (·.name == s)

def keywords : List (String × TokenKind) :=
  [("and", kwAnd), ("break", kwBreak), ("class", kwClass), ("else", kwElse), ("false", kwFalse),
    ("for", kwFor), ("fun", kwFun), ("if", kwIf), ("nil", kwNil), ("or", kwOr), ("print", kwPrint),
    ("return", kwReturn), ("super", kwSuper), ("this", kwThis), ("true", kwTrue), ("var", kwVar),
    ("while", kwWhile)]

/-- The kind of a reserved word; other words have none. -/
def keyword? (word : String) : Option TokenKind :=
  keywords.lookup word

/-- The kind of a name: reserved, or an identifier. -/
def ofWord (word : String) : TokenKind :=
  (keyword? word).getD identifier

end TokenKind

/-- The value that stands in the source text itself. A token that stands for no value has `nil`. -/
inductive Literal where
  | nil
  | bool (b : Bool)
  | number (x : Float)
  | string (s : String)
  deriving DecidableEq, Repr, Inhabited

/-- A token. Lines count from 1; a token stands on the line where its last character is. -/
structure Token where
  kind : TokenKind
  lexeme : String
  literal : Literal
  line : Int
  deriving DecidableEq, Repr, Inhabited

/-- The token that ends every program. -/
def Token.endOfInput (line : Int) : Token := ⟨.eof, "", .nil, line⟩

end Lox
