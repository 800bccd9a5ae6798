import Lox.Fault

/-!
Diagnostics: errors of every stage in one form, as they are recorded and shown.
-/

namespace Lox

/-- The kinds of error. `plain` and `static` are the general ones. -/
inductive Diagnostic.Kind where
  | plain | static | scan | parse | resolve | runtime
  deriving DecidableEq, Repr

namespace Diagnostic.Kind

def name : Diagnostic.Kind → String
  | plain => "LoxError"
  | static => "StaticError"
  | scan => "ScanError"
  | parse => "ParseError"
  | resolve => "ResolveError"
  | runtime => "LoxRuntimeError"

def all : List Diagnostic.Kind := [plain, static, scan, parse, resolve, runtime]

def ofName? (s : String) : Option Diagnostic.Kind := all.find? (·.name == s)

/-- Whether the error is found before the program runs. -/
def isStatic : Diagnostic.Kind → Bool
  | plain | runtime => false
  | static | scan | parse | resolve => true

end Diagnostic.Kind

/-- An error as it is recorded. `excerpt` is the offending text where there is no token. -/
structure Diagnostic where
  kind : Diagnostic.Kind
  message : String
  line : Int
  token : Option Token
  excerpt : Option String
  deriving Repr

namespace Diagnostic

def atToken (kind : Kind) (message : String) (token : Token) : Diagnostic :=
  ⟨kind, message, token.line, some token, none⟩

/-- The offending text, if any is known. -/
def lexeme? (d : Diagnostic) : Option String :=
  match d.token with
  | some t => some t.lexeme
  | none => d.excerpt

/-- The words that name the offending token. -/
def place (d : Diagnostic) : String :=
  match d.token with
  | none => ""
  | some t => if t.kind = .eof then " at end" else " at '" ++ t.lexeme ++ "'"

/-- The error in one line of text, which calls it an error whatever its kind. -/
def text (d : Diagnostic) : String :=
  "[line " ++ toString d.line ++ "] error" ++ d.place ++ ": " ++ d.message

end Diagnostic

def ScanError.diagnostic (e : ScanError) : Diagnostic :=
  ⟨.scan, e.fault.message, e.line, none, some e.fault.excerpt⟩

def SyntaxError.diagnostic (e : SyntaxError) : Diagnostic :=
  .atToken .parse e.fault.message e.token

def ScopeError.diagnostic (e : ScopeError) : Diagnostic :=
  .atToken .resolve e.fault.message e.token

def RuntimeError.diagnostic (e : RuntimeError) : Diagnostic :=
  .atToken .runtime e.fault.message e.token

end Lox
