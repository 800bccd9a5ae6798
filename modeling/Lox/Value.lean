import Lox.Tree
import Lox.Token.Dump
import Lox.Number.Fixed

/-!
Values of the running language, how they are shown and when two are equal.

Functions are values. Two of them are equal only if they are one and the same, which their
identities tell; nothing is converted when values are compared. A function keeps the scope it was
made in, and nothing here depends on what a scope is.
-/

namespace Lox

/-- A place in the store that holds the local variables of one scope. -/
abbrev FrameId := Nat

/-- A function of the program with the scope it was made in. Running programs keep its frame; none
is the global scope. -/
structure Closure (S : Type := Option FrameId) where
  name : Option String
  fn : Lambda
  scope : S
  identity : Nat

/-- The functions that are not written in the language. -/
inductive Native where
  | clock
  deriving DecidableEq, Repr

namespace Native

def name : Native → String
  | clock => "clock"

/-- The number of arguments a call needs. -/
def arity : Native → Nat
  | clock => 0

def all : List Native := [clock]

end Native

inductive Value (S : Type := Option FrameId) where
  | nil
  | bool (b : Bool)
  | number (x : Float)
  | string (s : String)
  | closure (c : Closure S)
  | native (n : Native)

variable {S : Type}

instance : Inhabited (Value S) := ⟨.nil⟩

def Literal.value : Literal → Value S
  | nil => .nil
  | bool b => .bool b
  | number x => .number x
  | string s => .string s

namespace Value

/-- The number of arguments a call of the value needs; other values than functions have none. -/
def arity? : Value S → Option Nat
  | closure c => some c.fn.arity
  | native n => some n.arity
  | _ => none

/-- The text that `print` shows for a value. -/
def text : Value S → String
  | nil => ""
  | bool b => if b then "true" else "false"
  | number x => Number.numeral x
  | string s => s
  | closure c => c.name.elim "<fn>" fun name => "<fn " ++ name ++ ">"
  | native _ => "<native fn>"

/-- The text that dumps show for a value. -/
def inspect : Value → String
  | nil => Literal.nil.inspect
  | bool b => (Literal.bool b).inspect
  | number x => (Literal.number x).inspect
  | string s => (Literal.string s).inspect
  | closure c =>
    "LoxFunction(name=" ++ c.name.elim "None" Text.quoted ++ ", arity=" ++
      toString c.fn.arity ++ ")"
  | native n =>
    "NativeFunction(name=" ++ Text.quoted n.name ++ ", arity=" ++ toString n.arity ++ ")"

/-- Equality of values. Values of different types are never equal; numbers are compared as numbers,
so that no number differs from itself and the two zeros are equal. -/
def equals : Value S → Value S → Bool
  | nil, nil => true
  | bool a, bool b => a == b
  | number x, number y => x == y
  | string s, string t => s == t
  | closure c, closure d => c.identity == d.identity
  | native m, native n => m == n
  | _, _ => false

end Value

end Lox
