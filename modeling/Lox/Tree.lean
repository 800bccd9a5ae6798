import Lox.Token

/-!
Syntax trees.

Every expression has an identity, so that two equal expressions at different places can be told
apart; what is found out about an expression is filed under it. Operators are kept as what they do,
beside the token they were read from, which is where errors point.
-/

namespace Lox

abbrev NodeId := Nat

inductive UnaryOp where
  | negate | not
  deriving DecidableEq, Repr

inductive BinaryOp where
  | add | subtract | multiply | divide
  | equal | notEqual | greater | greaterEqual | less | lessEqual
  deriving DecidableEq, Repr

inductive LogicalOp where
  | and | or
  deriving DecidableEq, Repr

mutual

/-- Expressions. A call keeps its closing parenthesis. -/
inductive Expr where
  | literal (id : NodeId) (value : Literal)
  | group (id : NodeId) (inner : Expr)
  | unary (id : NodeId) (op : UnaryOp) (token : Token) (operand : Expr)
  | binary (id : NodeId) (left : Expr) (op : BinaryOp) (token : Token) (right : Expr)
  | logical (id : NodeId) (left : Expr) (op : LogicalOp) (token : Token) (right : Expr)
  | reference (id : NodeId) (name : Token)
  | assign (id : NodeId) (name : Token) (value : Expr)
  | call (id : NodeId) (callee : Expr) (paren : Token) (arguments : List Expr)
  | lambda (fn : Lambda)

/-- Functions without a name. -/
inductive Lambda where
  | mk (id : NodeId) (params : List Token) (body : List Stmt)

inductive Stmt where
  | expression (value : Expr)
  | print (value : Expr)
  | var (name : Token) (initial : Option Expr)
  | block (body : List Stmt)
  | branch (keyword : Token) (condition : Expr) (yes : Stmt) (no : Option Stmt)
  | loop (keyword : Token) (condition : Expr) (body : Stmt)
  | breakLoop (keyword : Token)
  | function (name : Token) (fn : Lambda)
  | giveBack (keyword : Token) (value : Option Expr)

end

instance : Inhabited Expr := ⟨.literal 0 .nil⟩
instance : Inhabited Stmt := ⟨.block []⟩

namespace Lambda

def id : Lambda → NodeId
  | .mk id _ _ => id

def params : Lambda → List Token
  | .mk _ params _ => params

def body : Lambda → List Stmt
  | .mk _ _ body => body

/-- The number of arguments a call of the function needs. -/
def arity (fn : Lambda) : Nat := fn.params.length

end Lambda

def Expr.id : Expr → NodeId
  | literal id _ | group id _ | unary id _ _ _ | binary id _ _ _ _ | logical id _ _ _ _
  | reference id _ | assign id _ _ | call id _ _ _ => id
  | lambda fn => fn.id

/-- A counting loop in terms of the others: the initial statement, then a loop whose body ends with
the step. The loop variable is one variable for all turns, and a scope of its own holds it. -/
def Stmt.counting (keyword : Token) (initial : Option Stmt) (condition : Expr)
    (step : Option Expr) (body : Stmt) : Stmt :=
  let body :=
    match step with
    | some step => .block [body, .expression step]
    | none => body
  let loop := Stmt.loop keyword condition body
  match initial with
  | some initial => .block [initial, loop]
  | none => loop

end Lox
