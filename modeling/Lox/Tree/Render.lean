import Lox.Tree
import Lox.Number.Fixed

/-!
Syntax trees as text: each node in parentheses, led by a word or an operator. Parts that are empty,
such as an absent value or an empty body, are left out.
-/

namespace Lox

def UnaryOp.symbol : UnaryOp → String
  | negate => "-"
  | not => "!"

def BinaryOp.symbol : BinaryOp → String
  | add => "+"
  | subtract => "-"
  | multiply => "*"
  | divide => "/"
  | equal => "=="
  | notEqual => "!="
  | greater => ">"
  | greaterEqual => ">="
  | less => "<"
  | lessEqual => "<="

def LogicalOp.symbol : LogicalOp → String
  | and => "and"
  | or => "or"

namespace Render

/-- Words with a space between each two. -/
def spaced : List (List Char) → List Char
  | [] => []
  | [word] => word
  | word :: words => word ++ ' ' :: spaced words

/-- A node: its head and those of its parts that are not empty. -/
def form (head : String) (parts : List (List Char)) : List Char :=
  '(' :: spaced (head.toList :: parts.filter (!·.isEmpty)) ++ [')']

/-- A literal. The text of a string stands as it is between double quotes. -/
def literal : Literal → List Char
  | .nil => "nil".toList
  | .bool b => if b then "true".toList else "false".toList
  | .number x => (Number.exact x).numeral
  | .string s => '"' :: s.toList ++ ['"']

/-- The parameters of a function. -/
def params (names : List Token) : List Char :=
  '(' :: spaced (names.map (·.lexeme.toList)) ++ [')']

mutual

def expr : Expr → List Char
  | .literal _ value => literal value
  | .group _ inner => form "group" [expr inner]
  | .unary _ op _ operand => form op.symbol [expr operand]
  | .binary _ left op _ right => form op.symbol [expr left, expr right]
  | .logical _ left op _ right => form op.symbol [expr left, expr right]
  | .reference _ name => name.lexeme.toList
  | .assign _ name value => form "=" [name.lexeme.toList, expr value]
  | .call _ callee _ arguments => form "call" (expr callee :: exprs arguments)
  | .lambda fn => form "fun" (lambda fn)

def exprs : List Expr → List (List Char)
  | [] => []
  | e :: es => expr e :: exprs es

def expr? : Option Expr → List Char
  | none => []
  | some e => expr e

/-- The parameters and the body of a function. -/
def lambda : Lambda → List (List Char)
  | .mk _ names body => [params names, spaced (stmts body)]

def stmt : Stmt → List Char
  | .expression value => form ";" [expr value]
  | .print value => form "print" [expr value]
  | .var name initial => form "var" [name.lexeme.toList, expr? initial]
  | .block body => form "block" [spaced (stmts body)]
  | .branch _ condition yes no => form "if" [expr condition, stmt yes, stmt? no]
  | .loop _ condition body => form "while" [expr condition, stmt body]
  | .breakLoop _ => form "break" []
  | .function name fn => form "fun" (name.lexeme.toList :: lambda fn)
  | .giveBack _ value => form "return" [expr? value]

def stmts : List Stmt → List (List Char)
  | [] => []
  | s :: ss => stmt s :: stmts ss

def stmt? : Option Stmt → List Char
  | none => []
  | some s => stmt s

end

end Render

def Stmt.render (s : Stmt) : String := String.ofList (Render.stmt s)

end Lox
