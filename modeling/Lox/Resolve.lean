import Lox.Fault
import Lox.NameTable
import Lox.Resolution

/-!
Resolving: a walk over a program that follows its local scopes, finds the address of each local
variable used, and reports uses and jumps that cannot mean anything.

Only blocks and functions open a scope. Names declared outside of them are global and are not
followed: a use that no local scope declares has no address.
-/

namespace Lox

/-- A name declared in a local scope. It is not ready while its own initial value is resolved. -/
structure Binding where
  slot : Nat
  ready : Bool
  deriving DecidableEq, Repr

/-- The names that a local scope declares, so far. -/
abbrev LocalScope := NameTable Binding

/-- The two uses of a variable. -/
inductive Access where
  | read | write
  deriving DecidableEq, Repr

/-- A use of a local variable, and where the variable lives. -/
structure Located where
  id : NodeId
  access : Access
  name : Token
  address : Address
  deriving Repr

namespace Resolve

/-- What surrounds a statement within its innermost function. -/
structure Context where
  inFunction : Bool
  inLoop : Bool
  deriving DecidableEq, Repr

/-- What surrounds the statements of a program. -/
def Context.program : Context := ⟨false, false⟩

/-- What surrounds the body of a function. Loops around the function do not count. -/
def Context.function : Context := ⟨true, false⟩

/-- The open scopes, innermost first, and what has been found. -/
structure Walk where
  scopes : List LocalScope
  located : Array Located
  errors : Array ScopeError
  deriving Repr

/-- A walk that begins, outside of all local scopes. -/
def Walk.start : Walk := ⟨[], #[], #[]⟩

def complain (fault : ScopeFault) (token : Token) (w : Walk) : Walk :=
  { w with errors := w.errors.push ⟨fault, token⟩ }

/-- Enters a name in the innermost scope, in the next slot. Names outside are not entered. -/
def declare (name : Token) (w : Walk) : Walk :=
  match w.scopes with
  | [] => w
  | scope :: outer =>
    let w := if scope.contains name.lexeme then complain .redeclared name w else w
    { w with scopes := scope.put name.lexeme ⟨scope.size, false⟩ :: outer }

/-- Makes a name of the innermost scope ready for use. -/
def define (name : Token) (w : Walk) : Walk :=
  match w.scopes with
  | [] => w
  | scope :: outer =>
    match scope.get? name.lexeme with
    | none => w
    | some binding =>
      { w with scopes := scope.put name.lexeme { binding with ready := true } :: outer }

/-- The address of the innermost variable of a name. -/
def address? (name : String) : List LocalScope → Option Address
  | [] => none
  | scope :: outer =>
    match scope.get? name with
    | some binding => some ⟨0, binding.slot⟩
    | none => (address? name outer).map fun a => { a with distance := a.distance + 1 }

/-- Notes a use of a variable, if it is local. -/
def use (id : NodeId) (access : Access) (name : Token) (w : Walk) : Walk :=
  match address? name.lexeme w.scopes with
  | none => w
  | some address => { w with located := w.located.push ⟨id, access, name, address⟩ }

/-- Reports a name that is read before it is ready. Only the innermost scope is looked at. -/
def checkReady (name : Token) (w : Walk) : Walk :=
  match w.scopes with
  | [] => w
  | scope :: _ =>
    match scope.get? name.lexeme with
    | some ⟨_, false⟩ => complain .ownInitializer name w
    | _ => w

/-- Walks within a new scope. -/
def inScope (walk : Walk → Walk) (w : Walk) : Walk :=
  let w := walk { w with scopes := .empty :: w.scopes }
  { w with scopes := w.scopes.tail }

/-- Enters the parameters of a function, ready at once. -/
def parameters (names : List Token) (w : Walk) : Walk :=
  names.foldl (fun w name => define name (declare name w)) w

mutual

def expr : Expr → Walk → Walk
  | .literal .., w => w
  | .group _ inner, w => expr inner w
  | .unary _ _ _ operand, w => expr operand w
  | .binary _ left _ _ right, w => expr right (expr left w)
  | .logical _ left _ _ right, w => expr right (expr left w)
  | .reference id name, w => use id .read name (checkReady name w)
  | .assign id name value, w => use id .write name (expr value w)
  | .call _ callee _ arguments, w => exprs arguments (expr callee w)
  | .lambda fn, w => lambda fn w

def exprs : List Expr → Walk → Walk
  | [], w => w
  | e :: es, w => exprs es (expr e w)

def expr? : Option Expr → Walk → Walk
  | none, w => w
  | some e, w => expr e w

/-- Walks over a function. Its parameters and the statements of its body share one scope. -/
def lambda : Lambda → Walk → Walk
  | .mk _ names body, w => inScope (fun w => stmts .function body (parameters names w)) w

def stmt (context : Context) : Stmt → Walk → Walk
  | .expression value, w => expr value w
  | .print value, w => expr value w
  | .var name initial, w => define name (expr? initial (declare name w))
  | .block body, w => inScope (stmts context body) w
  | .branch _ condition yes no, w => stmt? context no (stmt context yes (expr condition w))
  | .loop _ condition body, w => stmt { context with inLoop := true } body (expr condition w)
  | .breakLoop keyword, w => if context.inLoop then w else complain .breakOutsideLoop keyword w
  | .function name fn, w => lambda fn (define name (declare name w))
  | .giveBack keyword value, w =>
    expr? value (if context.inFunction then w else complain .returnOutsideFunction keyword w)

def stmts (context : Context) : List Stmt → Walk → Walk
  | [], w => w
  | s :: ss, w => stmts context ss (stmt context s w)

def stmt? (context : Context) : Option Stmt → Walk → Walk
  | none, w => w
  | some s, w => stmt context s w

end

end Resolve

/-- The uses of local variables in a program, and what is wrong with its names and jumps. -/
structure Resolve where
  located : List Located
  errors : List ScopeError
  deriving Repr

def resolve (program : List Stmt) : Resolve :=
  let w := Resolve.stmts .program program .start
  ⟨w.located.toList, w.errors.toList⟩

/-- Files the addresses of all uses. -/
def Resolution.recordAll (r : Resolution) (uses : List Located) : Resolution :=
  uses.foldl (fun r u => r.record u.id u.address) r

end Lox
