import Lox.Session

/-! A second way to run programs, which knows no addresses: the local names in force and the cells
they stand for are handed on from statement to statement, and a function keeps those it was made
with. A cell is unset until the value of its variable has been computed. -/
namespace Lox.Reference

/-- A place for the value of a local variable. -/
abbrev Cell := Nat

/-- The local names in force with their cells, innermost first; none outside of all local scopes. -/
abbrev Scope := Option (List (String × Cell))

/-- The cell of a name. -/
def Scope.find? (scope : Scope) (name : String) : Option Cell := scope.bind (·.lookup name)

/-- The state of a running program. `clock` gives the reading for each time it is asked. -/
structure State where
  cells : Array (Option (Value Scope))
  globals : NameTable (Value Scope)
  out : String
  closures : Nat
  clock : Nat → Float
  ticks : Nat

namespace State

def natives : NameTable (Value Scope) :=
  Native.all.foldl (fun t n => t.put n.name (.native n)) .empty

def start (clock : Nat → Float) : State :=
  { cells := #[], globals := natives, out := "", closures := 0, clock, ticks := 0 }

/-- The value of a cell, if it is set. -/
def value? (s : State) (cell : Cell) : Option (Value Scope) := s.cells[cell]?.join

def print (s : State) (text : String) : State := { s with out := s.out ++ text ++ "\n" }

end State

/-- Runs on a state. Whatever happens, the state is left as it has become. -/
abbrev Run := EStateM Halt State

namespace Run

def fail {α : Type} (fault : RuntimeFault) (token : Token) : Run α :=
  throw (.error ⟨fault, token⟩)

/-- A cell that is new and unset. -/
def newCell : Run Cell := fun s => .ok s.cells.size { s with cells := s.cells.push none }

/-- Sets a cell. -/
def fill (cell : Cell) (value : Value Scope) : Run Unit := fun s =>
  .ok () { s with cells := s.cells.set! cell (some value) }

/-- Gives a name a new cell, if names are local here. -/
def enter (name : Token) (scope : Scope) : Run (Scope × Option Cell) :=
  match scope with
  | none => return (none, none)
  | some names => do
    let cell ← newCell
    return (some ((name.lexeme, cell) :: names), some cell)

/-- Sets the cell of a name, or defines a global. -/
def settle (name : Token) (cell : Option Cell) (value : Value Scope) : Run Unit :=
  match cell with
  | some cell => fill cell value
  | none => fun s => .ok () { s with globals := s.globals.put name.lexeme value }

/-- Gives parameters new cells with the arguments. -/
def bindAll : List Token → List (Value Scope) → List (String × Cell) →
    Run (List (String × Cell))
  | name :: names, value :: values, scope => do
    let cell ← newCell
    fill cell value
    bindAll names values ((name.lexeme, cell) :: scope)
  | _, _, scope => return scope

/-- The value of a variable: of its cell, which must be set, or of the global of its name. -/
def readVariable (scope : Scope) (name : Token) : Run (Value Scope) := fun s =>
  match (scope.find? name.lexeme).elim (s.globals.get? name.lexeme) s.value? with
  | some value => .ok value s
  | none => fail (.undefinedVariable name.lexeme) name s

/-- Gives a variable another value. It must have one. -/
def writeVariable (scope : Scope) (name : Token) (value : Value Scope) : Run Unit := fun s =>
  match scope.find? name.lexeme with
  | some cell =>
    if (s.value? cell).isSome then fill cell value s
    else fail (.undefinedVariable name.lexeme) name s
  | none =>
    if s.globals.contains name.lexeme then settle name none value s
    else fail (.undefinedVariable name.lexeme) name s

def makeClosure (name : Option String) (fn : Lambda) (scope : Scope) : Run (Value Scope) := fun s =>
  .ok (.closure ⟨name, fn, scope, s.closures⟩) { s with closures := s.closures + 1 }

def print (text : String) : Run Unit := fun s => .ok () (s.print text)

def readClock : Run (Value Scope) := fun s =>
  .ok (.number (s.clock s.ticks)) { s with ticks := s.ticks + 1 }

def truth (value : Value Scope) (fault : RuntimeFault) (token : Token) : Run Bool :=
  match value with
  | .bool b => pure b
  | _ => fail fault token

def lift (token : Token) (result : Except RuntimeFault (Value Scope)) : Run (Value Scope) :=
  match result with
  | .ok value => pure value
  | .error fault => fail fault token

/-- Calls a function with its arguments. Its statements begin in the scope that it keeps, with the
parameters entered. -/
def apply (callee : Value Scope) (paren : Token) (arguments : List (Value Scope))
    (body : Scope → List Stmt → Run (Completion Scope)) : Run (Value Scope) := do
  match callee.arity? with
  | none => fail .notCallable paren
  | some arity =>
    if arguments.length ≠ arity then fail (.wrongArity arity arguments.length) paren
  match callee with
  | .closure c =>
    let names ← bindAll c.fn.params arguments (c.scope.getD [])
    match ← body (some names) c.fn.body with
    | .returned value => return value
    | _ => return .nil
  | .native .clock => readClock
  | _ => fail .notCallable paren

end Run

open Lox.Reference.Run

mutual

/-- The value of an expression. Of two operands the right one comes first. -/
def eval : Nat → Scope → Expr → Run (Value Scope)
  | 0, _, _ => throw .outOfFuel
  | fuel + 1, scope, e =>
    match e with
    | .literal _ value => return value.value
    | .group _ inner => eval fuel scope inner
    | .unary _ op token operand => do
      let value ← eval fuel scope operand
      lift token (op.apply value)
    | .binary _ left op token right => do
      let right ← eval fuel scope right
      let left ← eval fuel scope left
      lift token (op.apply left right)
    | .logical _ left op token right => do
      let value ← eval fuel scope left
      let b ← truth value .operandNotBoolean token
      if op.settledBy b then return value
      eval fuel scope right
    | .reference _ name => readVariable scope name
    | .assign _ name value => do
      let value ← eval fuel scope value
      writeVariable scope name value
      return value
    | .call _ callee paren arguments => do
      let callee ← eval fuel scope callee
      let arguments ← evalAll fuel scope arguments
      apply callee paren arguments (execAll fuel)
    | .lambda fn => makeClosure none fn scope

def evalAll : Nat → Scope → List Expr → Run (List (Value Scope))
  | 0, _, _ => throw .outOfFuel
  | _ + 1, _, [] => return []
  | fuel + 1, scope, e :: es => do
    let value ← eval fuel scope e
    let values ← evalAll fuel scope es
    return value :: values

/-- Executes a statement, and gives the scope of the next one. -/
def exec : Nat → Scope → Stmt → Run (Completion Scope × Scope)
  | 0, _, _ => throw .outOfFuel
  | fuel + 1, scope, s =>
    match s with
    | .expression value => do
      let _ ← eval fuel scope value
      return (.normal, scope)
    | .print value => do
      let value ← eval fuel scope value
      print value.text
      return (.normal, scope)
    | .var name initial => do
      let (inner, cell) ← enter name scope
      let value ←
        match initial with
        | none => pure .nil
        | some initial => eval fuel inner initial
      settle name cell value
      return (.normal, inner)
    | .block body => do
      let c ← execAll fuel (some (scope.getD [])) body
      return (c, scope)
    | .branch keyword condition yes no => do
      let value ← eval fuel scope condition
      let b ← truth value .conditionNotBoolean keyword
      if b then exec fuel scope yes
      else
        match no with
        | some no => exec fuel scope no
        | none => return (.normal, scope)
    | .loop keyword condition body => do
      let value ← eval fuel scope condition
      let b ← truth value .conditionNotBoolean keyword
      if b then
        match ← exec fuel scope body with
        | (.normal, scope) => exec fuel scope (.loop keyword condition body)
        | (.broke, scope) => return (.normal, scope)
        | (.returned value, scope) => return (.returned value, scope)
      else return (.normal, scope)
    | .breakLoop _ => return (.broke, scope)
    | .function name fn => do
      let (inner, cell) ← enter name scope
      let value ← makeClosure (some name.lexeme) fn inner
      settle name cell value
      return (.normal, inner)
    | .giveBack _ none => return (.returned .nil, scope)
    | .giveBack _ (some value) => do
      let value ← eval fuel scope value
      return (.returned value, scope)

/-- Executes statements in order, each in the scope that the one before it leaves, up to the first
that does not complete normally. -/
def execAll : Nat → Scope → List Stmt → Run (Completion Scope)
  | 0, _, _ => throw .outOfFuel
  | _ + 1, _, [] => return .normal
  | fuel + 1, scope, s :: ss => do
    match ← exec fuel scope s with
    | (.normal, scope) => execAll fuel scope ss
    | (c, _) => return c

end

/-- Executes a program outside of all local scopes. -/
def interpret (fuel : Nat) : List Stmt → Run Unit
  | [] => return ()
  | s :: ss => do
    let _ ← exec fuel none s
    interpret fuel ss

structure Session where
  state : State
  nextId : NodeId
  dumps : Dumps
  fuel : Nat

/-- What is seen of the run of a source text: how it ends, the errors that were reported, everything
that was printed so far, and the globals as `print` shows them. -/
structure Observation where
  ending : Ending
  errors : List Diagnostic
  out : String
  globals : List (String × String)

namespace Session

def new (dumps : Dumps) (clock : Nat → Float) (fuel : Nat) : Session :=
  ⟨.start clock, 0, dumps, fuel⟩

variable (s : Session)

def dump (wanted : Bool) (lines : List String) : Session :=
  if wanted then { s with state := lines.foldl State.print s.state } else s

/-- What is seen of a run that has ended here. -/
def observe (ending : Ending) (errors : List Diagnostic) : Observation :=
  ⟨ending, errors, s.state.out, s.state.globals.entries.map fun (name, value) => (name, value.text)⟩

def execute (program : List Stmt) : Observation × Session :=
  match interpret s.fuel program s.state with
  | .ok _ state => ({ s with state }.observe (.ok .ok) [], { s with state })
  | .error (.error e) state =>
    ({ s with state }.observe (.ok .runtimeError) [e.diagnostic], { s with state })
  | .error halt state => ({ s with state }.observe (.error halt.leaving) [], { s with state })

/-- Checks a program as ever, but files no addresses, and executes it if it is in order. -/
def resolveAndExecute (program : List Stmt) : Observation × Session :=
  let errors := (resolve program).errors
  if errors.isEmpty then s.execute program
  else (s.observe (.ok .staticError) (errors.map (·.diagnostic)), s)

/-- Parses a scanned source text, and goes on with the program if it is in order. -/
def parseAndExecute (scanned : Scan) : Observation × Session :=
  let parsed := scanned.parse s.nextId
  let s := { s with nextId := parsed.nextId }.dump s.dumps.trees (parsed.program.map Stmt.render)
  if !parsed.errors.isEmpty then
    (s.observe (.ok .staticError) (parsed.errors.map (·.diagnostic)), s)
  else s.resolveAndExecute parsed.program

def run (source : String) : Observation × Session :=
  let scanned := scan source
  let s := s.dump s.dumps.tokens (scanned.listing.map (·.dump))
  if !scanned.errors.isEmpty then
    (s.observe (.ok .staticError) (scanned.errors.map (·.diagnostic)), s)
  else s.parseAndExecute scanned

/-- What is seen of each of several source texts, run one after the other. -/
def runAll (s : Session) : List String → List Observation
  | [] => []
  | source :: rest => (s.run source).1 :: runAll (s.run source).2 rest

end Session

/-- What is seen of the run of a source text that has ended with a session in this state. -/
def observe (ending : Ending) (s : Lox.Session) : Observation :=
  ⟨ending, s.reporter.errors, s.machine.out, s.globals⟩

/-- What is seen of each of several source texts, run one after the other. -/
def observeAll (s : Lox.Session) : List String → List Observation
  | [] => []
  | source :: rest => observe (s.run source).1 (s.run source).2 :: observeAll (s.run source).2 rest

end Lox.Reference
