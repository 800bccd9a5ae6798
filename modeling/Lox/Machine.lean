import Lox.Fault
import Lox.NameTable
import Lox.Resolution
import Lox.Store

/-!
The state of a running program, and the ways to leave it early.
-/

namespace Lox

/-- Why a run stops before it is done. Besides errors of the program: a call nested too deep, an
address that leads nowhere, and no fuel, that is, the run was not followed to its end. -/
inductive Halt where
  | error (e : RuntimeError)
  | tooDeep
  | dangling
  | outOfFuel

/-- The state of a running program. `frame` holds the variables of the innermost scope entered; none
is the global scope. `clock` gives the reading for each time it is asked, of which there were
`ticks`. Every function made takes the next number of `closures` as its identity. -/
structure Machine where
  store : Store
  frame : Option FrameId
  globals : NameTable Value
  resolution : Resolution
  out : String
  closures : Nat
  clock : Nat → Float
  ticks : Nat

namespace Machine

/-- The globals that every program finds. -/
def natives : NameTable Value :=
  Native.all.foldl (fun t n => t.put n.name (.native n)) .empty

def start (clock : Nat → Float) : Machine :=
  { store := .empty, frame := none, globals := natives, resolution := .empty, out := "",
    closures := 0, clock, ticks := 0 }

/-- What was printed, and the machine with nothing printed. -/
def drain (m : Machine) : String × Machine := (m.out, { m with out := "" })

def print (m : Machine) (text : String) : Machine := { m with out := m.out ++ text ++ "\n" }

end Machine

/-- Runs on a machine. Whatever happens, the machine is left in the state reached. -/
abbrev Run := EStateM Halt Machine

namespace Run

def fail {α : Type} (fault : RuntimeFault) (token : Token) : Run α :=
  throw (.error ⟨fault, token⟩)

/-- Runs with another frame as the innermost, and puts the former one back on every way out. -/
def within {α : Type} (frame : FrameId) (run : Run α) : Run α := fun m =>
  let outer := m.frame
  match run { m with frame := some frame } with
  | .ok a m => .ok a { m with frame := outer }
  | .error h m => .error h { m with frame := outer }

def newFrame (enclosing : Option FrameId) (values : Array Value) : Run FrameId := fun m =>
  let (frame, store) := m.store.newFrame enclosing values
  .ok frame { m with store }

def frame : Run (Option FrameId) := fun m => .ok m.frame m

/-- Declares a variable with a value: in the innermost frame, or as a global. -/
def define (name : Token) (value : Value) : Run Unit := fun m =>
  match m.frame with
  | none => .ok () { m with globals := m.globals.put name.lexeme value }
  | some frame => .ok () { m with store := m.store.define frame value }

def readGlobal (name : Token) : Run Value := fun m =>
  match m.globals.get? name.lexeme with
  | some value => .ok value m
  | none => fail (.undefinedVariable name.lexeme) name m

/-- Gives a global, which must exist, another value. -/
def writeGlobal (name : Token) (value : Value) : Run Unit := fun m =>
  if m.globals.contains name.lexeme then
    .ok () { m with globals := m.globals.put name.lexeme value }
  else fail (.undefinedVariable name.lexeme) name m

/-- The stop that a fault of the store calls for. -/
def storeHalt (fault : StoreFault) (name : Token) : Halt :=
  match fault with
  | .noFrame => .dangling
  | .noSlot => .error ⟨.undefinedVariable name.lexeme, name⟩

/-- The value of the variable that an expression refers to: by its address, or by name if it has
none. -/
def readVariable (id : NodeId) (name : Token) : Run Value := fun m =>
  match m.resolution.find? id with
  | none => readGlobal name m
  | some address =>
    match m.frame with
    | none => .error .dangling m
    | some frame =>
      match m.store.read frame address.distance address.slot with
      | .ok value => .ok value m
      | .error fault => .error (storeHalt fault name) m

/-- Gives the variable that an expression refers to another value. -/
def writeVariable (id : NodeId) (name : Token) (value : Value) : Run Unit := fun m =>
  match m.resolution.find? id with
  | none => writeGlobal name value m
  | some address =>
    match m.frame with
    | none => .error .dangling m
    | some frame =>
      match m.store.locate frame address.distance address.slot with
      | .ok target => .ok () { m with store := m.store.set target address.slot value }
      | .error fault => .error (storeHalt fault name) m

def makeClosure (name : Option String) (fn : Lambda) : Run Value := fun m =>
  .ok (.closure ⟨name, fn, m.frame, m.closures⟩) { m with closures := m.closures + 1 }

def print (text : String) : Run Unit := fun m => .ok () (m.print text)

def readClock : Run Value := fun m =>
  .ok (.number (m.clock m.ticks)) { m with ticks := m.ticks + 1 }

/-- A value that must be a boolean. -/
def truth (value : Value) (fault : RuntimeFault) (token : Token) : Run Bool :=
  match value with
  | .bool b => pure b
  | _ => fail fault token

end Run

end Lox
