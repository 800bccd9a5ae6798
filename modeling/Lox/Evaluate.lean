import Lox.Machine

/-!
Evaluating resolved programs.

`eval` and `exec` follow the tree. A statement completes in one of three ways, which are results and
not errors: normally, by a `break` on its way to the loop, or by a `return` on its way to the call.

`fuel` bounds how far a run is followed; it only tells a run that needs more from one that ends, as
`Limits.standard` has more than any run can use. `room` is how many calls may still be nested; none
is no limit.
-/

namespace Lox

/-- How a statement completes. -/
inductive Completion (S : Type := Option FrameId) where
  | normal
  | broke
  | returned (value : Value S)

variable {S : Type}

namespace Completion

/-- The completion as dumps show it; a normal one is not shown. -/
def inspect? : Completion → Option String
  | normal => none
  | broke => some "BreakSignal()"
  | returned value => some ("ReturnSignal(" ++ value.inspect ++ ")")

end Completion

/-- The value of an operator before its operand. -/
def UnaryOp.apply : UnaryOp → Value S → Except RuntimeFault (Value S)
  | negate, .number x => .ok (.number (-x))
  | negate, _ => .error .operandNotNumber
  | not, .bool b => .ok (.bool !b)
  | not, _ => .error .operandNotBoolean

/-- The value of an operator for two numbers. Dividing by a zero is an error. -/
def BinaryOp.applyNumbers (op : BinaryOp) (x y : Float) : Except RuntimeFault (Value S) :=
  match op with
  | add => .ok (.number (x + y))
  | subtract => .ok (.number (x - y))
  | multiply => .ok (.number (x * y))
  | divide => if y == 0.0 then .error .divisionByZero else .ok (.number (x / y))
  | equal => .ok (.bool (x == y))
  | notEqual => .ok (.bool !(x == y))
  | greater => .ok (.bool (y < x))
  | greaterEqual => .ok (.bool (y ≤ x))
  | less => .ok (.bool (x < y))
  | lessEqual => .ok (.bool (x ≤ y))

/-- The value of an operator between its operands. Any two values can be compared for equality,
strings can be joined, and all else is for numbers. -/
def BinaryOp.apply (op : BinaryOp) (left right : Value S) :
    Except RuntimeFault (Value S) :=
  match op, left, right with
  | equal, _, _ => .ok (.bool (left.equals right))
  | notEqual, _, _ => .ok (.bool !(left.equals right))
  | add, .string s, .string t => .ok (.string (s ++ t))
  | _, .number x, .number y => op.applyNumbers x y
  | add, _, _ => .error .invalidAddition
  | _, _, _ => .error .operandsNotNumbers

/-- Whether the left operand settles the value: a true one of `or`, a false one of `and`. -/
def LogicalOp.settledBy (op : LogicalOp) (left : Bool) : Bool :=
  match op with
  | and => !left
  | or => left

/-- The room for calls within a call; none if there is no room for it. -/
def callRoom? (room : Option Nat) : Option (Option Nat) :=
  match room with
  | none => some none
  | some 0 => none
  | some (n + 1) => some (some n)

namespace Run

/-- The value of a computation that may be at fault. -/
def lift (token : Token) (result : Except RuntimeFault Value) : Run Value :=
  match result with
  | .ok value => pure value
  | .error fault => fail fault token

/-- Calls a function with its arguments. A function of the program runs its statements in a frame of
their own, which the arguments come first in, within the frame it was made in; a `return` gives the
value, and without one it is nil. -/
def apply (callee : Value) (paren : Token) (arguments : List Value) (room : Option Nat)
    (body : Option Nat → List Stmt → Run Completion) : Run Value := do
  match callee.arity? with
  | none => fail .notCallable paren
  | some arity =>
    if arguments.length ≠ arity then fail (.wrongArity arity arguments.length) paren
  match callee with
  | .closure c =>
    match callRoom? room with
    | none => throw .tooDeep
    | some inner =>
      let frame ← newFrame c.scope arguments.toArray
      match ← within frame (body inner c.fn.body) with
      | .returned value => return value
      | _ => return .nil
  | .native .clock => readClock
  | _ => fail .notCallable paren

end Run

open Run

mutual

/-- The value of an expression. Of two operands the right one comes first. -/
def eval : Nat → Option Nat → Expr → Run Value
  | 0, _, _ => throw .outOfFuel
  | fuel + 1, room, e =>
    match e with
    | .literal _ value => return value.value
    | .group _ inner => eval fuel room inner
    | .unary _ op token operand => do
      let value ← eval fuel room operand
      lift token (op.apply value)
    | .binary _ left op token right => do
      let right ← eval fuel room right
      let left ← eval fuel room left
      lift token (op.apply left right)
    | .logical _ left op token right => do
      let value ← eval fuel room left
      let b ← truth value .operandNotBoolean token
      if op.settledBy b then return value
      eval fuel room right
    | .reference id name => readVariable id name
    | .assign id name value => do
      let value ← eval fuel room value
      writeVariable id name value
      return value
    | .call _ callee paren arguments => do
      let callee ← eval fuel room callee
      let arguments ← evalAll fuel room arguments
      apply callee paren arguments room (execAll fuel)
    | .lambda fn => makeClosure none fn

/-- The values of expressions, from left to right. -/
def evalAll : Nat → Option Nat → List Expr → Run (List Value)
  | 0, _, _ => throw .outOfFuel
  | _ + 1, _, [] => return []
  | fuel + 1, room, e :: es => do
    let value ← eval fuel room e
    let values ← evalAll fuel room es
    return value :: values

def exec : Nat → Option Nat → Stmt → Run Completion
  | 0, _, _ => throw .outOfFuel
  | fuel + 1, room, s =>
    match s with
    | .expression value => do
      let _ ← eval fuel room value
      return .normal
    | .print value => do
      let value ← eval fuel room value
      print value.text
      return .normal
    | .var name none => do
      define name .nil
      return .normal
    | .var name (some initial) => do
      let value ← eval fuel room initial
      define name value
      return .normal
    | .block body => do
      let frame ← newFrame (← frame) #[]
      within frame (execAll fuel room body)
    | .branch keyword condition yes no => do
      let value ← eval fuel room condition
      let b ← truth value .conditionNotBoolean keyword
      if b then exec fuel room yes
      else
        match no with
        | some no => exec fuel room no
        | none => return .normal
    | .loop keyword condition body => do
      let value ← eval fuel room condition
      let b ← truth value .conditionNotBoolean keyword
      if b then
        match ← exec fuel room body with
        | .normal => exec fuel room (.loop keyword condition body)
        | .broke => return .normal
        | .returned value => return .returned value
      else return .normal
    | .breakLoop _ => return .broke
    | .function name fn => do
      let value ← makeClosure (some name.lexeme) fn
      define name value
      return .normal
    | .giveBack _ none => return .returned .nil
    | .giveBack _ (some value) => do
      let value ← eval fuel room value
      return .returned value

/-- Executes statements in order, up to the first that does not complete normally. -/
def execAll : Nat → Option Nat → List Stmt → Run Completion
  | 0, _, _ => throw .outOfFuel
  | _ + 1, _, [] => return .normal
  | fuel + 1, room, s :: ss => do
    match ← exec fuel room s with
    | .normal => execAll fuel room ss
    | c => return c

end

/-- How far runs are followed, and how deep calls may be nested. -/
structure Limits where
  fuel : Nat
  calls : Option Nat

/-- The limits where none are given: more fuel than any run can use, and a depth of calls for which
a stack has room. The language has no such number. -/
def Limits.standard : Limits := ⟨Nat.pow 2 62, some 1000⟩

/-- Executes a program: its statements in order, whatever way each completes. -/
def interpret (limits : Limits) : List Stmt → Run Unit
  | [] => return ()
  | s :: ss => do
    let _ ← exec limits.fuel limits.calls s
    interpret limits ss

end Lox
