import Lox.Proofs.Execute.Behaviour
import Lox.Proofs.Reference.Simulation

/-! The direct rule of counting loops, by names: what the loop does is told from its clauses,
without the blocks and the loop that it is made into. -/
namespace Lox.Reference

/-- What an expression comes to in a scope. -/
def evaluates (scope : Scope) (e : Expr) : Behaviour State (Value Scope) :=
  .of fun fuel => eval fuel scope e

/-- What a statement comes to in a scope, and the scope that it leaves. -/
def executes (scope : Scope) (s : Stmt) : Behaviour State (Completion Scope × Scope) :=
  .of fun fuel => exec fuel scope s

/-- What a counting loop does first. -/
def begins (scope : Scope) : Option Stmt → Behaviour State (Completion Scope × Scope)
  | none => return (.normal, scope)
  | some initial => executes scope initial

/-- The condition, which must be a boolean, before each turn. Without one it is true. -/
def tests (scope : Scope) (keyword : Token) : Option Expr → Behaviour State Bool
  | none => return true
  | some condition => do .truth (← evaluates scope condition) .conditionNotBoolean keyword

/-- The body, and then the step in the same scope unless the body leaves the loop. -/
def rounds (scope : Scope) (step : Option Expr) (body : Stmt) :
    Behaviour State (Completion Scope) := do
  match (← executes scope body).1, step with
  | .normal, some step => do
    let _ ← evaluates scope step
    return .normal
  | c, _ => return c

/-- A counting loop: the initial statement once, in a scope of its own, and then round after round
in the scope that it leaves. -/
def counts (scope : Scope) (keyword : Token) (initial : Option Stmt) (condition step : Option Expr)
    (body : Stmt) : Behaviour State (Completion Scope) := do
  match ← begins (some (scope.getD [])) initial with
  | (.normal, inner) => .loop (tests inner keyword condition) (rounds inner step body)
  | (c, _) => return c

end Lox.Reference
