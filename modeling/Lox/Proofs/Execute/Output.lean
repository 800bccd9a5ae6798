import Lox.Proofs.Execute.Composed

/-! What was printed before a run makes no difference to it: the run ends the same, and prints the
same behind it. -/
namespace Lox

/-- The machine with something printed ahead of what it has printed. -/
def Machine.putBefore (before : String) (m : Machine) : Machine :=
  { m with out := before ++ m.out }

section PutBefore

variable (before : String) (m : Machine)

@[simp] theorem putBefore_store : (m.putBefore before).store = m.store := rfl

@[simp] theorem putBefore_frame : (m.putBefore before).frame = m.frame := rfl

@[simp] theorem putBefore_globals : (m.putBefore before).globals = m.globals := rfl

@[simp] theorem putBefore_resolution : (m.putBefore before).resolution = m.resolution := rfl

end PutBefore

section Heedless

variable {α β : Type} {x : Run α} {f : α → Run β}

/-- A run takes no heed of what was printed before it. -/
def Heedless (x : Run α) : Prop :=
  ∀ before m, x (m.putBefore before) =
    match x m with
    | .ok a t => .ok a (t.putBefore before)
    | .error halt t => .error halt (t.putBefore before)

theorem heedless_pure (a : α) : Heedless (pure a : Run α) := fun _ _ => rfl

theorem heedless_throw (halt : Halt) : Heedless (throw halt : Run α) := fun _ _ => rfl

theorem Heedless.bind (hx : Heedless x) (hf : ∀ a, Heedless (f a)) : Heedless (x >>= f) := by
  intro before m
  simp only [Bind.bind, EStateM.bind, hx before m]
  cases x m with
  | ok a t => exact hf a before t
  | error halt t => rfl

/-- How a run ends, whatever the machine is left with. -/
def outcome : EStateM.Result Halt Machine α → Except Halt α
  | .ok a _ => .ok a
  | .error halt _ => .error halt

/-- The result of a run does not depend on what was printed before. -/
theorem Heedless.outcome (hx : Heedless x) (m : Machine) (out : String) :
    outcome (x { m with out }) = outcome (x m) := by
  have hempty : ∀ out, Lox.outcome (x { m with out }) = Lox.outcome (x { m with out := "" }) := by
    intro out
    have hout : { m with out } = ({ m with out := "" } : Machine).putBefore out := by
      simp [Machine.putBefore]
    rw [hout, hx]
    cases x { m with out := "" } <;> rfl
  exact (hempty out).trans (hempty m.out).symm

namespace Run

theorem heedless_newFrame (enclosing : Option FrameId) (values : Array Value) :
    Heedless (newFrame enclosing values) := fun _ _ => rfl

theorem heedless_within (frame : FrameId) (hx : Heedless x) : Heedless (within frame x) := by
  intro before m
  have h := hx before { m with frame := some frame }
  simp only [Machine.putBefore] at h
  simp only [within, Machine.putBefore, h]
  cases x { m with frame := some frame } with
  | ok a t => rfl
  | error halt t => rfl

theorem heedless_define (name : Token) (v : Value) : Heedless (define name v) := by
  intro before m
  simp only [define, Machine.putBefore]
  cases m.frame with
  | none => rfl
  | some frame => rfl

theorem heedless_readVariable (id : NodeId) (name : Token) : Heedless (readVariable id name) := by
  intro before m
  simp only [readVariable, readGlobal, putBefore_resolution, putBefore_globals, putBefore_frame,
    putBefore_store]
  cases m.resolution.find? id with
  | none => cases m.globals.get? name.lexeme <;> rfl
  | some address =>
    cases m.frame with
    | none => rfl
    | some frame =>
      dsimp only
      cases m.store.read frame address.distance address.slot <;> rfl

theorem heedless_writeGlobal (name : Token) (v : Value) : Heedless (writeGlobal name v) := by
  intro before m
  unfold writeGlobal
  have hsame : (m.putBefore before).globals = m.globals := rfl
  rw [hsame]
  split <;> rfl

theorem heedless_writeVariable (id : NodeId) (name : Token) (v : Value) :
    Heedless (writeVariable id name v) := by
  intro before m
  simp only [writeVariable, putBefore_resolution, putBefore_frame, putBefore_store]
  cases m.resolution.find? id with
  | none => exact heedless_writeGlobal name v before m
  | some address =>
    cases m.frame with
    | none => rfl
    | some frame =>
      dsimp only
      cases m.store.locate frame address.distance address.slot <;> rfl

theorem heedless_print (text : String) : Heedless (print text) := by
  intro before m
  simp [print, Machine.print, Machine.putBefore, String.append_assoc]

end Run

end Heedless

open Run

theorem heedless_composed : Composed fun _ x => Heedless x where
  pure := heedless_pure
  bind := Heedless.bind
  within frame hx := heedless_within frame hx
  stop _ := heedless_throw _
  fail _ _ := heedless_throw _
  frame _ _ := rfl
  newFrame := heedless_newFrame
  define := heedless_define
  readVariable := heedless_readVariable
  writeVariable := heedless_writeVariable
  makeClosure _ _ _ _ := rfl
  print := heedless_print
  readClock _ _ := rfl

/-- No program can see what was printed. -/
theorem heedless_interpret (limits : Limits) (program : List Stmt) :
    Heedless (interpret limits program) := heedless_composed.interpret limits program

end Lox
