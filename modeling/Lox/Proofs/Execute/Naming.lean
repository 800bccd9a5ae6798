import Lox.Proofs.Execute.Composed
import Lox.Proofs.Execute.Steps

/-! A variable that an error calls undefined is the one that the error is blamed on. -/
namespace Lox

/-- A name in the wording of the error is that of the token it is blamed on. -/
def RuntimeError.Honest (e : RuntimeError) : Prop :=
  ∀ name, e.fault = .undefinedVariable name → name = e.token.lexeme

def Halt.Honest (halt : Halt) : Prop := ∀ e, halt = .error e → e.Honest

theorem Halt.honest_undefined (name : Token) :
    (Halt.error ⟨.undefinedVariable name.lexeme, name⟩).Honest := by
  rintro _ ⟨⟩ _ ⟨⟩
  rfl

theorem Halt.honest_dangling : Halt.dangling.Honest := by
  rintro e ⟨⟩

/-- A run stops with no other errors. -/
def Honest {α : Type} (x : Run α) : Prop :=
  ∀ m, Ends x m (fun _ _ => True) fun halt _ => halt.Honest

section Steps

variable {α : Type} {x : Run α}

theorem honest_fail {fault : RuntimeFault} (token : Token)
    (h : ∀ name, fault ≠ .undefinedVariable name) : Honest (Run.fail fault token : Run α) := by
  rintro _ _ ⟨⟩ name hname
  exact absurd hname (h name)

theorem honest_within (frame : FrameId) (hx : Honest x) : Honest (Run.within frame x) := by
  intro m
  have h := hx { m with frame := some frame }
  simp only [Ends, Run.within] at h ⊢
  split at h
  · next hrun => simp only [hrun]
  · next hrun => simpa only [hrun] using h

theorem honest_readVariable (id : NodeId) (name : Token) : Honest (Run.readVariable id name) := by
  intro m
  apply Run.ends_readVariable
  case hglobal => exact fun _ _ _ => trivial
  case hlocal => exact fun _ _ _ _ _ _ => trivial
  case hundefined => exact Halt.honest_undefined name
  case hdangling => exact fun _ _ _ => Halt.honest_dangling

theorem honest_writeVariable (id : NodeId) (name : Token) (v : Value) :
    Honest (Run.writeVariable id name v) := by
  intro m
  apply Run.ends_writeVariable
  case hglobal => exact fun _ _ => trivial
  case hlocal => exact fun _ _ _ _ _ _ => trivial
  case hundefined => exact Halt.honest_undefined name
  case hdangling => exact fun _ _ _ => Halt.honest_dangling

theorem honest_composed : Composed fun _ x => Honest x where
  pure _ _ := trivial
  bind hx hf m := Ends.bind (hx m) fun a t _ => hf a t
  within frame hx := honest_within frame hx
  stop h _ e he := absurd he (h e)
  fail token h := honest_fail token h
  frame _ := trivial
  newFrame _ _ _ := trivial
  define _ _ _ := Run.ends_define (fun _ => trivial) fun _ _ => trivial
  readVariable := honest_readVariable
  writeVariable := honest_writeVariable
  makeClosure _ _ _ := trivial
  print _ _ := trivial
  readClock _ := trivial

end Steps

/-- A program that fails for an undefined variable blames the token that names it. -/
theorem honest_interpret (limits : Limits) (program : List Stmt) :
    Honest (interpret limits program) := honest_composed.interpret limits program

end Lox
