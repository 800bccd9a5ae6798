import Lox.Evaluate

/-! Runs are put together of single steps. A property of runs that the steps have, and that is kept
where one run goes on with another, every evaluation and every execution has. -/
namespace Lox

/-- A property that runs have if their steps have it. Of the errors, those that name a variable are
left to the steps that look it up. -/
structure Composed (Q : ∀ α : Type, Run α → Prop) : Prop where
  pure : ∀ {α} (a : α), Q α (pure a)
  bind : ∀ {α β} {x : Run α} {f : α → Run β}, Q α x → (∀ a, Q β (f a)) → Q β (x >>= f)
  within : ∀ {α} {x : Run α} (frame : FrameId), Q α x → Q α (Run.within frame x)
  stop : ∀ {α} {halt : Halt}, (∀ e, halt ≠ .error e) → Q α (throw halt)
  fail : ∀ {α} {fault : RuntimeFault} (token : Token),
    (∀ name, fault ≠ .undefinedVariable name) → Q α (Run.fail fault token)
  frame : Q _ Run.frame
  newFrame : ∀ enclosing values, Q _ (Run.newFrame enclosing values)
  define : ∀ name v, Q _ (Run.define name v)
  readVariable : ∀ id name, Q _ (Run.readVariable id name)
  writeVariable : ∀ id name v, Q _ (Run.writeVariable id name v)
  makeClosure : ∀ name fn, Q _ (Run.makeClosure name fn)
  print : ∀ text, Q _ (Run.print text)
  readClock : Q _ Run.readClock

theorem UnaryOp.apply_ne_undefined (op : UnaryOp) (v : Value) (name : String) :
    op.apply v ≠ .error (.undefinedVariable name) := by
  cases op <;> cases v <;> simp [UnaryOp.apply]

theorem BinaryOp.applyNumbers_ne_undefined (op : BinaryOp) (x y : Float) (name : String) :
    (op.applyNumbers x y : Except RuntimeFault Value) ≠ .error (.undefinedVariable name) := by
  cases op with
  | divide =>
    simp only [applyNumbers]
    split <;> simp
  | _ => simp [applyNumbers]

/-- No operator complains of a name. -/
theorem BinaryOp.apply_ne_undefined (op : BinaryOp) (v w : Value) (name : String) :
    op.apply v w ≠ .error (.undefinedVariable name) := by
  unfold BinaryOp.apply
  split
  · simp
  · simp
  · simp
  · exact applyNumbers_ne_undefined _ _ _ name
  · simp
  · simp

namespace Composed

variable {Q : ∀ α : Type, Run α → Prop} {fuel : Nat} {room : Option Nat}

theorem lift (hQ : Composed Q) {result : Except RuntimeFault Value} (token : Token)
    (h : ∀ name, result ≠ .error (.undefinedVariable name)) : Q _ (Run.lift token result) := by
  cases result with
  | ok v => exact hQ.pure v
  | error fault => exact hQ.fail token fun name hname => h name (congrArg Except.error hname)

theorem truth (hQ : Composed Q) (v : Value) {fault : RuntimeFault} (token : Token)
    (h : ∀ name, fault ≠ .undefinedVariable name) : Q _ (Run.truth v fault token) := by
  cases v with
  | bool b => exact hQ.pure b
  | _ => exact hQ.fail token h

/-- A call is composed as its body is. -/
theorem apply (hQ : Composed Q) (callee : Value) (paren : Token) (arguments : List Value)
    (room : Option Nat) {body : Option Nat → List Stmt → Run Completion}
    (hbody : ∀ inner ss, Q _ (body inner ss)) :
    Q _ (Run.apply callee paren arguments room body) := by
  have hwrong {arity : Nat} (rest : Unit → Run Value) :
      Q _ (Run.fail (.wrongArity arity arguments.length) paren >>= rest) :=
    hQ.fail (α := Value) paren (by simp)
  unfold Run.apply
  cases callee with
  | closure c =>
    simp only [Value.arity?]
    split
    · exact hwrong _
    · cases callRoom? room with
      | none => exact hQ.stop (by simp)
      | some inner =>
        apply hQ.bind (hQ.newFrame c.scope arguments.toArray)
        intro frame
        apply hQ.bind (hQ.within frame (hbody inner c.fn.body))
        intro completion
        cases completion <;> exact hQ.pure _
  | native n =>
    simp only [Value.arity?]
    split
    · exact hwrong _
    · exact hQ.readClock
  | _ => exact hQ.fail paren (by simp)

/-- Evaluations and executions that have no more than `fuel` have the property. -/
structure Runs (Q : ∀ α : Type, Run α → Prop) (fuel : Nat) : Prop where
  eval : ∀ room e, Q _ (eval fuel room e)
  evalAll : ∀ room es, Q _ (evalAll fuel room es)
  exec : ∀ room s, Q _ (exec fuel room s)
  execAll : ∀ room ss, Q _ (execAll fuel room ss)

theorem eval (hQ : Composed Q) (h : Runs Q fuel) (e : Expr) : Q _ (eval (fuel + 1) room e) := by
  cases e with
  | literal id value => exact hQ.pure _
  | group id inner => exact h.eval room inner
  | unary id op token operand =>
    exact hQ.bind (h.eval room operand) fun v => hQ.lift token (op.apply_ne_undefined v)
  | binary id left op token right =>
    apply hQ.bind (h.eval room right)
    intro v
    exact hQ.bind (h.eval room left) fun w => hQ.lift token (op.apply_ne_undefined w v)
  | logical id left op token right =>
    apply hQ.bind (h.eval room left)
    intro v
    apply hQ.bind (hQ.truth v token (by simp))
    intro b
    cases hb : op.settledBy b with
    | true => simpa [hb] using hQ.pure v
    | false => simpa [hb] using h.eval room right
  | reference id name => exact hQ.readVariable id name
  | assign id name value =>
    apply hQ.bind (h.eval room value)
    intro v
    exact hQ.bind (hQ.writeVariable id name v) fun _ => hQ.pure v
  | call id callee paren arguments =>
    apply hQ.bind (h.eval room callee)
    intro v
    apply hQ.bind (h.evalAll room arguments)
    intro vs
    exact hQ.apply v paren vs room h.execAll
  | lambda fn => exact hQ.makeClosure none fn

theorem evalAll (hQ : Composed Q) (h : Runs Q fuel) (es : List Expr) :
    Q _ (evalAll (fuel + 1) room es) := by
  cases es with
  | nil => exact hQ.pure _
  | cons e es =>
    apply hQ.bind (h.eval room e)
    intro v
    exact hQ.bind (h.evalAll room es) fun vs => hQ.pure _

theorem exec (hQ : Composed Q) (h : Runs Q fuel) (s : Stmt) : Q _ (exec (fuel + 1) room s) := by
  cases s with
  | expression value => exact hQ.bind (h.eval room value) fun v => hQ.pure _
  | print value =>
    apply hQ.bind (h.eval room value)
    intro v
    exact hQ.bind (hQ.print v.text) fun _ => hQ.pure _
  | var name initial =>
    cases initial with
    | none => exact hQ.bind (hQ.define name .nil) fun _ => hQ.pure _
    | some initial =>
      apply hQ.bind (h.eval room initial)
      intro v
      exact hQ.bind (hQ.define name v) fun _ => hQ.pure _
  | block body =>
    apply hQ.bind hQ.frame
    intro outer
    apply hQ.bind (hQ.newFrame outer #[])
    intro frame
    exact hQ.within frame (h.execAll room body)
  | branch keyword condition yes no =>
    apply hQ.bind (h.eval room condition)
    intro v
    apply hQ.bind (hQ.truth v keyword (by simp))
    intro b
    cases b with
    | true => exact h.exec room yes
    | false =>
      cases no with
      | none => exact hQ.pure _
      | some no => exact h.exec room no
  | loop keyword condition body =>
    apply hQ.bind (h.eval room condition)
    intro v
    apply hQ.bind (hQ.truth v keyword (by simp))
    intro b
    cases b with
    | false => exact hQ.pure _
    | true =>
      apply hQ.bind (h.exec room body)
      intro c
      cases c with
      | normal => exact h.exec room (.loop keyword condition body)
      | _ => exact hQ.pure _
  | breakLoop keyword => exact hQ.pure _
  | function name fn =>
    apply hQ.bind (hQ.makeClosure (some name.lexeme) fn)
    intro v
    exact hQ.bind (hQ.define name v) fun _ => hQ.pure _
  | giveBack keyword value =>
    cases value with
    | none => exact hQ.pure _
    | some value => exact hQ.bind (h.eval room value) fun v => hQ.pure _

theorem execAll (hQ : Composed Q) (h : Runs Q fuel) (ss : List Stmt) :
    Q _ (execAll (fuel + 1) room ss) := by
  cases ss with
  | nil => exact hQ.pure _
  | cons s ss =>
    apply hQ.bind (h.exec room s)
    intro c
    cases c with
    | normal => exact h.execAll room ss
    | _ => exact hQ.pure _

theorem runs (hQ : Composed Q) (fuel : Nat) : Runs Q fuel := by
  induction fuel with
  | zero => constructor <;> intros <;> exact hQ.stop (by simp)
  | succ fuel ih =>
    exact ⟨fun _ => hQ.eval ih, fun _ => hQ.evalAll ih, fun _ => hQ.exec ih,
      fun _ => hQ.execAll ih⟩

/-- Every program has the property of its steps. -/
theorem interpret (hQ : Composed Q) (limits : Limits) (program : List Stmt) :
    Q _ (interpret limits program) := by
  induction program with
  | nil => exact hQ.pure _
  | cons s ss ih => exact hQ.bind ((hQ.runs limits.fuel).exec limits.calls s) fun _ => ih

end Composed

end Lox
