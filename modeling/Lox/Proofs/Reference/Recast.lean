import Lox.Proofs.Recast
import Lox.Proofs.Reference

/-! Running a recast program from a recast state leads to the recast result: what a program does
depends neither on the lines of its tokens nor on identities. -/
namespace Lox

variable {S : Type} {α β : Type}

/-- The table with every value replaced. -/
def NameTable.mapValues (f : α → β) (t : NameTable α) : NameTable β :=
  ⟨t.entries.map fun e => (e.1, f e.2)⟩

theorem NameTable.get?_mapValues (f : α → β) (t : NameTable α) (name : String) :
    (t.mapValues f).get? name = (t.get? name).map f := by
  obtain ⟨entries⟩ := t
  simp only [get?, mapValues]
  induction entries with
  | nil => rfl
  | cons e es ih =>
    simp only [List.map_cons, findEntry]
    split <;> simp [ih]

theorem NameTable.put_mapValues (f : α → β) (t : NameTable α) (name : String) (value : α) :
    (t.mapValues f).put name (f value) = (t.put name value).mapValues f := by
  obtain ⟨entries⟩ := t
  simp only [put, mapValues, mk.injEq]
  induction entries with
  | nil => rfl
  | cons e es ih =>
    simp only [List.map_cons, putEntry]
    split <;> simp [ih]

/-- A value whose function, if it is one, is recast. -/
def Value.recast (g : Int → Int) : Value S → Value S
  | .closure c => .closure { c with fn := c.fn.recast g }
  | v => v

def Completion.recast (g : Int → Int) : Completion S → Completion S
  | .returned value => .returned (value.recast g)
  | c => c

/-- A stop whose error, if it is one, is on another line. -/
def Halt.recast (g : Int → Int) : Halt → Halt
  | .error e => .error ⟨e.fault, e.token.reline g⟩
  | halt => halt

variable {g : Int → Int}

theorem Lambda.arity_recast (fn : Lambda) : (fn.recast g).arity = fn.arity := by
  obtain ⟨id, params, body⟩ := fn
  simp [Lambda.recast, Lambda.arity, Lambda.params]

theorem Lambda.params_recast (fn : Lambda) :
    (fn.recast g).params = fn.params.map (·.reline g) := by
  obtain ⟨id, params, body⟩ := fn
  rfl

theorem Lambda.body_recast (fn : Lambda) : (fn.recast g).body = Stmt.recastAll g fn.body := by
  obtain ⟨id, params, body⟩ := fn
  rfl

theorem Value.text_recast (v : Value S) : (v.recast g).text = v.text := by cases v <;> rfl

theorem Literal.recast_value (l : Literal) : (l.value : Value S).recast g = l.value := by
  cases l <;> rfl

theorem UnaryOp.apply_recast (op : UnaryOp) (v : Value S) :
    op.apply (v.recast g) = (op.apply v).map (·.recast g) := by
  cases op <;> cases v <;> rfl

theorem BinaryOp.applyNumbers_recast (op : BinaryOp) (x y : Float) :
    (op.applyNumbers x y : Except RuntimeFault (Value S)).map (·.recast g) =
      op.applyNumbers x y := by
  cases op
  case divide =>
    simp only [applyNumbers]
    split <;> rfl
  all_goals rfl

theorem BinaryOp.apply_number (op : BinaryOp) (x y : Float) :
    op.apply (.number x : Value S) (.number y) = op.applyNumbers x y := by
  cases op <;> rfl

/-- Operators do not look into functions, nor at lines. -/
theorem BinaryOp.apply_recast (op : BinaryOp) (v w : Value S) :
    op.apply (v.recast g) (w.recast g) = (op.apply v w).map (·.recast g) := by
  cases v <;> cases w
  case number.number x y =>
    rw [apply_number, applyNumbers_recast]
    exact apply_number op x y
  all_goals cases op <;> rfl

namespace Reference

/-- A state in which every function is recast, and before which some text was printed. -/
def State.recast (g : Int → Int) (before : String) (s : State) : State :=
  { s with
    cells := s.cells.map (·.map (·.recast g))
    globals := s.globals.mapValues (·.recast g)
    out := before ++ s.out }

variable {before : String}

/-- One run does, recast, what the other does. -/
def Mirrors (g : Int → Int) (before : String) (x y : Run α) (f : α → α) : Prop :=
  ∀ s, y (s.recast g before) =
    match x s with
    | .ok a t => .ok (f a) (t.recast g before)
    | .error halt t => .error (halt.recast g) (t.recast g before)

variable {x y : Run α} {f : α → α} {k l : α → Run β} {h : β → β}

theorem Mirrors.pure {a b : α} (h : b = f a) : Mirrors g before (pure a) (pure b) f := by
  subst h
  exact fun _ => rfl

/-- Runs that mirror each other stay so over a further part that does for corresponding results. -/
theorem Mirrors.bind (hx : Mirrors g before x y f) (hk : ∀ a, Mirrors g before (k a) (l (f a)) h) :
    Mirrors g before (x >>= k) (y >>= l) h := by
  intro s
  simp only [Bind.bind, EStateM.bind, hx s]
  cases x s with
  | ok a t => exact hk a t
  | error halt t => rfl

theorem mirrors_throw (halt : Halt) :
    Mirrors g before (throw halt : Run α) (throw (halt.recast g)) f := fun _ => rfl

/-- An error is put on the moved token. -/
theorem mirrors_fail (fault : RuntimeFault) (token : Token) :
    Mirrors g before (Run.fail fault token : Run α) (Run.fail fault (token.reline g)) f :=
  mirrors_throw (.error ⟨fault, token⟩)

theorem mirrors_fail_bind (fault : RuntimeFault) (token : Token) :
    Mirrors g before (Run.fail fault token >>= k) (Run.fail fault (token.reline g) >>= l) h :=
  fun _ => rfl

namespace Run

theorem mirrors_newCell : Mirrors g before newCell newCell id := by
  intro s
  simp [newCell, State.recast]

theorem mirrors_fill (cell : Cell) (value : Value Scope) :
    Mirrors g before (fill cell value) (fill cell (value.recast g)) id := by
  intro s
  simp [fill, State.recast, Array.map_setIfInBounds]

theorem mirrors_enter (name : Token) (scope : Scope) :
    Mirrors g before (enter name scope) (enter (name.reline g) scope) id := by
  cases scope with
  | none => exact .pure rfl
  | some names => exact .bind mirrors_newCell fun cell => .pure rfl

theorem mirrors_settle (name : Token) (cell : Option Cell) (value : Value Scope) :
    Mirrors g before (settle name cell value)
      (settle (name.reline g) cell (value.recast g)) id := by
  cases cell with
  | some cell => exact mirrors_fill cell value
  | none =>
    intro s
    simp [settle, State.recast, NameTable.put_mapValues]

theorem mirrors_bindAll (names : List Token) (values : List (Value Scope))
    (scope : List (String × Cell)) :
    Mirrors g before (bindAll names values scope)
      (bindAll (names.map (·.reline g)) (values.map (·.recast g)) scope) id := by
  induction names generalizing values scope with
  | nil => exact .pure rfl
  | cons name names ih =>
    cases values with
    | nil => exact .pure rfl
    | cons value values =>
      exact .bind mirrors_newCell fun cell => .bind (mirrors_fill cell value) fun _ =>
        ih values ((name.lexeme, cell) :: scope)

theorem value?_recast (s : State) (cell : Cell) :
    (s.recast g before).value? cell = (s.value? cell).map (·.recast g) := by
  simp only [State.value?, State.recast, Array.getElem?_map]
  cases s.cells[cell]? <;> rfl

theorem mirrors_readVariable (scope : Scope) (name : Token) :
    Mirrors g before (readVariable scope name)
      (readVariable scope (name.reline g)) (·.recast g) := by
  intro s
  have hvalue : (scope.find? name.lexeme).elim ((s.recast g before).globals.get? name.lexeme)
      (s.recast g before).value? =
      ((scope.find? name.lexeme).elim (s.globals.get? name.lexeme) s.value?).map
        (·.recast g) := by
    cases scope.find? name.lexeme with
    | none => exact NameTable.get?_mapValues _ _ _
    | some cell => exact value?_recast s cell
  simp only [readVariable, Token.lexeme_reline, hvalue]
  cases (scope.find? name.lexeme).elim (s.globals.get? name.lexeme) s.value? with
  | none => exact mirrors_fail (f := (·.recast g)) _ _ s
  | some value => rfl

theorem mirrors_writeVariable (scope : Scope) (name : Token) (value : Value Scope) :
    Mirrors g before (writeVariable scope name value)
      (writeVariable scope (name.reline g) (value.recast g)) id := by
  intro s
  simp only [writeVariable, Token.lexeme_reline]
  cases scope.find? name.lexeme with
  | some cell =>
    simp only [value?_recast, Option.isSome_map]
    split
    · exact mirrors_fill cell value s
    · exact mirrors_fail (f := id) _ _ s
  | none =>
    have hcontains : (s.recast g before).globals.contains name.lexeme =
        s.globals.contains name.lexeme := by
      simp [NameTable.contains, State.recast, NameTable.get?_mapValues]
    simp only [hcontains]
    split
    · exact mirrors_settle name none value s
    · exact mirrors_fail (f := id) _ _ s

theorem mirrors_makeClosure (name : Option String) (fn : Lambda) (scope : Scope) :
    Mirrors g before (makeClosure name fn scope) (makeClosure name (fn.recast g) scope)
      (·.recast g) := fun _ => rfl

theorem mirrors_print (text : String) : Mirrors g before (print text) (print text) id := by
  intro s
  simp [print, State.print, State.recast, String.append_assoc]

theorem mirrors_readClock : Mirrors g before readClock readClock (·.recast g) := fun _ => rfl

theorem mirrors_truth (value : Value Scope) (fault : RuntimeFault) (token : Token) :
    Mirrors g before (truth value fault token)
      (truth (value.recast g) fault (token.reline g)) id := by
  cases value with
  | bool b => exact .pure rfl
  | _ => exact mirrors_fail _ _

theorem mirrors_lift (token : Token) (result : Except RuntimeFault (Value Scope)) :
    Mirrors g before (lift token result) (lift (token.reline g) (result.map (·.recast g)))
      (·.recast g) := by
  cases result with
  | ok value => exact .pure rfl
  | error fault => exact mirrors_fail _ _

/-- A call of a recast function mirrors the call. -/
theorem mirrors_apply {body body' : Scope → List Stmt → Run (Completion Scope)}
    (hbody : ∀ scope ss,
      Mirrors g before (body scope ss) (body' scope (Stmt.recastAll g ss)) (·.recast g))
    (callee : Value Scope) (paren : Token) (arguments : List (Value Scope)) :
    Mirrors g before (apply callee paren arguments body)
      (apply (callee.recast g) (paren.reline g) (arguments.map (·.recast g)) body')
      (·.recast g) := by
  cases callee with
  | closure c =>
    have harity : (c.fn.recast g).arity = c.fn.arity := Lambda.arity_recast c.fn
    simp only [apply, Value.recast, Value.arity?, harity, List.length_map, Lambda.params_recast,
      Lambda.body_recast]
    split
    · exact mirrors_fail_bind _ _
    · refine .bind (mirrors_bindAll _ _ _) fun names => .bind (hbody _ _) fun completion => ?_
      cases completion <;> exact .pure rfl
  | native n =>
    cases n
    simp only [apply, Value.recast, Value.arity?, List.length_map]
    split
    · exact mirrors_fail_bind _ _
    · exact mirrors_readClock
  | _ => exact mirrors_fail_bind _ _

end Run

open Lox.Reference.Run

/-- What is mirrored by runs of the same program with the same fuel. -/
structure Mirrored (g : Int → Int) (before : String) (fuel : Nat) : Prop where
  eval (scope : Scope) (e : Expr) :
    Mirrors g before (eval fuel scope e) (eval fuel scope (e.recast g)) (·.recast g)
  evalAll (scope : Scope) (es : List Expr) :
    Mirrors g before (evalAll fuel scope es) (evalAll fuel scope (Expr.recastAll g es))
      (·.map (·.recast g))
  exec (scope : Scope) (s : Stmt) :
    Mirrors g before (exec fuel scope s) (exec fuel scope (s.recast g)) fun c => (c.1.recast g, c.2)
  execAll (scope : Scope) (ss : List Stmt) :
    Mirrors g before (execAll fuel scope ss) (execAll fuel scope (Stmt.recastAll g ss)) (·.recast g)

variable {fuel : Nat}

/-- Expressions on other lines are evaluated alike, with more fuel if with less. -/
theorem mirrors_eval (h : Mirrored g before fuel) (scope : Scope) (e : Expr) :
    Mirrors g before (eval (fuel + 1) scope e)
      (eval (fuel + 1) scope (e.recast g)) (·.recast g) := by
  cases e with
  | literal id value => exact .pure (Literal.recast_value value).symm
  | group id inner => exact h.eval scope inner
  | unary id op token operand =>
    refine .bind (h.eval scope operand) fun value => ?_
    rw [UnaryOp.apply_recast]
    exact mirrors_lift token _
  | binary id left op token right =>
    refine .bind (h.eval scope right) fun r => .bind (h.eval scope left) fun l => ?_
    rw [BinaryOp.apply_recast]
    exact mirrors_lift token _
  | logical id left op token right =>
    refine .bind (h.eval scope left) fun value => .bind (mirrors_truth value _ token) fun b => ?_
    simp only [id_eq]
    split
    · exact .pure rfl
    · exact h.eval scope right
  | reference id name => exact mirrors_readVariable scope name
  | assign id name value =>
    exact .bind (h.eval scope value) fun value =>
      .bind (mirrors_writeVariable scope name value) fun _ => .pure rfl
  | call id callee paren arguments =>
    exact .bind (h.eval scope callee) fun callee =>
      .bind (h.evalAll scope arguments) fun values =>
        mirrors_apply (fun scope ss => h.execAll scope ss) callee paren values
  | lambda fn => exact mirrors_makeClosure none fn scope

theorem mirrors_evalAll (h : Mirrored g before fuel) (scope : Scope) (es : List Expr) :
    Mirrors g before (evalAll (fuel + 1) scope es) (evalAll (fuel + 1) scope (Expr.recastAll g es))
      (·.map (·.recast g)) := by
  cases es with
  | nil => exact .pure rfl
  | cons e es =>
    exact .bind (h.eval scope e) fun value => .bind (h.evalAll scope es) fun values => .pure rfl

/-- Statements on other lines are executed alike. -/
theorem mirrors_exec (h : Mirrored g before fuel) (scope : Scope) (s : Stmt) :
    Mirrors g before (exec (fuel + 1) scope s) (exec (fuel + 1) scope (s.recast g))
      fun c => (c.1.recast g, c.2) := by
  cases s with
  | expression value => exact .bind (h.eval scope value) fun _ => .pure rfl
  | print value =>
    refine .bind (h.eval scope value) fun value => ?_
    rw [Value.text_recast]
    exact .bind (mirrors_print _) fun _ => .pure rfl
  | var name initial =>
    refine .bind (mirrors_enter name scope) fun ⟨inner, cell⟩ => ?_
    cases initial with
    | none =>
      exact .bind (f := (·.recast g)) (.pure rfl) fun value =>
        .bind (mirrors_settle name cell value) fun _ => .pure rfl
    | some initial =>
      exact .bind (h.eval inner initial) fun value =>
        .bind (mirrors_settle name cell value) fun _ => .pure rfl
  | block body => exact .bind (h.execAll _ body) fun c => .pure rfl
  | branch keyword condition yes no =>
    refine .bind (h.eval scope condition) fun value =>
      .bind (mirrors_truth value _ keyword) fun b => ?_
    cases b with
    | true => exact h.exec scope yes
    | false =>
      cases no with
      | none => exact .pure rfl
      | some no => exact h.exec scope no
  | loop keyword condition body =>
    refine .bind (h.eval scope condition) fun value =>
      .bind (mirrors_truth value _ keyword) fun b => ?_
    cases b with
    | false => exact .pure rfl
    | true =>
      refine .bind (h.exec scope body) fun ⟨c, scope⟩ => ?_
      cases c with
      | normal => exact h.exec scope (.loop keyword condition body)
      | _ => exact .pure rfl
  | breakLoop keyword => exact .pure rfl
  | function name fn =>
    refine .bind (mirrors_enter name scope) fun ⟨inner, cell⟩ => ?_
    exact .bind (mirrors_makeClosure _ fn inner) fun value =>
      .bind (mirrors_settle name cell value) fun _ => .pure rfl
  | giveBack keyword value =>
    cases value with
    | none => exact .pure rfl
    | some value => exact .bind (h.eval scope value) fun value => .pure rfl

theorem mirrors_execAll (h : Mirrored g before fuel) (scope : Scope) (ss : List Stmt) :
    Mirrors g before (execAll (fuel + 1) scope ss) (execAll (fuel + 1) scope (Stmt.recastAll g ss))
      (·.recast g) := by
  cases ss with
  | nil => exact .pure rfl
  | cons s ss =>
    refine .bind (h.exec scope s) fun ⟨c, scope⟩ => ?_
    cases c with
    | normal => exact h.execAll scope ss
    | _ => exact .pure rfl

theorem mirrored (g : Int → Int) (before : String) (fuel : Nat) : Mirrored g before fuel := by
  induction fuel with
  | zero =>
    exact ⟨fun _ _ => mirrors_throw .outOfFuel, fun _ _ => mirrors_throw .outOfFuel,
      fun _ _ => mirrors_throw .outOfFuel, fun _ _ => mirrors_throw .outOfFuel⟩
  | succ fuel h => exact ⟨mirrors_eval h, mirrors_evalAll h, mirrors_exec h, mirrors_execAll h⟩

/-- A recast program does, from a recast state, what the program does, recast. -/
theorem mirrors_interpret (g : Int → Int) (before : String) (fuel : Nat) (program : List Stmt) :
    Mirrors g before (interpret fuel program) (interpret fuel (Stmt.recastAll g program)) id := by
  induction program with
  | nil => exact .pure rfl
  | cons s program ih => exact .bind ((mirrored g before fuel).exec none s) fun _ => ih

end Reference

end Lox
