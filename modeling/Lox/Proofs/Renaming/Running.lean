import Lox.Evaluate
import Lox.Proofs.Reference.Recast
import Lox.Proofs.Renaming.Renamed

/-! Running a program whose local variables are read under another name: the machine finds them by
their addresses, so that it does the same, and shows the name in error messages only. -/
namespace Lox

section

variable (old new : String) (known : NodeId → Bool)

/-- A value whose function, if it is one, is read under the old name. -/
def Value.formerly : Value → Value
  | .closure c => .closure { c with fn := c.fn.formerly old new known }
  | v => v

def Completion.formerly : Completion → Completion
  | .returned value => .returned (value.formerly old new known)
  | c => c

def Store.formerly (s : Store) : Store :=
  ⟨s.frames.map fun f => { f with values := f.values.map (·.formerly old new known) }⟩

/-- A machine in which every function is read under the old name. -/
def Machine.formerly (m : Machine) : Machine :=
  { m with
    store := m.store.formerly old new known
    globals := m.globals.mapValues (·.formerly old new known) }

def RuntimeFault.former : RuntimeFault → RuntimeFault
  | .undefinedVariable name => .undefinedVariable (if name = new then old else name)
  | fault => fault

/-- An error with the new name read as the old one. -/
def RuntimeError.former (e : RuntimeError) : RuntimeError :=
  ⟨e.fault.former old new, e.token.former old new⟩

def Halt.former : Halt → Halt
  | .error e => .error (e.former old new)
  | halt => halt

end

section Values

variable {old new : String} {known : NodeId → Bool}

theorem Array.map_modify_comm {α β : Type} {g : α → β} {f : α → α} {f' : β → β}
    (h : ∀ a, g (f a) = f' (g a)) {as : Array α} (i : Nat) :
    (as.modify i f).map g = (as.map g).modify i f' := by
  refine Array.ext_getElem? fun j => ?_
  simp only [Array.getElem?_modify, Array.getElem?_map]
  split
  · cases as[j]? <;> simp [h]
  · rfl

theorem Lambda.arity_formerly (fn : Lambda) : (fn.formerly old new known).arity = fn.arity := by
  obtain ⟨id, params, body⟩ := fn
  simp [Lambda.formerly, Lambda.arity, Lambda.params]

theorem Lambda.body_formerly (fn : Lambda) :
    (fn.formerly old new known).body = Stmt.formerlyAll old new known true fn.body := by
  obtain ⟨id, params, body⟩ := fn
  rfl

theorem Value.text_formerly (v : Value) : (v.formerly old new known).text = v.text := by
  cases v <;> rfl

theorem Literal.formerly_value (l : Literal) :
    (l.value : Value).formerly old new known = l.value := by
  cases l <;> rfl

/-- Operators do not look into functions. -/
theorem UnaryOp.apply_formerly (op : UnaryOp) (v : Value) :
    op.apply (v.formerly old new known) = (op.apply v).map (·.formerly old new known) := by
  cases op <;> cases v <;> rfl

theorem BinaryOp.applyNumbers_formerly (op : BinaryOp) (x y : Float) :
    (op.applyNumbers x y : Except RuntimeFault Value).map (·.formerly old new known) =
      op.applyNumbers x y := by
  cases op with
  | divide =>
    simp only [applyNumbers]
    split <;> rfl
  | _ => rfl

theorem BinaryOp.apply_formerly (op : BinaryOp) (v w : Value) :
    op.apply (v.formerly old new known) (w.formerly old new known) =
      (op.apply v w).map (·.formerly old new known) := by
  cases v <;> cases w
  case number.number x y =>
    rw [apply_number, applyNumbers_formerly]
    exact apply_number op x y
  all_goals cases op <;> rfl

namespace Store

variable (s : Store)

theorem getElem?_formerly (frame : FrameId) :
    (s.formerly old new known).frames[frame]? = s.frames[frame]?.map fun f =>
      { f with values := f.values.map (·.formerly old new known) } := by
  simp [formerly]

theorem ancestor?_formerly (distance : Nat) (frame : FrameId) :
    (s.formerly old new known).ancestor? distance frame = s.ancestor? distance frame := by
  induction distance generalizing frame with
  | zero => rfl
  | succ distance ih =>
    simp only [ancestor?, getElem?_formerly]
    cases s.frames[frame]? with
    | none => rfl
    | some f =>
      obtain ⟨_ | enclosing, values⟩ := f
      · rfl
      · exact ih enclosing

theorem locate_formerly (frame : FrameId) (distance slot : Nat) :
    (s.formerly old new known).locate frame distance slot = s.locate frame distance slot := by
  simp only [locate, ancestor?_formerly]
  cases s.ancestor? distance frame with
  | none => rfl
  | some target =>
    simp only [getElem?_formerly]
    cases s.frames[target]? with
    | none => rfl
    | some f => simp

/-- Slots do not have names. -/
theorem read_formerly (frame : FrameId) (distance slot : Nat) :
    (s.formerly old new known).read frame distance slot =
      (s.read frame distance slot).map (·.formerly old new known) := by
  simp only [read, locate_formerly]
  cases s.locate frame distance slot with
  | error fault => rfl
  | ok target =>
    have hvalue : (s.formerly old new known).value? target slot =
        (s.value? target slot).map (·.formerly old new known) := by
      simp only [value?, getElem?_formerly]
      cases s.frames[target]? with
      | none => rfl
      | some f => simp
    simp only [Bind.bind, Except.bind, hvalue]
    cases s.value? target slot <;> rfl

theorem newFrame_formerly (enclosing : Option FrameId) (values : Array Value) :
    (s.formerly old new known).newFrame enclosing (values.map (·.formerly old new known)) =
      ((s.newFrame enclosing values).1,
        (s.newFrame enclosing values).2.formerly old new known) := by
  simp [newFrame, formerly]

theorem define_formerly (frame : FrameId) (v : Value) :
    (s.formerly old new known).define frame (v.formerly old new known) =
      (s.define frame v).formerly old new known := by
  simp only [define, formerly, mk.injEq]
  exact (Array.map_modify_comm (fun _ => by simp) frame).symm

theorem set_formerly (frame : FrameId) (slot : Nat) (v : Value) :
    (s.formerly old new known).set frame slot (v.formerly old new known) =
      (s.set frame slot v).formerly old new known := by
  simp only [set, formerly, mk.injEq]
  exact (Array.map_modify_comm (fun _ => by simp [Array.map_setIfInBounds]) frame).symm

end Store

end Values

def Resolution.knows (table : Resolution) (id : NodeId) : Bool := (table.find? id).isSome

/-- One run does, read under the old name, what the other does. Both stay in the frame they start
in, and keep the addresses. -/
def Parallel (old new : String) (table : Resolution) (nested : Bool) {α : Type} (x y : Run α)
    (f : α → α) : Prop :=
  ∀ m : Machine, m.resolution = table → (nested = true → m.frame.isSome) →
    match x m with
    | .ok a t =>
      y (m.formerly old new table.knows) = .ok (f a) (t.formerly old new table.knows) ∧
        t.resolution = table ∧ t.frame = m.frame
    | .error halt t =>
      ∃ halt', y (m.formerly old new table.knows) = .error halt' (t.formerly old new table.knows) ∧
        halt'.former old new = halt.former old new

section Runs

variable {old new : String} {table : Resolution} {nested : Bool} {α β : Type} {x y : Run α}
  {f : α → α} {k l : α → Run β} {g : β → β}

theorem Parallel.pure {a b : α} (hab : b = f a) :
    Parallel old new table nested (pure a) (pure b) f := by
  subst hab
  exact fun m hm _ => ⟨rfl, hm, rfl⟩

/-- Runs in parallel stay so over a further part that is parallel for corresponding results. -/
theorem Parallel.bind (hx : Parallel old new table nested x y f)
    (hk : ∀ a, Parallel old new table nested (k a) (l (f a)) g) :
    Parallel old new table nested (x >>= k) (y >>= l) g := by
  intro m hm hn
  have hx := hx m hm hn
  simp only [Bind.bind, EStateM.bind]
  cases hrun : x m with
  | error halt t =>
    rw [hrun] at hx
    obtain ⟨halt', hy, hhalt⟩ := hx
    exact ⟨halt', by rw [hy], hhalt⟩
  | ok a t =>
    rw [hrun] at hx
    obtain ⟨hy, ht, hframe⟩ := hx
    have hk := hk a t ht fun h => hframe ▸ hn h
    simp only [hy]
    cases hrest : k a t with
    | error halt u => simpa only [hrest] using hk
    | ok b u => simpa only [hrest, hframe] using hk

theorem parallel_throw {halt halt' : Halt} (hh : halt'.former old new = halt.former old new) :
    Parallel old new table nested (throw halt : Run α) (throw halt') f :=
  fun _ _ _ => ⟨halt', rfl, hh⟩

theorem parallel_stop (halt : Halt) :
    Parallel old new table nested (throw halt : Run α) (throw halt) f := parallel_throw rfl

theorem parallel_fail (fault : RuntimeFault) (token : Token) :
    Parallel old new table nested (Run.fail fault token : Run α) (Run.fail fault token) f :=
  parallel_stop _

theorem parallel_fail_bind (fault : RuntimeFault) (token : Token) :
    Parallel old new table nested (Run.fail fault token >>= k) (Run.fail fault token >>= l) g :=
  fun _ _ _ => ⟨_, rfl, rfl⟩

namespace Run

theorem parallel_within (frame : FrameId) (hx : Parallel old new table true x y f) :
    Parallel old new table nested (within frame x) (within frame y) f := by
  intro m hm _
  have hx := hx { m with frame := some frame } hm fun _ => rfl
  have hstart : { m.formerly old new table.knows with frame := some frame } =
      ({ m with frame := some frame } : Machine).formerly old new table.knows := rfl
  simp only [within, hstart]
  cases hrun : x { m with frame := some frame } with
  | ok a t =>
    simp only [hrun] at hx
    exact ⟨by rw [hx.1]; rfl, hx.2.1, rfl⟩
  | error halt t =>
    simp only [hrun] at hx
    obtain ⟨halt', hy, hhalt⟩ := hx
    exact ⟨halt', by rw [hy]; rfl, hhalt⟩

theorem parallel_newFrame (enclosing : Option FrameId) (values : Array Value) :
    Parallel old new table nested (newFrame enclosing values)
      (newFrame enclosing (values.map (·.formerly old new table.knows))) id := by
  intro m hm _
  refine ⟨?_, hm, rfl⟩
  simp only [newFrame, Machine.formerly, Store.newFrame_formerly]
  rfl

theorem parallel_newFrame_empty (enclosing : Option FrameId) :
    Parallel old new table nested (newFrame enclosing #[]) (newFrame enclosing #[]) id := by
  simpa using parallel_newFrame enclosing #[]

theorem parallel_frame : Parallel old new table nested frame frame id :=
  fun _ hm _ => ⟨rfl, hm, rfl⟩

/-- A local variable may have any name. -/
theorem parallel_define {name name' : Token} (hname : nested = false → name' = name) (v : Value) :
    Parallel old new table nested (define name v) (define name' (v.formerly old new table.knows))
      id := by
  intro m hm hn
  obtain ⟨store, _ | frame, globals, resolution, out, closures, clock, ticks⟩ := m
  · rw [hname (by simpa using hn)]
    refine ⟨?_, hm, rfl⟩
    simp only [define, Machine.formerly, NameTable.put_mapValues]
  · refine ⟨?_, hm, rfl⟩
    simp only [define, Machine.formerly, Store.define_formerly]

theorem parallel_readGlobal (name : Token) :
    Parallel old new table nested (readGlobal name) (readGlobal name)
      (·.formerly old new table.knows) := by
  intro m hm _
  simp only [readGlobal, Machine.formerly, NameTable.get?_mapValues]
  cases m.globals.get? name.lexeme with
  | some v => exact ⟨rfl, hm, rfl⟩
  | none => exact ⟨_, rfl, rfl⟩

theorem parallel_writeGlobal (name : Token) (v : Value) :
    Parallel old new table nested (writeGlobal name v)
      (writeGlobal name (v.formerly old new table.knows)) id := by
  intro m hm _
  have hcontains : (m.globals.mapValues (·.formerly old new table.knows)).contains name.lexeme =
      m.globals.contains name.lexeme := by
    simp [NameTable.contains, NameTable.get?_mapValues]
  simp only [writeGlobal, Machine.formerly, hcontains, NameTable.put_mapValues]
  cases m.globals.contains name.lexeme with
  | true => exact ⟨rfl, hm, rfl⟩
  | false => exact ⟨_, rfl, rfl⟩

theorem former_storeHalt (fault : StoreFault) (name : Token) :
    (storeHalt fault (name.former old new)).former old new =
      (storeHalt fault name).former old new := by
  cases fault with
  | noFrame => rfl
  | noSlot =>
    by_cases h : name.lexeme = new <;>
      simp [storeHalt, Halt.former, RuntimeError.former, RuntimeFault.former, Token.former, h]

/-- A variable with an address is found without its name; a global has no other name. -/
theorem parallel_readVariable (id : NodeId) (name : Token) :
    Parallel old new table nested (readVariable id name)
      (readVariable id (if table.knows id then name.former old new else name))
      (·.formerly old new table.knows) := by
  intro m hm hn
  cases hfind : m.resolution.find? id with
  | none =>
    have hknows : table.knows id = false := by rw [Resolution.knows, ← hm, hfind]; rfl
    simpa [readVariable, Machine.formerly, hfind, hknows] using parallel_readGlobal name m hm hn
  | some address =>
    have hknows : table.knows id = true := by rw [Resolution.knows, ← hm, hfind]; rfl
    obtain ⟨store, _ | frame, globals, resolution, out, closures, clock, ticks⟩ := m
    · simp only [readVariable, Machine.formerly, hfind]
      exact ⟨_, rfl, rfl⟩
    · simp only [readVariable, Machine.formerly, hfind, hknows, if_true, Store.read_formerly]
      cases store.read frame address.distance address.slot with
      | ok v => exact ⟨rfl, hm, rfl⟩
      | error fault => exact ⟨_, rfl, former_storeHalt fault name⟩

theorem parallel_writeVariable (id : NodeId) (name : Token) (v : Value) :
    Parallel old new table nested (writeVariable id name v)
      (writeVariable id (if table.knows id then name.former old new else name)
        (v.formerly old new table.knows)) (fun _ => ()) := by
  intro m hm hn
  cases hfind : m.resolution.find? id with
  | none =>
    have hknows : table.knows id = false := by rw [Resolution.knows, ← hm, hfind]; rfl
    simpa [writeVariable, Machine.formerly, hfind, hknows] using parallel_writeGlobal name v m hm hn
  | some address =>
    have hknows : table.knows id = true := by rw [Resolution.knows, ← hm, hfind]; rfl
    obtain ⟨store, _ | frame, globals, resolution, out, closures, clock, ticks⟩ := m
    · simp only [writeVariable, Machine.formerly, hfind]
      exact ⟨_, rfl, rfl⟩
    · simp only [writeVariable, Machine.formerly, hfind, hknows, if_true, Store.locate_formerly,
        Store.set_formerly]
      cases store.locate frame address.distance address.slot with
      | ok target => exact ⟨rfl, hm, rfl⟩
      | error fault => exact ⟨_, rfl, former_storeHalt fault name⟩

theorem parallel_makeClosure (name : Option String) (fn : Lambda) :
    Parallel old new table nested (makeClosure name fn)
      (makeClosure name (fn.formerly old new table.knows)) (·.formerly old new table.knows) :=
  fun _ hm _ => ⟨rfl, hm, rfl⟩

theorem parallel_print (text : String) :
    Parallel old new table nested (print text) (print text) id := fun _ hm _ => ⟨rfl, hm, rfl⟩

theorem parallel_readClock :
    Parallel old new table nested readClock readClock (·.formerly old new table.knows) :=
  fun _ hm _ => ⟨rfl, hm, rfl⟩

theorem parallel_truth (v : Value) (fault : RuntimeFault) (token : Token) :
    Parallel old new table nested (truth v fault token)
      (truth (v.formerly old new table.knows) fault token) id := by
  cases v with
  | bool b => exact .pure rfl
  | _ => exact parallel_fail _ _

theorem parallel_lift (token : Token) (result : Except RuntimeFault Value) :
    Parallel old new table nested (lift token result)
      (lift token (result.map (·.formerly old new table.knows)))
      (·.formerly old new table.knows) := by
  cases result with
  | ok v => exact .pure rfl
  | error fault => exact parallel_fail _ _

/-- A call of a function read under the old name does the same. -/
theorem parallel_apply {body body' : Option Nat → List Stmt → Run Completion}
    (hbody : ∀ room ss, Parallel old new table true (body room ss)
      (body' room (Stmt.formerlyAll old new table.knows true ss)) (·.formerly old new table.knows))
    (callee : Value) (paren : Token) (arguments : List Value) (room : Option Nat) :
    Parallel old new table nested (apply callee paren arguments room body)
      (apply (callee.formerly old new table.knows) paren
        (arguments.map (·.formerly old new table.knows)) room body')
      (·.formerly old new table.knows) := by
  cases callee with
  | closure c =>
    simp only [apply, Value.formerly, Value.arity?, Lambda.arity_formerly, List.length_map,
      Lambda.body_formerly]
    split
    · exact parallel_fail_bind _ _
    · cases callRoom? room with
      | none => exact parallel_stop _
      | some inner =>
        simp only [← List.map_toArray]
        refine .bind (parallel_newFrame _ _) fun frame =>
          .bind (parallel_within frame (hbody inner _)) fun completion => ?_
        cases completion <;> exact .pure rfl
  | native n =>
    cases n
    simp only [apply, Value.formerly, Value.arity?, List.length_map]
    split
    · exact parallel_fail_bind _ _
    · exact parallel_readClock
  | _ => exact parallel_fail_bind _ _

end Run

open Run

/-- What runs of the same program with the same fuel do, read under the old name. -/
structure Paralleled (old new : String) (table : Resolution) (fuel : Nat) : Prop where
  eval (nested : Bool) (room : Option Nat) (e : Expr) :
    Parallel old new table nested (eval fuel room e)
      (eval fuel room (e.formerly old new table.knows)) (·.formerly old new table.knows)
  evalAll (nested : Bool) (room : Option Nat) (es : List Expr) :
    Parallel old new table nested (evalAll fuel room es)
      (evalAll fuel room (Expr.formerlyAll old new table.knows es))
      (·.map (·.formerly old new table.knows))
  exec (nested : Bool) (room : Option Nat) (s : Stmt) :
    Parallel old new table nested (exec fuel room s)
      (exec fuel room (s.formerly old new table.knows nested)) (·.formerly old new table.knows)
  execAll (nested : Bool) (room : Option Nat) (ss : List Stmt) :
    Parallel old new table nested (execAll fuel room ss)
      (execAll fuel room (Stmt.formerlyAll old new table.knows nested ss))
      (·.formerly old new table.knows)

section Trees

variable {fuel : Nat} (h : Paralleled old new table fuel) (nested : Bool) (room : Option Nat)

include h

/-- Expressions are evaluated in parallel, with more fuel if with less. -/
theorem parallel_eval (e : Expr) :
    Parallel old new table nested (eval (fuel + 1) room e)
      (eval (fuel + 1) room (e.formerly old new table.knows)) (·.formerly old new table.knows) := by
  cases e with
  | literal id value => exact .pure (Literal.formerly_value value).symm
  | group id inner => exact h.eval nested room inner
  | unary id op token operand =>
    refine .bind (h.eval nested room operand) fun v => ?_
    rw [UnaryOp.apply_formerly]
    exact parallel_lift token _
  | binary id left op token right =>
    refine .bind (h.eval nested room right) fun r => .bind (h.eval nested room left) fun l => ?_
    rw [BinaryOp.apply_formerly]
    exact parallel_lift token _
  | logical id left op token right =>
    refine .bind (h.eval nested room left) fun v => .bind (parallel_truth v _ token) fun b => ?_
    simp only [id_eq]
    split
    · exact .pure rfl
    · exact h.eval nested room right
  | reference id name => exact parallel_readVariable id name
  | assign id name value =>
    exact .bind (h.eval nested room value) fun v =>
      .bind (parallel_writeVariable id name v) fun _ => .pure rfl
  | call id callee paren arguments =>
    exact .bind (h.eval nested room callee) fun callee =>
      .bind (h.evalAll nested room arguments) fun values =>
        parallel_apply (fun room ss => h.execAll true room ss) callee paren values room
  | lambda fn => exact parallel_makeClosure none fn

theorem parallel_evalAll (es : List Expr) :
    Parallel old new table nested (evalAll (fuel + 1) room es)
      (evalAll (fuel + 1) room (Expr.formerlyAll old new table.knows es))
      (·.map (·.formerly old new table.knows)) := by
  cases es with
  | nil => exact .pure rfl
  | cons e es =>
    exact .bind (h.eval nested room e) fun v => .bind (h.evalAll nested room es) fun vs => .pure rfl

/-- Statements are executed in parallel. -/
theorem parallel_exec (s : Stmt) :
    Parallel old new table nested (exec (fuel + 1) room s)
      (exec (fuel + 1) room (s.formerly old new table.knows nested))
      (·.formerly old new table.knows) := by
  cases s with
  | expression value => exact .bind (h.eval nested room value) fun _ => .pure rfl
  | print value =>
    refine .bind (h.eval nested room value) fun v => ?_
    rw [Value.text_formerly]
    exact .bind (parallel_print _) fun _ => .pure rfl
  | var name initial =>
    have hname : nested = false → (if nested then name.former old new else name) = name := by
      rintro rfl
      rfl
    cases initial with
    | none => exact .bind (parallel_define hname .nil) fun _ => .pure rfl
    | some initial =>
      exact .bind (h.eval nested room initial) fun v =>
        .bind (parallel_define hname v) fun _ => .pure rfl
  | block body =>
    exact .bind parallel_frame fun outer => .bind (parallel_newFrame_empty outer) fun frame =>
      parallel_within frame (h.execAll true room body)
  | branch keyword condition yes no =>
    refine .bind (h.eval nested room condition) fun v =>
      .bind (parallel_truth v _ keyword) fun b => ?_
    cases b with
    | true => exact h.exec nested room yes
    | false =>
      cases no with
      | none => exact .pure rfl
      | some no => exact h.exec nested room no
  | loop keyword condition body =>
    refine .bind (h.eval nested room condition) fun v =>
      .bind (parallel_truth v _ keyword) fun b => ?_
    cases b with
    | false => exact .pure rfl
    | true =>
      refine .bind (h.exec nested room body) fun c => ?_
      cases c with
      | normal => exact h.exec nested room (.loop keyword condition body)
      | _ => exact .pure rfl
  | breakLoop keyword => exact .pure rfl
  | function name fn =>
    exact .bind (parallel_makeClosure _ fn) fun v =>
      .bind (parallel_define (fun _ => rfl) v) fun _ => .pure rfl
  | giveBack keyword value =>
    cases value with
    | none => exact .pure rfl
    | some value => exact .bind (h.eval nested room value) fun v => .pure rfl

theorem parallel_execAll (ss : List Stmt) :
    Parallel old new table nested (execAll (fuel + 1) room ss)
      (execAll (fuel + 1) room (Stmt.formerlyAll old new table.knows nested ss))
      (·.formerly old new table.knows) := by
  cases ss with
  | nil => exact .pure rfl
  | cons s ss =>
    refine .bind (h.exec nested room s) fun c => ?_
    cases c with
    | normal => exact h.execAll nested room ss
    | _ => exact .pure rfl

end Trees

/-- At whatever fuel, a program that is read under the old name runs in parallel. -/
theorem paralleled (old new : String) (table : Resolution) (fuel : Nat) :
    Paralleled old new table fuel := by
  induction fuel with
  | zero =>
    exact ⟨fun _ _ _ => parallel_stop _, fun _ _ _ => parallel_stop _, fun _ _ _ => parallel_stop _,
      fun _ _ _ => parallel_stop _⟩
  | succ fuel h =>
    exact ⟨parallel_eval h, parallel_evalAll h, parallel_exec h, parallel_execAll h⟩

/-- A program read under the old name does, on a machine read so, what it does under the new one. -/
theorem parallel_interpret (old new : String) (table : Resolution) (limits : Limits)
    (program : List Stmt) :
    Parallel old new table false (interpret limits program)
      (interpret limits (Stmt.formerlyAll old new table.knows false program)) id := by
  induction program with
  | nil => exact .pure rfl
  | cons s program ih =>
    exact .bind ((paralleled old new table limits.fuel).exec false limits.calls s) fun _ => ih

end Runs

end Lox
