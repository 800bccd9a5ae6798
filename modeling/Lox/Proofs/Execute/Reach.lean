import Mathlib.Logic.Relation
import Lox.Evaluate
import Lox.Parse
import Lox.Resolve

/-! The states that execution goes through: what an evaluation starts within itself, and the
machines that programs leave behind. -/
namespace Lox

/-- What can be evaluated or executed. `body` is a function that is being called. -/
inductive Task where
  | expr (e : Expr)
  | exprs (es : List Expr)
  | stmt (s : Stmt)
  | stmts (ss : List Stmt)
  | body (fn : Lambda)

/-- A task about to be done on a machine. -/
structure Config where
  task : Task
  room : Option Nat
  machine : Machine

def Task.run (fuel : Nat) (room : Option Nat) : Task → Run Unit
  | .expr e => discard (eval fuel room e)
  | .exprs es => discard (evalAll fuel room es)
  | .stmt s => discard (exec fuel room s)
  | .stmts ss => discard (execAll fuel room ss)
  | .body fn => discard (execAll fuel room fn.body)

/-- A new frame, which becomes the innermost. -/
def Machine.enter (m : Machine) (enclosing : Option FrameId) (values : Array Value) : Machine :=
  let (frame, store) := m.store.newFrame enclosing values
  { m with store, frame := some frame }

/-- The tasks that a task starts: each part of the program where the parts before it have led, and
the body of a function that is called. -/
inductive Starts (fuel : Nat) : Config → Config → Prop
  | inner {id e room m} : Starts fuel ⟨.expr (.group id e), room, m⟩ ⟨.expr e, room, m⟩
  | operand {id op token e room m} :
    Starts fuel ⟨.expr (.unary id op token e), room, m⟩ ⟨.expr e, room, m⟩
  | right {id l op token r room m} :
    Starts fuel ⟨.expr (.binary id l op token r), room, m⟩ ⟨.expr r, room, m⟩
  | left {id l op token r room m v m'} (hr : eval fuel room r m = .ok v m') :
    Starts fuel ⟨.expr (.binary id l op token r), room, m⟩ ⟨.expr l, room, m'⟩
  | first {id l op token r room m} :
    Starts fuel ⟨.expr (.logical id l op token r), room, m⟩ ⟨.expr l, room, m⟩
  | second {id l op token r room m b m'} (hl : eval fuel room l m = .ok (.bool b) m')
    (hb : op.settledBy b = false) :
    Starts fuel ⟨.expr (.logical id l op token r), room, m⟩ ⟨.expr r, room, m'⟩
  | assigned {id name e room m} :
    Starts fuel ⟨.expr (.assign id name e), room, m⟩ ⟨.expr e, room, m⟩
  | callee {id e paren es room m} :
    Starts fuel ⟨.expr (.call id e paren es), room, m⟩ ⟨.expr e, room, m⟩
  | arguments {id e paren es room m v m'} (he : eval fuel room e m = .ok v m') :
    Starts fuel ⟨.expr (.call id e paren es), room, m⟩ ⟨.exprs es, room, m'⟩
  | call {id e paren es room inner m c m₁ vs m₂} (he : eval fuel room e m = .ok (.closure c) m₁)
    (hes : evalAll fuel room es m₁ = .ok vs m₂) (ha : vs.length = c.fn.arity)
    (hr : callRoom? room = some inner) :
    Starts fuel ⟨.expr (.call id e paren es), room, m⟩
      ⟨.body c.fn, inner, m₂.enter c.scope vs.toArray⟩
  | head {e es room m} : Starts fuel ⟨.exprs (e :: es), room, m⟩ ⟨.expr e, room, m⟩
  | tail {e es room m v m'} (he : eval fuel room e m = .ok v m') :
    Starts fuel ⟨.exprs (e :: es), room, m⟩ ⟨.exprs es, room, m'⟩
  | expression {e room m} : Starts fuel ⟨.stmt (.expression e), room, m⟩ ⟨.expr e, room, m⟩
  | print {e room m} : Starts fuel ⟨.stmt (.print e), room, m⟩ ⟨.expr e, room, m⟩
  | initial {name e room m} : Starts fuel ⟨.stmt (.var name (some e)), room, m⟩ ⟨.expr e, room, m⟩
  | block {ss room m} :
    Starts fuel ⟨.stmt (.block ss), room, m⟩ ⟨.stmts ss, room, m.enter m.frame #[]⟩
  | condition {keyword e yes no room m} :
    Starts fuel ⟨.stmt (.branch keyword e yes no), room, m⟩ ⟨.expr e, room, m⟩
  | yes {keyword e yes no room m m'} (he : eval fuel room e m = .ok (.bool true) m') :
    Starts fuel ⟨.stmt (.branch keyword e yes no), room, m⟩ ⟨.stmt yes, room, m'⟩
  | no {keyword e yes no room m m'} (he : eval fuel room e m = .ok (.bool false) m') :
    Starts fuel ⟨.stmt (.branch keyword e yes (some no)), room, m⟩ ⟨.stmt no, room, m'⟩
  | test {keyword e body room m} :
    Starts fuel ⟨.stmt (.loop keyword e body), room, m⟩ ⟨.expr e, room, m⟩
  | turn {keyword e body room m m'} (he : eval fuel room e m = .ok (.bool true) m') :
    Starts fuel ⟨.stmt (.loop keyword e body), room, m⟩ ⟨.stmt body, room, m'⟩
  | again {keyword e body room m m₁ m₂} (he : eval fuel room e m = .ok (.bool true) m₁)
    (hb : exec fuel room body m₁ = .ok .normal m₂) :
    Starts fuel ⟨.stmt (.loop keyword e body), room, m⟩
      ⟨.stmt (.loop keyword e body), room, m₂⟩
  | value {keyword e room m} :
    Starts fuel ⟨.stmt (.giveBack keyword (some e)), room, m⟩ ⟨.expr e, room, m⟩
  | statement {s ss room m} : Starts fuel ⟨.stmts (s :: ss), room, m⟩ ⟨.stmt s, room, m⟩
  | next {s ss room m m'} (hs : exec fuel room s m = .ok .normal m') :
    Starts fuel ⟨.stmts (s :: ss), room, m⟩ ⟨.stmts ss, room, m'⟩
  | statements {fn room m} : Starts fuel ⟨.body fn, room, m⟩ ⟨.stmts fn.body, room, m⟩

/-- What a task comes to within itself, in any number of steps. -/
abbrev Reaches : Config → Config → Prop :=
  Relation.ReflTransGen fun c d => ∃ fuel, Starts fuel c d

/-- A machine with the programs that were given to it: the statements whose addresses are filed, and
the executions so far. -/
structure World where
  machine : Machine
  nextId : NodeId
  loaded : List Stmt
  runs : List Config

namespace World

/-- Files the addresses of a parsed program. -/
def file (w : World) (parsed : Parse) : World :=
  { w with
    machine := { w.machine with
      resolution := w.machine.resolution.recordAll (resolve parsed.program).located }
    nextId := parsed.nextId }

/-- Files the addresses of a parsed program and takes in its statements. -/
def load (w : World) (parsed : Parse) : World :=
  { w.file parsed with loaded := w.loaded ++ parsed.program }

/-- Notes an execution and what it left. -/
def ran (w : World) (c : Config) (machine : Machine) : World :=
  { w with machine, runs := w.runs ++ [c] }

end World

/-- The worlds that come about when programs are parsed without error, one after the other, and when
statements of those that are admitted are executed, however they end, as often and in whatever
order. Of a program that is turned down the addresses stay filed. What was printed may be taken
away, or something else printed. -/
inductive Reachable (clock : Nat → Float) (room : Option Nat) (admitted : List Stmt → Prop) :
    World → Prop
  | start : Reachable clock room admitted ⟨.start clock, 0, [], []⟩
  | load {w : World} {tokens : List Token} {finish : Token} {firstId : NodeId}
    (hw : Reachable clock room admitted w) (hid : w.nextId ≤ firstId)
    (hp : (parse tokens finish firstId).errors = [])
    (ha : admitted (parse tokens finish firstId).program) :
    Reachable clock room admitted (w.load (parse tokens finish firstId))
  | file {w : World} {tokens : List Token} {finish : Token} {firstId : NodeId}
    (hw : Reachable clock room admitted w) (hid : w.nextId ≤ firstId)
    (hp : (parse tokens finish firstId).errors = []) :
    Reachable clock room admitted (w.file (parse tokens finish firstId))
  | execute {w : World} {s : Stmt} {fuel : Nat} {c : Completion} {m : Machine}
    (hw : Reachable clock room admitted w) (hs : s ∈ w.loaded)
    (hr : exec fuel room s w.machine = .ok c m) :
    Reachable clock room admitted (w.ran ⟨.stmt s, room, w.machine⟩ m)
  | stop {w : World} {s : Stmt} {fuel : Nat} {halt : Halt} {m : Machine}
    (hw : Reachable clock room admitted w) (hs : s ∈ w.loaded)
    (hr : exec fuel room s w.machine = .error halt m) (hh : halt ≠ .outOfFuel) :
    Reachable clock room admitted (w.ran ⟨.stmt s, room, w.machine⟩ m)
  | print {w : World} {out : String} (hw : Reachable clock room admitted w) :
    Reachable clock room admitted { w with machine := { w.machine with out } }

end Lox
