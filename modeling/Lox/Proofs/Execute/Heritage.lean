import Lox.Proofs.Execute.Contents
import Lox.Proofs.Execute.Parts
import Lox.Proofs.Execute.Steps

/-! What the parts of a task have in common with it, a run never gets away from: all it does are
parts of what it was given and of the functions it found, and so is the place where it fails. -/
namespace Lox

open Run

/-- The tokens that errors of a task itself are blamed on, those of its parts left out. -/
inductive Task.Blames : Task → Token → Prop
  | unary {id op token e} : Blames (.expr (.unary id op token e)) token
  | binary {id l op token r} : Blames (.expr (.binary id l op token r)) token
  | logical {id l op token r} : Blames (.expr (.logical id l op token r)) token
  | reference {id name} : Blames (.expr (.reference id name)) name
  | assign {id name e} : Blames (.expr (.assign id name e)) name
  | call {id e paren es} : Blames (.expr (.call id e paren es)) paren
  | branch {keyword e yes no} : Blames (.stmt (.branch keyword e yes no)) keyword
  | loop {keyword e body} : Blames (.stmt (.loop keyword e body)) keyword

/-- A property that a task shares with its parts. -/
def Task.Heritable (Q : Task → Prop) : Prop := ∀ k k', Q k → k.Contains k' → Q k'

section Heritage

variable {Q : Task → Prop}

/-- A value that is no function, or one whose body has the property. -/
def Value.From (Q : Task → Prop) (v : Value) : Prop := ∀ c, v = .closure c → Q (.body c.fn)

def Completion.From (Q : Task → Prop) (c : Completion) : Prop := ∀ v, c = .returned v → v.From Q

/-- A stop that is no error, or one that is blamed on a task with the property. -/
def Halt.From (Q : Task → Prop) (halt : Halt) : Prop :=
  ∀ e, halt = .error e → ∃ k, Q k ∧ k.Blames e.token

theorem Value.From.of_ne {v : Value} (h : ∀ c, v ≠ .closure c) : v.From Q :=
  fun c hc => (h c hc).elim

theorem Halt.From.error {k : Task} {fault : RuntimeFault} {token : Token} (hk : Q k)
    (hb : k.Blames token) : (Halt.error ⟨fault, token⟩).From Q := by
  rintro _ ⟨⟩
  exact ⟨k, hk, hb⟩

theorem Halt.From.of_ne {halt : Halt} (h : ∀ e, halt ≠ .error e) : halt.From Q :=
  fun e he => (h e he).elim

variable {α β : Type} {x : Run α} {f : α → Run β} {m : Machine} {p : α → Prop} {q : β → Prop}

/-- On every way out all functions of the machine have the property, and an error is blamed on what
has it. -/
def Stays (Q : Task → Prop) (x : Run α) (m : Machine) (p : α → Prop) : Prop :=
  Ends x m (fun a t => t.Holds (Value.From Q) ∧ p a) fun halt t =>
    t.Holds (Value.From Q) ∧ halt.From Q

/-- What is inherited by both parts of a run is by the whole. -/
theorem Stays.bind (hx : Stays Q x m p)
    (hf : ∀ a t, t.Holds (Value.From Q) → p a → Stays Q (f a) t q) : Stays Q (x >>= f) m q :=
  Ends.bind hx fun a t ht => hf a t ht.1 ht.2

theorem Stays.ok {a : α} {t : Machine} (h : Stays Q x m p) (hr : x m = .ok a t) :
    t.Holds (Value.From Q) ∧ p a := by
  simp only [Stays, Ends, hr] at h
  exact h

/-- Evaluations and executions that have no more than `fuel` stay with a property. -/
structure Staying (Q : Task → Prop) (fuel : Nat) : Prop where
  eval : ∀ room e m, Q (.expr e) → m.Holds (Value.From Q) →
    Stays Q (eval fuel room e) m (Value.From Q)
  evalAll : ∀ room es m, Q (.exprs es) → m.Holds (Value.From Q) →
    Stays Q (evalAll fuel room es) m fun vs => ∀ v ∈ vs, v.From Q
  exec : ∀ room s m, Q (.stmt s) → m.Holds (Value.From Q) →
    Stays Q (exec fuel room s) m (Completion.From Q)
  execAll : ∀ room ss m, Q (.stmts ss) → m.Holds (Value.From Q) →
    Stays Q (execAll fuel room ss) m (Completion.From Q)

variable {fuel : Nat} {room : Option Nat}

/-- An evaluation keeps what the task hands down, with more fuel if it does with less. -/
theorem stays_eval (hQ : Task.Heritable Q) (h : Staying Q fuel) {e : Expr} (hk : Q (.expr e))
    (hm : m.Holds (Value.From Q)) : Stays Q (eval (fuel + 1) room e) m (Value.From Q) := by
  have part {k} (hc : Task.Contains (.expr e) k) : Q k := hQ _ _ hk hc
  cases e with
  | literal id value => exact ⟨hm, .of_ne (by cases value <;> simp [Literal.value])⟩
  | group id inner => exact h.eval _ _ _ (part .inner) hm
  | unary id op token operand =>
    refine (h.eval _ _ _ (part .operand) hm).bind fun v t ht _ => ?_
    exact ends_lift (fun w hw => ⟨ht, .of_ne (UnaryOp.apply_ne hw)⟩)
      fun _ => ⟨ht, .error hk .unary⟩
  | binary id left op token right =>
    refine (h.eval _ _ _ (part .right) hm).bind fun v t ht _ => ?_
    refine (h.eval _ _ _ (part .left) ht).bind fun w u hu _ => ?_
    exact ends_lift (fun w hw => ⟨hu, .of_ne (BinaryOp.apply_ne hw)⟩)
      fun _ => ⟨hu, .error hk .binary⟩
  | logical id left op token right =>
    refine (h.eval _ _ _ (part .first) hm).bind fun v t ht hv => ?_
    apply ends_bind_truth _ ⟨ht, .error hk .logical⟩
    rintro b rfl
    cases hb : op.settledBy b with
    | true => exact ⟨ht, hv⟩
    | false => exact h.eval _ _ _ (part .second) ht
  | reference id name =>
    apply ends_readVariable
    · exact fun v _ hv => ⟨hm, hm.global hv⟩
    · exact fun a f v _ _ hv => ⟨hm, hm.read hv⟩
    · exact ⟨hm, .error hk .reference⟩
    · exact fun _ _ _ => ⟨hm, .of_ne (by simp)⟩
  | assign id name value =>
    refine (h.eval _ _ _ (part .assigned) hm).bind fun v t ht hv => ?_
    have hwrite : Stays Q (writeVariable id name v) t fun _ => True := by
      apply ends_writeVariable
      · exact fun _ _ => ⟨ht.putGlobal _ hv, trivial⟩
      · exact fun a f target _ _ _ => ⟨ht.set _ _ hv, trivial⟩
      · exact ⟨ht, .error hk .assign⟩
      · exact fun _ _ _ => ⟨ht, .of_ne (by simp)⟩
    exact hwrite.bind fun _ u hu _ => ⟨hu, hv⟩
  | call id callee paren arguments =>
    refine (h.eval _ _ _ (part .callee) hm).bind fun v t ht hv => ?_
    refine (h.evalAll _ _ _ (part .arguments) ht).bind fun vs u hu hvs => ?_
    apply ends_apply
    · exact fun _ => ⟨hu, .error hk .call⟩
    · exact fun _ => ⟨hu, .of_ne (by simp)⟩
    · exact ⟨⟨hu.locals, hu.globals⟩, nofun⟩
    · rintro c inner rfl ha hr
      have hbody := h.execAll inner _ (u.enter c.scope vs.toArray)
        (hQ _ _ (hv c rfl) .statements) (hu.enter _ fun v hv => hvs v (by simpa using hv))
      refine Ends.mono hbody ?_ fun _ w hw => ⟨⟨hw.1.locals, hw.1.globals⟩, hw.2⟩
      rintro completion w ⟨hw, hcompletion⟩
      refine ⟨⟨hw.locals, hw.globals⟩, ?_⟩
      cases completion with
      | returned v => exact hcompletion v rfl
      | _ => exact nofun
  | lambda fn =>
    refine ⟨⟨hm.locals, hm.globals⟩, ?_⟩
    rintro _ ⟨⟩
    exact part .lambda

theorem stays_evalAll (hQ : Task.Heritable Q) (h : Staying Q fuel) {es : List Expr}
    (hk : Q (.exprs es)) (hm : m.Holds (Value.From Q)) :
    Stays Q (evalAll (fuel + 1) room es) m fun vs => ∀ v ∈ vs, v.From Q := by
  cases es with
  | nil => exact ⟨hm, by simp⟩
  | cons e es =>
    refine (h.eval _ _ _ (hQ _ _ hk .head) hm).bind fun v t ht hv => ?_
    refine (h.evalAll _ _ _ (hQ _ _ hk .tail) ht).bind fun vs u hu hvs => ?_
    exact ⟨hu, by simpa using ⟨hv, hvs⟩⟩

theorem stays_define (hm : m.Holds (Value.From Q)) {name : Token} {v : Value} (hv : v.From Q) :
    Stays Q (define name v) m fun _ => True :=
  ends_define (fun _ => ⟨hm.putGlobal _ hv, trivial⟩) fun _ _ => ⟨hm.define _ hv, trivial⟩

/-- An execution keeps it too, also in what it returns. -/
theorem stays_exec (hQ : Task.Heritable Q) (h : Staying Q fuel) {s : Stmt} (hk : Q (.stmt s))
    (hm : m.Holds (Value.From Q)) : Stays Q (exec (fuel + 1) room s) m (Completion.From Q) := by
  have part {k} (hc : Task.Contains (.stmt s) k) : Q k := hQ _ _ hk hc
  cases s with
  | expression value => exact (h.eval _ _ _ (part .expression) hm).bind fun v t ht _ => ⟨ht, nofun⟩
  | print value =>
    refine (h.eval _ _ _ (part .print) hm).bind fun v t ht _ => ?_
    exact ⟨⟨ht.locals, ht.globals⟩, nofun⟩
  | var name initial =>
    cases initial with
    | none => exact (stays_define hm (.of_ne (by simp))).bind fun _ t ht _ => ⟨ht, nofun⟩
    | some initial =>
      refine (h.eval _ _ _ (part .initial) hm).bind fun v t ht hv => ?_
      exact (stays_define ht hv).bind fun _ u hu _ => ⟨hu, nofun⟩
  | block body =>
    have hbody := h.execAll room body (m.enter m.frame #[]) (part .block) (hm.enter _ (by simp))
    refine ends_within (Ends.mono hbody ?_ ?_)
    · exact fun c t ht => ⟨⟨ht.1.locals, ht.1.globals⟩, ht.2⟩
    · exact fun _ t ht => ⟨⟨ht.1.locals, ht.1.globals⟩, ht.2⟩
  | branch keyword condition yes no =>
    refine (h.eval _ _ _ (part .condition) hm).bind fun v t ht _ => ?_
    apply ends_bind_truth _ ⟨ht, .error hk .branch⟩
    rintro b rfl
    cases b with
    | true => exact h.exec _ _ _ (part .yes) ht
    | false =>
      cases no with
      | none => exact ⟨ht, nofun⟩
      | some no => exact h.exec _ _ _ (part .no) ht
  | loop keyword condition body =>
    refine (h.eval _ _ _ (part .test) hm).bind fun v t ht _ => ?_
    apply ends_bind_truth _ ⟨ht, .error hk .loop⟩
    rintro b rfl
    cases b with
    | false => exact ⟨ht, nofun⟩
    | true =>
      refine (h.exec _ _ _ (part .turn) ht).bind fun c w hw hc => ?_
      cases c with
      | normal => exact h.exec _ _ _ hk hw
      | broke => exact ⟨hw, nofun⟩
      | returned v => exact ⟨hw, hc⟩
  | breakLoop keyword => exact ⟨hm, nofun⟩
  | function name fn =>
    have hmade : Stays Q (makeClosure (some name.lexeme) fn) m (Value.From Q) := by
      refine ⟨⟨hm.locals, hm.globals⟩, ?_⟩
      rintro _ ⟨⟩
      exact part .function
    refine hmade.bind fun v t ht hv => ?_
    exact (stays_define ht hv).bind fun _ u hu _ => ⟨hu, nofun⟩
  | giveBack keyword value =>
    cases value with
    | none =>
      refine ⟨hm, ?_⟩
      rintro _ ⟨⟩
      exact .of_ne (by simp)
    | some value =>
      refine (h.eval _ _ _ (part .value) hm).bind fun v t ht hv => ⟨ht, ?_⟩
      rintro _ ⟨⟩
      exact hv

theorem stays_execAll (hQ : Task.Heritable Q) (h : Staying Q fuel) {ss : List Stmt}
    (hk : Q (.stmts ss)) (hm : m.Holds (Value.From Q)) :
    Stays Q (execAll (fuel + 1) room ss) m (Completion.From Q) := by
  cases ss with
  | nil => exact ⟨hm, nofun⟩
  | cons s ss =>
    refine (h.exec _ _ _ (hQ _ _ hk .statement) hm).bind fun c t ht hc => ?_
    cases c with
    | normal => exact h.execAll _ _ _ (hQ _ _ hk .next) ht
    | _ => exact ⟨ht, hc⟩

theorem staying (hQ : Task.Heritable Q) (fuel : Nat) : Staying Q fuel := by
  induction fuel with
  | zero => constructor <;> intro _ _ _ _ hm <;> exact ⟨hm, .of_ne (by simp)⟩
  | succ fuel ih =>
    exact ⟨fun _ _ _ => stays_eval hQ ih, fun _ _ _ => stays_evalAll hQ ih,
      fun _ _ _ => stays_exec hQ ih, fun _ _ _ => stays_execAll hQ ih⟩

/-- What a task starts has the property, where it is started. -/
theorem Starts.stays (hQ : Task.Heritable Q) {c d : Config} (hs : Starts fuel c d)
    (hk : Q c.task) (hm : c.machine.Holds (Value.From Q)) :
    Q d.task ∧ d.machine.Holds (Value.From Q) := by
  have h := staying hQ fuel
  have part {k} (hc : c.task.Contains k) : Q k := hQ _ _ hk hc
  cases hs with
  | inner => exact ⟨part .inner, hm⟩
  | operand => exact ⟨part .operand, hm⟩
  | right => exact ⟨part .right, hm⟩
  | left hr => exact ⟨part .left, ((h.eval _ _ _ (part .right) hm).ok hr).1⟩
  | first => exact ⟨part .first, hm⟩
  | second hl => exact ⟨part .second, ((h.eval _ _ _ (part .first) hm).ok hl).1⟩
  | assigned => exact ⟨part .assigned, hm⟩
  | callee => exact ⟨part .callee, hm⟩
  | arguments he => exact ⟨part .arguments, ((h.eval _ _ _ (part .callee) hm).ok he).1⟩
  | call he hes _ _ =>
    have ⟨hm₁, hfn⟩ := (h.eval _ _ _ (part .callee) hm).ok he
    have ⟨hm₂, hvs⟩ := (h.evalAll _ _ _ (part .arguments) hm₁).ok hes
    exact ⟨hfn _ rfl, hm₂.enter _ fun v hv => hvs v (by simpa using hv)⟩
  | head => exact ⟨part .head, hm⟩
  | tail he => exact ⟨part .tail, ((h.eval _ _ _ (part .head) hm).ok he).1⟩
  | expression => exact ⟨part .expression, hm⟩
  | print => exact ⟨part .print, hm⟩
  | initial => exact ⟨part .initial, hm⟩
  | block => exact ⟨part .block, hm.enter _ (by simp)⟩
  | condition => exact ⟨part .condition, hm⟩
  | yes he => exact ⟨part .yes, ((h.eval _ _ _ (part .condition) hm).ok he).1⟩
  | no he => exact ⟨part .no, ((h.eval _ _ _ (part .condition) hm).ok he).1⟩
  | test => exact ⟨part .test, hm⟩
  | turn he => exact ⟨part .turn, ((h.eval _ _ _ (part .test) hm).ok he).1⟩
  | again he hb =>
    have hm₁ := ((h.eval _ _ _ (part .test) hm).ok he).1
    exact ⟨hk, ((h.exec _ _ _ (part .turn) hm₁).ok hb).1⟩
  | value => exact ⟨part .value, hm⟩
  | statement => exact ⟨part .statement, hm⟩
  | next hs => exact ⟨part .next, ((h.exec _ _ _ (part .statement) hm).ok hs).1⟩
  | statements => exact ⟨part .statements, hm⟩

/-- What a task hands down to its parts holds of every task reached within it, and of the functions
that the machine has there. -/
theorem Reaches.stays (hQ : Task.Heritable Q) {c d : Config} (h : Reaches c d) (hk : Q c.task)
    (hm : c.machine.Holds (Value.From Q)) : Q d.task ∧ d.machine.Holds (Value.From Q) := by
  induction h with
  | refl => exact ⟨hk, hm⟩
  | tail _ hs ih =>
    obtain ⟨fuel, hs⟩ := hs
    exact hs.stays hQ ih.1 ih.2

/-- A whole program is run with what its statements and the functions there were have in common. -/
theorem stays_interpret (hQ : Task.Heritable Q) (limits : Limits) {program : List Stmt}
    (hp : Q (.stmts program)) (hm : m.Holds (Value.From Q)) :
    Stays Q (interpret limits program) m fun _ => True := by
  induction program generalizing m with
  | nil => exact ⟨hm, trivial⟩
  | cons s ss ih =>
    have hs := (staying hQ limits.fuel).exec limits.calls s m (hQ _ _ hp .statement) hm
    exact hs.bind fun c t ht _ => ih (hQ _ _ hp .next) ht

end Heritage

end Lox
