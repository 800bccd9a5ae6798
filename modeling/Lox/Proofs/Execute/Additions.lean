import Lox.Proofs.Execute.Growth
import Lox.Proofs.Execute.Parts
import Lox.Proofs.Execute.Steps
import Lox.Proofs.Parse.Making

/-! What a run adds to the frames and the globals that were there before it: one variable if it is a
declaration that completes, and nothing otherwise. This is so of every machine and on every way out,
also if the run is not followed to its end. -/
namespace Lox

open Run

variable {m t u : Machine} {own : Bool} {fuel : Nat}

/-- Of the frames and the globals that were there, none has another variable. If `own`, the scope in
which the run began may have. -/
structure Machine.Spares (own : Bool) (m t : Machine) : Prop where
  keeps : m.Keeps t
  slots : ∀ i < m.store.frames.size, (own = true → m.frame ≠ some i) →
    t.store.slots i = m.store.slots i
  names : (own = true → m.frame ≠ none) → t.globals.names = m.globals.names

namespace Machine.Spares

theorem refl (m : Machine) : m.Spares own m := ⟨.refl m, fun _ _ _ => rfl, fun _ => rfl⟩

theorem trans (h : m.Spares own t) (h' : t.Spares own u) : m.Spares own u := by
  have hframe := h.keeps.frame
  refine ⟨h.keeps.trans h'.keeps, ?_, ?_⟩
  · intro i hi hown
    have hit : i < t.store.frames.size := by
      obtain ⟨g, hg, -⟩ := h.keeps.grows i _ (Array.getElem?_eq_getElem hi)
      exact (Array.getElem?_eq_some_iff.mp hg).1
    have hown' : own = true → t.frame ≠ some i := by simpa [hframe] using hown
    exact (h'.slots i hit hown').trans (h.slots i hi hown)
  · intro hown
    have hown' : own = true → t.frame ≠ none := by simpa [hframe] using hown
    exact (h'.names hown').trans (h.names hown)

theorem widen (h : m.Spares false t) : m.Spares own t :=
  ⟨h.keeps, fun i hi _ => h.slots i hi nofun, fun _ => h.names nofun⟩

/-- A new frame may have got any variables: it was not there before. -/
theorem leave {enclosing : Option FrameId} {values : Array Value}
    (h : (m.enter enclosing values).Spares true t) :
    m.Spares false { t with frame := m.frame } := by
  refine ⟨h.keeps.leave, ?_, fun _ => h.names (by simp [Machine.enter])⟩
  intro i hi _
  have hne : m.store.frames.size ≠ i := by omega
  have hnew : i < (m.enter enclosing values).store.frames.size := by
    simp only [Machine.enter, Store.size_newFrame]
    omega
  have hslots := h.slots i hnew (by simpa [Machine.enter, Store.newFrame] using hne)
  simpa [Machine.enter, Store.newFrame, Store.slots, Array.getElem?_push_lt hi, hi] using hslots

end Machine.Spares

section Spared

variable {α β : Type} {x : Run α} {f : α → Run β}

/-- On every way out of a run, what was there before is spared. -/
def Spared (own : Bool) (x : Run α) (m : Machine) : Prop :=
  Ends x m (fun _ t => m.Spares own t) fun _ t => m.Spares own t

theorem spared_pure (a : α) : Spared own (pure a) m := .refl m

theorem Spared.widen (h : Spared false x m) : Spared own x m :=
  Ends.mono h (fun _ _ ht => ht.widen) fun _ _ ht => ht.widen

theorem Spared.bind (hx : Spared own x m) (hf : ∀ a t, Spared own (f a) t) :
    Spared own (x >>= f) m := by
  apply Ends.bind hx
  intro a t ht
  exact Ends.mono (hf a t) (fun _ _ hu => ht.trans hu) fun _ _ hu => ht.trans hu

theorem spared_lift (token : Token) (result : Except RuntimeFault Value) :
    Spared own (lift token result) m :=
  ends_lift (fun _ _ => .refl m) fun _ => .refl m

/-- A test of a condition changes nothing. -/
theorem Spared.bind_truth {f : Bool → Run β} (value : Value) (fault : RuntimeFault) (token : Token)
    (hf : ∀ b, Spared own (f b) m) : Spared own (truth value fault token >>= f) m :=
  ends_bind_truth (fun b _ => hf b) (.refl m)

/-- A step that makes no variable, in no frame and among no globals. -/
theorem spared_step {a : α} (hrun : x m = .ok a t) (hkeeps : m.Keeps t)
    (hslots : ∀ i, t.store.slots i = m.store.slots i)
    (hnames : t.globals.names = m.globals.names) : Spared own x m := by
  simp only [Spared, Ends, hrun]
  exact ⟨hkeeps, fun i _ _ => hslots i, fun _ => hnames⟩

/-- An assignment finds the name it gives another value among the globals. -/
theorem spared_writeVariable (id : NodeId) (name : Token) (v : Value) :
    Spared own (writeVariable id name v) m := by
  refine ends_writeVariable ?_ ?_ (.refl m) fun _ _ _ => .refl m
  · intro _ hname
    refine ⟨⟨rfl, rfl, .refl _⟩, fun _ _ _ => rfl, fun _ => ?_⟩
    simp [NameTable.names_put, hname]
  · intro a f target _ _ _
    exact ⟨⟨rfl, rfl, Store.grows_set _ _ _⟩, fun i _ _ => Store.slots_set _ _ _ i, fun _ => rfl⟩

theorem spared_define (name : Token) (v : Value) : Spared true (define name v) m := by
  refine ends_define ?_ ?_
  · intro hnone
    exact ⟨⟨rfl, rfl, .refl _⟩, fun _ _ _ => rfl, fun hown => (hown rfl hnone).elim⟩
  · intro f hf
    refine ⟨⟨rfl, rfl, Store.grows_define f v⟩, fun i _ hown => ?_, fun _ => rfl⟩
    have hne : f ≠ i := fun he => hown rfl (he ▸ hf)
    simp [Store.slots, Store.getElem?_define, hne]

/-- What is done within a new frame spares the frames that were there. -/
theorem spared_within {enclosing : Option FrameId} {values : Array Value}
    (h : Spared true x (m.enter enclosing values)) :
    Spared own (do let frame ← newFrame enclosing values; within frame x) m :=
  ends_within (Ends.mono h (fun _ _ ht => ht.leave.widen) fun _ _ ht => ht.leave.widen)

/-- A call declares its parameters and variables in a frame of its own. -/
theorem spared_apply (callee : Value) (paren : Token) (arguments : List Value) (room : Option Nat)
    {body : Option Nat → List Stmt → Run Completion}
    (hbody : ∀ inner ss t, Spared true (body inner ss) t) :
    Spared own (apply callee paren arguments room body) m := by
  refine ends_apply (fun _ => .refl m) (fun _ => .refl m) ?_ ?_
  · exact ⟨⟨rfl, rfl, .refl _⟩, fun _ _ _ => rfl, fun _ => rfl⟩
  · intro c inner _ _ _
    exact Ends.mono (hbody inner c.fn.body _) (fun _ _ ht => ht.leave.widen)
      fun _ _ ht => ht.leave.widen

end Spared

/-- What evaluations and executions spare that have no more than `fuel`. Only a declaration, which
stands in no branch and is the body of no loop, makes a variable in the scope it begins in. -/
structure Sparing (fuel : Nat) : Prop where
  eval : ∀ room e m, Spared false (eval fuel room e) m
  evalAll : ∀ room es m, Spared false (evalAll fuel room es) m
  exec : ∀ own room s m, (own = false → s.declares = false ∧ s.Tidy) →
    Spared own (exec fuel room s) m
  execAll : ∀ room ss m, Spared true (execAll fuel room ss) m

section Sparing

variable {room : Option Nat}

theorem sparing_eval (h : Sparing fuel) (e : Expr) : Spared false (eval (fuel + 1) room e) m := by
  cases e with
  | literal id value => exact spared_pure _
  | group id inner => exact h.eval room inner m
  | unary id op token operand => exact (h.eval room operand m).bind fun v t => spared_lift token _
  | binary id left op token right =>
    apply (h.eval room right m).bind
    intro v t
    exact (h.eval room left t).bind fun w u => spared_lift token _
  | logical id left op token right =>
    apply (h.eval room left m).bind
    intro v t
    apply Spared.bind_truth
    intro b
    cases hb : op.settledBy b with
    | true => exact spared_pure v
    | false => exact h.eval room right t
  | reference id name =>
    exact ends_readVariable (fun _ _ _ => .refl m) (fun _ _ _ _ _ _ => .refl m) (.refl m)
      fun _ _ _ => .refl m
  | assign id name value =>
    apply (h.eval room value m).bind
    intro v t
    exact (spared_writeVariable id name v).bind fun _ u => spared_pure v
  | call id callee paren arguments =>
    apply (h.eval room callee m).bind
    intro v t
    apply (h.evalAll room arguments t).bind
    intro vs u
    exact spared_apply v paren vs room h.execAll
  | lambda fn => exact spared_step rfl ⟨rfl, rfl, .refl _⟩ (fun _ => rfl) rfl

theorem sparing_evalAll (h : Sparing fuel) (es : List Expr) :
    Spared false (evalAll (fuel + 1) room es) m := by
  cases es with
  | nil => exact spared_pure _
  | cons e es =>
    apply (h.eval room e m).bind
    intro v t
    exact (h.evalAll room es t).bind fun vs u => spared_pure _

theorem own_of_declares {s : Stmt} (hs : own = false → s.declares = false ∧ s.Tidy)
    (h : s.declares = true) : own = true := by
  cases own with
  | true => rfl
  | false => exact absurd h (by simp [(hs rfl).1])

/-- Only a statement that declares something widens the innermost frame. -/
theorem sparing_exec (h : Sparing fuel) (s : Stmt)
    (hs : own = false → s.declares = false ∧ s.Tidy) :
    Spared own (exec (fuel + 1) room s) m := by
  cases s with
  | expression value => exact (h.eval room value m).widen.bind fun _ t => spared_pure _
  | print value =>
    apply (h.eval room value m).widen.bind
    intro v t
    have hprint : Spared own (Run.print v.text) t :=
      spared_step rfl ⟨rfl, rfl, .refl _⟩ (fun _ => rfl) rfl
    exact hprint.bind fun _ u => spared_pure _
  | var name initial =>
    obtain rfl := own_of_declares hs rfl
    cases initial with
    | none => exact (spared_define name .nil).bind fun _ t => spared_pure _
    | some initial =>
      apply (h.eval room initial m).widen.bind
      intro v t
      exact (spared_define name v).bind fun _ u => spared_pure _
  | block body => exact spared_within (h.execAll room body _)
  | branch keyword condition yes no =>
    apply (h.eval room condition m).widen.bind
    intro v t
    apply Spared.bind_truth
    intro b
    cases b with
    | true => exact h.exec own room yes t fun hown => (hs hown).2.2.1
    | false =>
      cases no with
      | none => exact spared_pure _
      | some no => exact h.exec own room no t fun hown => (hs hown).2.2.2
  | loop keyword condition body =>
    apply (h.eval room condition m).widen.bind
    intro v t
    apply Spared.bind_truth
    intro b
    cases b with
    | false => exact spared_pure _
    | true =>
      apply (h.exec own room body t fun hown => (hs hown).2.2).bind
      intro c u
      cases c with
      | normal => exact h.exec own room (.loop keyword condition body) u hs
      | _ => exact spared_pure _
  | breakLoop keyword => exact spared_pure _
  | function name fn =>
    obtain rfl := own_of_declares hs rfl
    have hmade : Spared true (makeClosure (some name.lexeme) fn) m :=
      spared_step rfl ⟨rfl, rfl, .refl _⟩ (fun _ => rfl) rfl
    apply hmade.bind
    intro v t
    exact (spared_define name v).bind fun _ u => spared_pure _
  | giveBack keyword value =>
    cases value with
    | none => exact spared_pure _
    | some value => exact (h.eval room value m).widen.bind fun v t => spared_pure _

theorem sparing_execAll (h : Sparing fuel) (ss : List Stmt) :
    Spared true (execAll (fuel + 1) room ss) m := by
  cases ss with
  | nil => exact spared_pure _
  | cons s ss =>
    apply (h.exec true room s m nofun).bind
    intro c t
    cases c with
    | normal => exact h.execAll room ss t
    | _ => exact spared_pure _

theorem sparing (fuel : Nat) : Sparing fuel := by
  induction fuel with
  | zero => constructor <;> intros <;> exact Machine.Spares.refl _
  | succ fuel ih =>
    exact ⟨fun _ e _ => sparing_eval ih e, fun _ es _ => sparing_evalAll ih es,
      fun _ _ s _ hs => sparing_exec ih s hs, fun _ ss _ => sparing_execAll ih ss⟩

end Sparing

/-- The name that a declaration declares; other statements declare none. -/
def Stmt.declared? : Stmt → Option String
  | .var name _ | .function name _ => some name.lexeme
  | _ => none

/-- What a run that declares a name in the scope it begins in, or none, adds to what was there: the
name to the globals or a variable to the frame of the scope. -/
structure Machine.Adds (declared : Option String) (m t : Machine) : Prop where
  frame : t.frame = m.frame
  frames : ∀ i f, m.store.frames[i]? = some f → ∃ g, t.store.frames[i]? = some g ∧
    g.enclosing = f.enclosing ∧
    g.values.size = f.values.size + if declared.isSome ∧ m.frame = some i then 1 else 0
  globals : ∀ x, x ∈ t.globals.names ↔
    x ∈ m.globals.names ∨ m.frame = none ∧ declared = some x

theorem Machine.Spares.adds (h : m.Spares false t) : m.Adds none t := by
  refine ⟨h.keeps.frame, fun i f hf => ?_, fun x => by simp [h.names nofun]⟩
  obtain ⟨hi, -⟩ := Array.getElem?_eq_some_iff.mp hf
  obtain ⟨g, hg, hlink, -⟩ := h.keeps.grows i f hf
  have hslots := h.slots i hi nofun
  exact ⟨g, hg, hlink, by simpa [Store.slots, hf, hg] using hslots⟩

/-- A name is declared after a run that has spared what was there. -/
theorem ends_declaration {α : Type} {x : Run α} (value : α → Value) {name : Token}
    {c : Completion} (hx : Spared false x m) :
    Ends (do let a ← x; define name (value a); return c) m
      (fun _ t => m.Adds (some name.lexeme) t) fun _ t => m.Adds none t := by
  refine Ends.bind (Ends.mono hx (fun _ _ ht => ht) fun _ _ ht => ht.adds) ?_
  intro a t ht
  have hadds := ht.adds
  have hframe := ht.keeps.frame
  have hdefine : Ends (define name (value a)) t (fun _ u => m.Adds (some name.lexeme) u)
      fun _ u => m.Adds none u := by
    apply ends_define
    · intro hnone
      have hm : m.frame = none := hframe ▸ hnone
      refine ⟨hframe, by simpa [hm] using hadds.frames, fun x => ?_⟩
      have hnames := hadds.globals x
      simp only [NameTable.mem_names_put, hnames, hm]
      simp [eq_comm]
    · intro i hi
      have hm : m.frame = some i := hframe ▸ hi
      refine ⟨hframe, fun j f hf => ?_, by simpa [hm] using hadds.globals⟩
      obtain ⟨g, hg, hlink, hsize⟩ := hadds.frames j f hf
      by_cases hij : i = j
      · subst hij
        exact ⟨{ g with values := g.values.push (value a) }, by simp [Store.getElem?_define, hg],
          hlink, by simpa [hm] using hsize⟩
      · exact ⟨g, by simp [Store.getElem?_define, hij, hg], hlink, by simpa [hm, hij] using hsize⟩
  exact hdefine.bind fun _ _ hu => hu

/-- A statement adds the variable it declares to the innermost frame, and no other. -/
theorem adds_exec {s : Stmt} (hs : s.Tidy) (room : Option Nat) :
    Ends (exec fuel room s) m (fun _ t => m.Adds s.declared? t) fun _ t => m.Adds none t := by
  have other (hnone : s.declared? = none) (hd : s.declares = false) :
      Ends (exec fuel room s) m (fun _ t => m.Adds s.declared? t) fun _ t => m.Adds none t := by
    rw [hnone]
    exact Ends.mono ((sparing fuel).exec false room s m fun _ => ⟨hd, hs⟩)
      (fun _ _ ht => ht.adds) fun _ _ ht => ht.adds
  cases fuel with
  | zero => exact (Machine.Spares.refl m).adds
  | succ fuel =>
    cases s with
    | var name initial =>
      cases initial with
      | none => exact ends_declaration (fun _ => .nil) (spared_pure ())
      | some initial => exact ends_declaration id ((sparing fuel).eval room initial m)
    | function name fn =>
      have hmade : Spared false (makeClosure (some name.lexeme) fn) m :=
        spared_step rfl ⟨rfl, rfl, .refl _⟩ (fun _ => rfl) rfl
      exact ends_declaration id hmade
    | _ => exact other rfl rfl

/-- Any expression and every statement of a parsed program, run on whatever machine and however the
run ends: the innermost frame is the one it was, every frame is linked as it was, and there is not
one variable more in it, and no other global, unless the statement is a declaration that is
complete. That adds one variable to the innermost frame, or its name to the globals if there is no
frame. -/
theorem runs_add_declared (tokens : List Token) (finish : Token) (firstId : NodeId) (fuel : Nat)
    (room : Option Nat) (m : Machine) :
    (∀ e, Ends (eval fuel room e) m (fun _ t => m.Adds none t) fun _ t => m.Adds none t) ∧
    ∀ s, (Task.stmts (parse tokens finish firstId).program).Has (.stmt s) →
      Ends (exec fuel room s) m (fun _ t => m.Adds s.declared? t) fun _ t => m.Adds none t := by
  constructor
  · intro e
    exact Ends.mono ((sparing fuel).eval room e m) (fun _ _ ht => ht.adds) fun _ _ ht => ht.adds
  · intro s hs
    obtain ⟨-, -, htidy⟩ := parse_neat tokens finish firstId
    exact adds_exec (Task.Has.tidy hs htidy) room

/-- The tokens of a block that declares a variable. -/
def blockOfOne : List Token :=
  [⟨.leftBrace, "\x7b", .nil, 1⟩, ⟨.kwVar, "var", .nil, 1⟩, ⟨.identifier, "a", .nil, 1⟩,
    ⟨.semicolon, ";", .nil, 1⟩, ⟨.rightBrace, "\x7d", .nil, 1⟩]

theorem runs_add_declared_blockOfOne :
    let s := Stmt.var ⟨.identifier, "a", .nil, 1⟩ none
    let m := (Machine.start fun _ => 0).enter none #[]
    (Task.stmts (parse blockOfOne (.endOfInput 1) 0).program).Has (.stmt s) ∧
      ∃ t, exec 1 none s m = .ok .normal t ∧ m.Adds (some "a") t := by
  have hs : (Task.stmts (parse blockOfOne (.endOfInput 1) 0).program).Has
      (.stmt (.var ⟨.identifier, "a", .nil, 1⟩ none)) :=
    .tail (.tail (.single .statement) .block) .statement
  have h := (runs_add_declared blockOfOne (.endOfInput 1) 0 1 none
    ((Machine.start fun _ => 0).enter none #[])).2 _ hs
  exact ⟨hs, _, rfl, h⟩

end Lox
