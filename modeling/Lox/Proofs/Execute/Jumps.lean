import Lox.Proofs.Equality
import Lox.Proofs.Execute.Heritage
import Lox.Proofs.Parse.Making
import Lox.Proofs.Resolve.Walk

/-! A `break` is over at the loop it stands in and a `return` at its call: no program without errors
has a statement that completes early with nothing around it to stop at. -/
namespace Lox

open Run
open Resolve (Context after)

/-- A completion that the surroundings of a statement leave room for. -/
def Completion.AllowedIn (context : Context) : Completion → Prop
  | .normal => True
  | .broke => context.inLoop = true
  | .returned _ => context.inFunction = true

section Allowed

variable {context : Context} {Γ : List LocalScope}

theorem ends_anyhow {α : Type} {x : Run α} {m : Machine} :
    Ends x m (fun _ _ => True) fun _ _ => True := by
  unfold Ends
  split <;> trivial

/-- After an evaluation, whatever it was. -/
theorem Ends.after_any {α β : Type} {x : Run α} {f : α → Run β} {m : Machine} {p : β → Prop}
    (h : ∀ a t, Ends (f a) t (fun b _ => p b) fun _ _ => True) :
    Ends (x >>= f) m (fun b _ => p b) fun _ _ => True :=
  Ends.bind ends_anyhow fun a t _ => h a t

/-- Statements complete as their surroundings allow. -/
structure Allowed (fuel : Nat) : Prop where
  exec : ∀ room s context Γ m, s.Faultless context Γ →
    Ends (exec fuel room s) m (fun c _ => c.AllowedIn context) fun _ _ => True
  execAll : ∀ room ss context Γ m, Stmt.FaultlessAll context Γ ss →
    Ends (execAll fuel room ss) m (fun c _ => c.AllowedIn context) fun _ _ => True

/-- A loop consumes the `break` of its turns and hands on a `return`; every other statement
completes as one of its parts does. -/
theorem allowed_exec {fuel : Nat} (h : Allowed fuel) {room : Option Nat} {s : Stmt} {m : Machine}
    (hs : s.Faultless context Γ) :
    Ends (exec (fuel + 1) room s) m (fun c _ => c.AllowedIn context) fun _ _ => True := by
  cases s with
  | expression value => exact Ends.after_any fun _ _ => trivial
  | print value => exact Ends.after_any fun _ _ => Ends.after_any fun _ _ => trivial
  | var name initial =>
    cases initial with
    | none => exact Ends.after_any fun _ _ => trivial
    | some initial => exact Ends.after_any fun _ _ => Ends.after_any fun _ _ => trivial
  | block body =>
    refine Ends.after_any fun frame t => ?_
    refine ends_within ?_
    exact h.execAll room body context (.empty :: Γ) _ hs
  | branch keyword condition yes no =>
    obtain ⟨-, hyes, hno⟩ := hs
    refine Ends.after_any fun v t => Ends.after_any fun b u => ?_
    cases b with
    | true => exact h.exec room yes context Γ u hyes
    | false =>
      cases no with
      | none => trivial
      | some no => exact h.exec room no context Γ u hno
  | loop keyword condition body =>
    refine Ends.after_any fun v t => Ends.after_any fun b u => ?_
    cases b with
    | false => trivial
    | true =>
      refine Ends.bind (h.exec room body _ Γ u hs.2) ?_
      intro c w hc
      cases c with
      | normal => exact h.exec room _ context Γ w hs
      | broke => trivial
      | returned v => exact hc
  | breakLoop keyword => exact hs
  | function name fn => exact Ends.after_any fun _ _ => Ends.after_any fun _ _ => trivial
  | giveBack keyword value =>
    cases value with
    | none => exact hs.1
    | some value => exact Ends.after_any fun _ _ => hs.1

/-- The first statement that does not complete normally says how all complete. -/
theorem allowed_execAll {fuel : Nat} (h : Allowed fuel) {room : Option Nat} {ss : List Stmt}
    {m : Machine} (hs : Stmt.FaultlessAll context Γ ss) :
    Ends (execAll (fuel + 1) room ss) m (fun c _ => c.AllowedIn context) fun _ _ => True := by
  cases ss with
  | nil => trivial
  | cons s ss =>
    refine Ends.bind (h.exec room s context Γ m hs.1) ?_
    intro c t hc
    cases c with
    | normal => exact h.execAll room ss context _ t hs.2
    | _ => exact hc

theorem allowed (fuel : Nat) : Allowed fuel := by
  induction fuel with
  | zero => constructor <;> intros <;> trivial
  | succ fuel ih =>
    exact ⟨fun _ _ _ _ _ => allowed_exec ih, fun _ _ _ _ _ => allowed_execAll ih⟩

end Allowed

/-- A function in whose text nothing is at fault. -/
def Value.Faultless (v : Value) : Prop := ∀ c, v = .closure c → ∃ Γ, c.fn.Faultless Γ

/-- A task in whose text nothing is at fault. -/
def Task.Faultless (context : Context) (Γ : List LocalScope) : Task → Prop
  | .expr e => e.Faultless Γ
  | .exprs es => Expr.FaultlessAll Γ es
  | .stmt s => s.Faultless context Γ
  | .stmts ss => Stmt.FaultlessAll context Γ ss
  | .body fn => fn.Faultless Γ

/-- Nothing is at fault in a task, wherever it stands, and in the functions of the machine. -/
structure Config.Faultless (c : Config) : Prop where
  task : ∃ context Γ, c.task.Faultless context Γ
  machine : c.machine.Holds Value.Faultless

/-- Nothing is at fault in the text of a task, wherever it stands. -/
def Task.FaultlessSomewhere (k : Task) : Prop := ∃ context Γ, k.Faultless context Γ

theorem Task.heritable_faultlessSomewhere : Task.Heritable Task.FaultlessSomewhere := by
  rintro k k' ⟨context, Γ, hk⟩ hc
  cases hc with
  | inner | operand | assigned | expression | print => exact ⟨context, Γ, hk⟩
  | left | first | callee | head | condition | test | statement => exact ⟨context, Γ, hk.1⟩
  | right | second | arguments | tail | value => exact ⟨context, Γ, hk.2⟩
  | lambda => exact ⟨context, Γ, hk⟩
  | initial | next => exact ⟨context, _, hk.2⟩
  | block => exact ⟨context, _, hk⟩
  | yes => exact ⟨context, Γ, hk.2.1⟩
  | no => exact ⟨context, Γ, hk.2.2⟩
  | turn => exact ⟨_, Γ, hk.2⟩
  | function => exact ⟨context, _, hk.2⟩
  | @statements fn =>
    obtain ⟨id, names, body⟩ := fn
    exact ⟨_, _, hk.2⟩

theorem Value.from_faultlessSomewhere {v : Value} :
    v.From Task.FaultlessSomewhere ↔ v.Faultless := by
  constructor
  · intro h c hc
    obtain ⟨_, Γ, hfn⟩ := h c hc
    exact ⟨Γ, hfn⟩
  · intro h c hc
    obtain ⟨Γ, hfn⟩ := h c hc
    exact ⟨.function, Γ, hfn⟩

theorem Machine.holds_faultless {m : Machine} :
    m.Holds (Value.From Task.FaultlessSomewhere) ↔ m.Holds Value.Faultless :=
  ⟨fun h => h.mono fun _ => Value.from_faultlessSomewhere.mp,
    fun h => h.mono fun _ => Value.from_faultlessSomewhere.mpr⟩

/-- Nothing is at fault in what is reached where nothing is at fault. -/
theorem Reaches.faultless {c d : Config} (h : Reaches c d) (hc : c.Faultless) : d.Faultless := by
  obtain ⟨hk, hm⟩ := h.stays Task.heritable_faultlessSomewhere hc.task
    (Machine.holds_faultless.mpr hc.machine)
  exact ⟨hk, Machine.holds_faultless.mp hm⟩

/-- On every way out nothing is at fault in the functions of the machine. -/
theorem Config.Faultless.exec {s : Stmt} {room : Option Nat} {m : Machine}
    (hc : Config.Faultless ⟨.stmt s, room, m⟩) (fuel : Nat) :
    Ends (exec fuel room s) m (fun _ t => t.Holds Value.Faultless) fun _ t =>
      t.Holds Value.Faultless := by
  have hstays := (staying Task.heritable_faultlessSomewhere fuel).exec room s m hc.task
    (Machine.holds_faultless.mpr hc.machine)
  exact Ends.mono hstays (fun _ _ ht => Machine.holds_faultless.mp ht.1)
    fun _ _ ht => Machine.holds_faultless.mp ht.1

/-- In a world of programs without errors nothing is at fault. -/
structure World.Faultless (w : World) : Prop where
  loaded : ∀ s ∈ w.loaded, s.Faultless .program []
  machine : w.machine.Holds Value.Faultless

theorem Stmt.FaultlessAll.mem {ss : List Stmt} (h : Stmt.FaultlessAll .program [] ss) {s : Stmt}
    (hs : s ∈ ss) : s.Faultless .program [] := by
  induction ss with
  | nil => simp at hs
  | cons t ss ih =>
    have hΓ : after [] t = [] := by cases t <;> rfl
    rcases List.mem_cons.mp hs with rfl | hs
    · exact h.1
    · exact ih (by simpa [hΓ] using h.2) hs

/-- In a program that the resolver finds no error in, nothing is at fault. -/
theorem parse_faultless {tokens : List Token} {finish : Token} {firstId : NodeId}
    (h : (resolve (parse tokens finish firstId).program).errors = []) :
    Stmt.FaultlessAll .program [] (parse tokens finish firstId).program := by
  obtain ⟨-, hf, ht⟩ := parse_neat tokens finish firstId
  exact (resolve_placed hf ht fun _ _ => Resolution.find?_empty _).2.2.2 h

variable {clock : Nat → Float} {room : Option Nat} {w : World}

/-- Functions outlive the program that made them, and nothing is at fault in them either. -/
theorem Reachable.faultless
    (h : Reachable clock room (fun program => (resolve program).errors = []) w) :
    w.Faultless := by
  induction h with
  | start => exact ⟨by simp, Machine.Holds.start clock fun _ => nofun⟩
  | load _ _ _ ha ih =>
    refine ⟨fun s hs => ?_, ⟨ih.machine.locals, ih.machine.globals⟩⟩
    rcases List.mem_append.mp hs with hs | hs
    · exact ih.loaded s hs
    · exact (parse_faultless ha).mem hs
  | file _ _ _ ih => exact ⟨ih.loaded, ih.machine.locals, ih.machine.globals⟩
  | @execute _ _ fuel _ _ _ hs hr ih | @stop _ _ fuel _ _ _ hs hr _ ih =>
    have hc : Config.Faultless ⟨.stmt _, room, _⟩ := ⟨⟨_, _, ih.loaded _ hs⟩, ih.machine⟩
    have left := hc.exec fuel
    simp only [Ends, hr] at left
    exact ⟨ih.loaded, left⟩
  | print _ ih => exact ⟨ih.loaded, ih.machine.locals, ih.machine.globals⟩

/-- In every state that programs without errors lead to, a statement of a program completes normally
if it completes, and the body of a function, in whatever call, never by a `break`. -/
theorem jumps_stay_inside
    (hw : Reachable clock room (fun program => (resolve program).errors = []) w) {s : Stmt}
    (hs : s ∈ w.loaded) :
    (∀ fuel c m, exec fuel room s w.machine = .ok c m → c = .normal) ∧
      ∀ fn inner m, Reaches ⟨.stmt s, room, w.machine⟩ ⟨.body fn, inner, m⟩ →
        ∀ fuel c t, execAll fuel inner fn.body m = .ok c t → c ≠ .broke := by
  have h := hw.faultless
  constructor
  · intro fuel c m hr
    have := (allowed fuel).exec room s .program [] w.machine (h.loaded s hs)
    simp only [Ends, hr] at this
    cases c <;> simp_all [Completion.AllowedIn, Context.program]
  · intro fn inner m hreach fuel c t hr
    have hc : Config.Faultless ⟨.stmt s, room, w.machine⟩ := ⟨⟨_, _, h.loaded s hs⟩, h.machine⟩
    obtain ⟨⟨context, Γ, hfn⟩, -⟩ := Reaches.faultless hreach hc
    obtain ⟨id, names, body⟩ := fn
    have := (allowed fuel).execAll inner body .function _ m hfn.2
    simp only [Ends, Lambda.body] at this hr
    rw [hr] at this
    rintro rfl
    simp [Completion.AllowedIn, Context.function] at this

/-- The tokens of a call of a function that leaves a loop and then returns. -/
def leftAtOnce : List Token :=
  [⟨.leftParen, "(", .nil, 1⟩, ⟨.kwFun, "fun", .nil, 1⟩, ⟨.leftParen, "(", .nil, 1⟩,
    ⟨.rightParen, ")", .nil, 1⟩, ⟨.leftBrace, "\x7b", .nil, 1⟩, ⟨.kwWhile, "while", .nil, 1⟩,
    ⟨.leftParen, "(", .nil, 1⟩, ⟨.kwTrue, "true", .nil, 1⟩, ⟨.rightParen, ")", .nil, 1⟩,
    ⟨.leftBrace, "\x7b", .nil, 1⟩, ⟨.kwBreak, "break", .nil, 1⟩, ⟨.semicolon, ";", .nil, 1⟩,
    ⟨.rightBrace, "\x7d", .nil, 1⟩, ⟨.kwReturn, "return", .nil, 1⟩, ⟨.semicolon, ";", .nil, 1⟩,
    ⟨.rightBrace, "\x7d", .nil, 1⟩, ⟨.rightParen, ")", .nil, 1⟩, ⟨.leftParen, "(", .nil, 1⟩,
    ⟨.rightParen, ")", .nil, 1⟩, ⟨.semicolon, ";", .nil, 1⟩]

/-- The function that is called in `leftAtOnce`. -/
def leaver : Lambda :=
  .mk 1 []
    [.loop ⟨.kwWhile, "while", .nil, 1⟩ (.literal 0 (.bool true))
      (.block [.breakLoop ⟨.kwBreak, "break", .nil, 1⟩]),
      .giveBack ⟨.kwReturn, "return", .nil, 1⟩ none]

/-- The statement that `leftAtOnce` is parsed as. -/
def callOfLeaver : Stmt :=
  .expression (.call 3 (.group 2 (.lambda leaver)) ⟨.rightParen, ")", .nil, 1⟩ [])

def leaving : World :=
  World.load ⟨.start fun _ => 0, 0, [], []⟩ (parse leftAtOnce (.endOfInput 1) 0)

theorem jumps_stay_inside_leftAtOnce :
    (∃ c m, exec 8 none callOfLeaver leaving.machine = .ok c m ∧ c = .normal) ∧
      ∃ m c t, Reaches ⟨.stmt callOfLeaver, none, leaving.machine⟩ ⟨.body leaver, none, m⟩ ∧
        execAll 5 none leaver.body m = .ok c t ∧ c = .returned .nil ∧ c ≠ .broke := by
  have hparse : (parse leftAtOnce (.endOfInput 1) 0).program = [callOfLeaver] := by
    decide +kernel
  have hw : Reachable (fun _ => 0) none (fun program => (resolve program).errors = []) leaving :=
    .load .start (Nat.le_refl 0) (by decide +kernel) (by rw [hparse]; rfl)
  have hs : callOfLeaver ∈ leaving.loaded := by simp [leaving, World.load, hparse]
  have hcall : Reaches ⟨.stmt callOfLeaver, none, leaving.machine⟩
      ⟨.body leaver, none, { leaving.machine with closures := 1 }.enter none #[]⟩ :=
    .tail (.single ⟨0, .expression⟩) ⟨3, .call (c := ⟨none, leaver, none, 0⟩) rfl rfl rfl rfl⟩
  have h := jumps_stay_inside hw hs
  exact ⟨⟨_, _, rfl, h.1 8 _ _ rfl⟩, _, _, _, hcall, rfl, rfl, h.2 _ _ _ hcall 5 _ _ rfl⟩

end Lox
