import Lox.Proofs.Execute.Behaviour
import Lox.Proofs.Execute.Jumps

/-! Where jumps land. A `break` that is met ends the innermost loop around it in its own function,
and a `return` the call by which its function was entered: all that stands between completes as the
jump does. -/
namespace Lox

open Behaviour Relation
open Resolve (Context after)

variable {loops : Bool} {room inner : Option Nat} {c d : Config} {m m₁ t : Machine}
  {jump : Completion} {keyword token : Token} {condition : Expr} {body : Stmt}

/-- From statements to those that are executed next as part of them. Into a turn of a loop it goes
only if `loops`. -/
inductive Passes (loops : Bool) : Config → Config → Prop
  | block {ss room m} :
    Passes loops ⟨.stmt (.block ss), room, m⟩ ⟨.stmts ss, room, m.enter m.frame #[]⟩
  | yes {keyword e yes no room m m'} (he : evaluates room e m (.ok (.bool true) m')) :
    Passes loops ⟨.stmt (.branch keyword e yes no), room, m⟩ ⟨.stmt yes, room, m'⟩
  | no {keyword e yes no room m m'} (he : evaluates room e m (.ok (.bool false) m')) :
    Passes loops ⟨.stmt (.branch keyword e yes (some no)), room, m⟩ ⟨.stmt no, room, m'⟩
  | turn {keyword e body room m m'} (hloops : loops = true)
    (he : evaluates room e m (.ok (.bool true) m')) :
    Passes loops ⟨.stmt (.loop keyword e body), room, m⟩ ⟨.stmt body, room, m'⟩
  | again {keyword e body room m m₁ m₂} (he : evaluates room e m (.ok (.bool true) m₁))
    (hb : executes room body m₁ (.ok .normal m₂)) :
    Passes loops ⟨.stmt (.loop keyword e body), room, m⟩
      ⟨.stmt (.loop keyword e body), room, m₂⟩
  | statement {s ss room m} : Passes loops ⟨.stmts (s :: ss), room, m⟩ ⟨.stmt s, room, m⟩
  | next {s ss room m m'} (hs : executes room s m (.ok .normal m')) :
    Passes loops ⟨.stmts (s :: ss), room, m⟩ ⟨.stmts ss, room, m'⟩

/-- How statements complete. -/
def Config.Completes (c : Config) (jump : Completion) (t : Machine) : Prop :=
  match c.task with
  | .stmt s => executes c.room s c.machine (.ok jump t)
  | .stmts ss => executesAll c.room ss c.machine (.ok jump t)
  | _ => False

/-- A loop goes on with its turn once the condition holds. -/
theorem executes_of_turn {r : Outcome Machine Completion}
    (he : evaluates room condition m (.ok (.bool true) m₁))
    (hb : Behaviour.turn (pure true) (executes room body)
      (executes room (.loop keyword condition body)) m₁ r) :
    executes room (.loop keyword condition body) m r := by
  rw [Behaviour.turn, pure_then] at hb
  rw [executes_turn]
  exact .went (.went he rfl) hb

/-- Statements complete early as those do that are executed as part of them. Only the innermost
frame is their own. -/
theorem Passes.completes (h : Passes loops c d) (hnormal : jump ≠ .normal)
    (hloops : loops = true → jump ≠ .broke) (hd : d.Completes jump t) :
    ∃ frame, c.Completes jump { t with frame } := by
  cases h with
  | block => exact ⟨_, (executes_block _).ge _ _ (.ok hd)⟩
  | yes he => exact ⟨t.frame, (executes_branch _ _ _ _).ge _ _ (.went he (.went rfl hd))⟩
  | no he => exact ⟨t.frame, (executes_branch _ _ _ _).ge _ _ (.went he (.went rfl hd))⟩
  | turn htrue he =>
    refine ⟨t.frame, executes_of_turn he (.went rfl (.went hd ?_))⟩
    cases jump with
    | normal => exact absurd rfl hnormal
    | broke => exact absurd rfl (hloops htrue)
    | returned v => rfl
  | again he hb => exact ⟨t.frame, executes_of_turn he (.went rfl (.went hb hd))⟩
  | statement =>
    refine ⟨t.frame, (executesAll_cons _ _).ge _ _ (.went hd ?_)⟩
    cases jump with
    | normal => exact absurd rfl hnormal
    | _ => rfl
  | next hs => exact ⟨t.frame, (executesAll_cons _ _).ge _ _ (.went hs hd)⟩

/-- A jump reaches out as far as statements are part of one another. -/
theorem completes_of_passes (h : ReflTransGen (Passes loops) c d) (hnormal : jump ≠ .normal)
    (hloops : loops = true → jump ≠ .broke) (hd : d.Completes jump t) :
    ∃ frame, c.Completes jump { t with frame } := by
  induction h using ReflTransGen.head_induction_on with
  | refl => exact ⟨t.frame, hd⟩
  | head h _ ih =>
    obtain ⟨frame, hc⟩ := ih
    obtain ⟨frame', hc⟩ := h.completes hnormal hloops hc
    exact ⟨frame', hc⟩

/-! The loop that a `break` ends. -/

theorem completes_breakLoop :
    Config.Completes ⟨.stmt (.breakLoop token), room, m⟩ .broke m :=
  ⟨settled_ok _ _, 1, rfl⟩

/-- A loop has come to its end where a `break` is met in a turn of it that is in no loop within. -/
theorem executes_of_break (he : evaluates room condition m (.ok (.bool true) m₁))
    (h : ReflTransGen (Passes false) ⟨.stmt body, room, m₁⟩ ⟨.stmt (.breakLoop token), inner, t⟩) :
    ∃ frame, executes room (.loop keyword condition body) m (.ok .normal { t with frame }) := by
  obtain ⟨frame, hbody⟩ := completes_of_passes h (by simp) (by simp) completes_breakLoop
  exact ⟨frame, executes_of_turn he (.went rfl (.went hbody rfl))⟩

/-! The call that a `return` ends. -/

variable {fuel : Nat} {fn : Lambda} {v : Value}

/-- The value of a call is that of the `return` by which the body of the function completes. -/
theorem evaluates_of_starts (hs : Starts fuel c ⟨.body fn, inner, m⟩)
    (hd : executesAll inner fn.body m (.ok (.returned v) t)) :
    ∃ e frame, c.task = .expr e ∧ evaluates c.room e c.machine (.ok v { t with frame }) := by
  obtain ⟨-, more, hd⟩ := hd
  cases hs with
  | @call id e paren es room _ m f m₁ vs m₂ he hes ha hr =>
    -- The greater fuel is enough for the callee, for the arguments and for the body.
    have hfuel := prolongs (Nat.le_max_left fuel more)
    have hmore := prolongs (Nat.le_max_right fuel more)
    replace he := (hfuel.eval room e m (he ▸ settled_ok _ _)).trans he
    replace hes := (hfuel.evalAll room es m₁ (hes ▸ settled_ok _ _)).trans hes
    have hend : execAll more inner f.fn.body (m₂.enter f.scope vs.toArray) = _ := hd
    replace hend := (hmore.execAll inner _ _ (hend ▸ settled_ok _ _)).trans hend
    have hcall : Run.apply (.closure f) paren vs room (execAll (max fuel more)) m₂ =
        .ok v { t with frame := m₂.frame } := by
      rw [Run.apply_closure ha hr, ← bind_assoc,
        bind_of_ok (Run.newFrame_within.trans (by rw [hend]))]
      rfl
    refine ⟨_, m₂.frame, rfl, settled_ok _ _, max fuel more + 1, ?_⟩
    exact (bind_of_ok he).trans ((bind_of_ok hes).trans hcall)

/-- A call has come to its end where a `return` is met in the body of its function. -/
theorem evaluates_of_return (hs : Starts fuel c ⟨.body fn, inner, m₁⟩)
    (h : ReflTransGen (Passes true) ⟨.stmts fn.body, inner, m₁⟩ d)
    (hd : d.Completes (.returned v) t) :
    ∃ e frame, c.task = .expr e ∧ evaluates c.room e c.machine (.ok v { t with frame }) := by
  obtain ⟨frame, hbody⟩ := completes_of_passes h (by simp) (by simp) hd
  obtain ⟨e, frame', he, hv⟩ := evaluates_of_starts hs hbody
  exact ⟨e, frame', he, hv⟩

/-! What a jump that is met has around it. -/

/-- A turn of a loop is being executed, and no loop within it. -/
def InTurn (c₀ d : Config) : Prop :=
  ∃ keyword condition body m m₁, Reaches c₀ ⟨.stmt (.loop keyword condition body), d.room, m⟩ ∧
    evaluates d.room condition m (.ok (.bool true) m₁) ∧
    ReflTransGen (Passes false) ⟨.stmt body, d.room, m₁⟩ d

/-- The body of a function is being executed for a call, and no call within it. -/
def InCall (c₀ d : Config) : Prop :=
  ∃ fuel c fn m, Reaches c₀ c ∧ Starts fuel c ⟨.body fn, d.room, m⟩ ∧
    ReflTransGen (Passes true) ⟨.stmts fn.body, d.room, m⟩ d

/-- There is around a statement what the resolver took to be around it. -/
structure Surrounded (c₀ d : Config) (context : Context) : Prop where
  turn : context.inLoop = true → InTurn c₀ d
  call : context.inFunction = true → InCall c₀ d

/-- A statement has around it what it needs, and a function was called. -/
def Landed (c₀ d : Config) : Prop :=
  match d.task with
  | .stmt s => ∃ context Γ, s.Faultless context Γ ∧ Surrounded c₀ d context
  | .stmts ss => ∃ context Γ, Stmt.FaultlessAll context Γ ss ∧ Surrounded c₀ d context
  | .body _ => ∃ fuel c, Reaches c₀ c ∧ Starts fuel c d
  | .expr _ | .exprs _ => True

variable {c₀ : Config} {context : Context}

/-- Going on within a turn is being in it still. -/
theorem InTurn.passes (h : InTurn c₀ c) (hp : Passes false c d) (hroom : d.room = c.room) :
    InTurn c₀ d := by
  obtain ⟨keyword, condition, body, m, m₁, hloop, he, hc⟩ := h
  rw [← hroom] at hloop he hc
  exact ⟨keyword, condition, body, m, m₁, hloop, he, hc.tail hp⟩

theorem InCall.passes (h : InCall c₀ c) (hp : Passes true c d) (hroom : d.room = c.room) :
    InCall c₀ d := by
  obtain ⟨fuel, e, fn, m, he, hs, hc⟩ := h
  rw [← hroom] at hs hc
  exact ⟨fuel, e, fn, m, he, hs, hc.tail hp⟩

theorem Surrounded.passes (h : Surrounded c₀ c context) (hp : ∀ loops, Passes loops c d)
    (hroom : d.room = c.room) : Surrounded c₀ d context :=
  ⟨fun hloop => (h.turn hloop).passes (hp false) hroom,
    fun hcall => (h.call hcall).passes (hp true) hroom⟩

/-- A loop is around its turns, and a call around the body that it starts; nothing else changes what
is around. -/
theorem Landed.starts (hc : Landed c₀ c) (hreach : Reaches c₀ c) (hfaultless : c.Faultless)
    (h : Starts fuel c d) : Landed c₀ d := by
  have hstart := h
  cases h with
  | call => exact ⟨fuel, _, hreach, hstart⟩
  | block =>
    obtain ⟨context, Γ, hs, hsur⟩ := hc
    exact ⟨context, _, hs, hsur.passes (fun _ => .block) rfl⟩
  | yes he =>
    obtain ⟨context, Γ, hs, hsur⟩ := hc
    exact ⟨context, Γ, hs.2.1, hsur.passes (fun _ => .yes ⟨settled_ok _ _, fuel, he⟩) rfl⟩
  | no he =>
    obtain ⟨context, Γ, hs, hsur⟩ := hc
    exact ⟨context, Γ, hs.2.2, hsur.passes (fun _ => .no ⟨settled_ok _ _, fuel, he⟩) rfl⟩
  | @turn keyword condition body room m m' he =>
    obtain ⟨context, Γ, hs, hsur⟩ := hc
    have he : evaluates room condition m (.ok (.bool true) m') := ⟨settled_ok _ _, fuel, he⟩
    exact ⟨{ context with inLoop := true }, Γ, hs.2, fun _ => ⟨_, _, _, _, _, hreach, he, .refl⟩,
      fun hcall => (hsur.call hcall).passes (.turn rfl he) rfl⟩
  | again he hb =>
    obtain ⟨context, Γ, hs, hsur⟩ := hc
    exact ⟨context, Γ, hs, hsur.passes
      (fun _ => .again ⟨settled_ok _ _, fuel, he⟩ ⟨settled_ok _ _, fuel, hb⟩) rfl⟩
  | statement =>
    obtain ⟨context, Γ, hs, hsur⟩ := hc
    exact ⟨context, Γ, hs.1, hsur.passes (fun _ => .statement) rfl⟩
  | next hr =>
    obtain ⟨context, Γ, hs, hsur⟩ := hc
    exact ⟨context, _, hs.2, hsur.passes (fun _ => .next ⟨settled_ok _ _, fuel, hr⟩) rfl⟩
  | @statements fn =>
    obtain ⟨fuel, c, hc, hs⟩ := hc
    obtain ⟨⟨_, Γ, hfn⟩, -⟩ := hfaultless
    obtain ⟨id, names, body⟩ := fn
    exact ⟨.function, _, hfn.2, nofun, fun _ => ⟨fuel, c, _, _, hc, hs, .refl⟩⟩
  | _ => trivial

/-- A task that has around it what it needs leads to such tasks only. -/
theorem Landed.reaches (h₀ : Landed c₀ c₀) (hfaultless : c₀.Faultless) (h : Reaches c₀ c) :
    Landed c₀ c := by
  induction h with
  | refl => exact h₀
  | tail hr hs ih =>
    obtain ⟨fuel, hs⟩ := hs
    exact ih.starts hr (Reaches.faultless hr hfaultless) hs

variable {clock : Nat → Float} {w : World} {s : Stmt}

/-- What is reached from a statement of a program has around it what it needs. -/
theorem Reachable.landed
    (hw : Reachable clock room (fun program => (resolve program).errors = []) w)
    (hs : s ∈ w.loaded) (h : Reaches ⟨.stmt s, room, w.machine⟩ c) :
    Landed ⟨.stmt s, room, w.machine⟩ c := by
  have hf := hw.faultless
  have hc : Config.Faultless ⟨.stmt s, room, w.machine⟩ := ⟨⟨_, _, hf.loaded s hs⟩, hf.machine⟩
  exact Landed.reaches ⟨.program, [], hf.loaded s hs, nofun, nofun⟩ hc h

/-- In every state that programs without errors lead to, a `break` that is met is in a turn of a
loop of its own function, with no loop between, and execution goes on behind that loop. -/
theorem break_ends_loop
    (hw : Reachable clock room (fun program => (resolve program).errors = []) w)
    (hs : s ∈ w.loaded)
    (h : Reaches ⟨.stmt s, room, w.machine⟩ ⟨.stmt (.breakLoop token), inner, m⟩) :
    ∃ keyword condition body m₀ m₁ frame,
      Reaches ⟨.stmt s, room, w.machine⟩ ⟨.stmt (.loop keyword condition body), inner, m₀⟩ ∧
      evaluates inner condition m₀ (.ok (.bool true) m₁) ∧
      ReflTransGen (Passes false) ⟨.stmt body, inner, m₁⟩
        ⟨.stmt (.breakLoop token), inner, m⟩ ∧
      executes inner (.loop keyword condition body) m₀ (.ok .normal { m with frame }) := by
  obtain ⟨context, Γ, hloop, hsur⟩ := hw.landed hs h
  obtain ⟨keyword, condition, body, m₀, m₁, hreach, he, hpass⟩ := hsur.turn hloop
  obtain ⟨frame, hr⟩ := executes_of_break he hpass
  exact ⟨keyword, condition, body, m₀, m₁, frame, hreach, he, hpass, hr⟩

/-- In every state that programs without errors lead to, a `return` that is met is in the body of a
function that was called, with no call between, and what it returns is the value of that call. -/
theorem return_ends_call
    (hw : Reachable clock room (fun program => (resolve program).errors = []) w)
    (hs : s ∈ w.loaded) {value : Option Expr}
    (h : Reaches ⟨.stmt s, room, w.machine⟩ ⟨.stmt (.giveBack token value), inner, m⟩)
    (hv : executes inner (.giveBack token value) m (.ok (.returned v) t)) :
    ∃ fuel c fn m₁ e frame,
      Reaches ⟨.stmt s, room, w.machine⟩ c ∧ c.task = .expr e ∧
      Starts fuel c ⟨.body fn, inner, m₁⟩ ∧
      ReflTransGen (Passes true) ⟨.stmts fn.body, inner, m₁⟩
        ⟨.stmt (.giveBack token value), inner, m⟩ ∧
      evaluates c.room e c.machine (.ok v { t with frame }) := by
  obtain ⟨context, Γ, hcall, hsur⟩ := hw.landed hs h
  obtain ⟨fuel, c, fn, m₁, hreach, hstart, hpass⟩ := hsur.call hcall.1
  obtain ⟨e, frame, he, hr⟩ := evaluates_of_return hstart hpass hv
  exact ⟨fuel, c, fn, m₁, e, frame, hreach, he, hstart, hpass, hr⟩

end Lox
