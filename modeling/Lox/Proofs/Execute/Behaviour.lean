import Mathlib.Order.Basic
import Lox.Proofs.Execute.Fuel
import Lox.Proofs.Execute.Steps

/-! What comes of a run that is followed far enough. Behaviours are put together as runs are, but
know of no fuel, so a loop is all of its turns. -/
namespace Lox

variable {σ α β S : Type}

/-- The ways in which a computation may end, in each state that it may begin in. -/
def Behaviour (σ α : Type) := σ → Outcome σ α → Prop

namespace Behaviour

variable {B B' : Behaviour σ α} {f f' : α → Behaviour σ β} {s : σ}

/-- A behaviour that has the ends of another. -/
instance : PartialOrder (Behaviour σ α) := inferInstanceAs (PartialOrder (σ → Outcome σ α → Prop))

theorem ext (h : ∀ s r, B s r ↔ B' s r) : B = B' := funext fun s => funext fun r => propext (h s r)

/-- A behaviour and what goes on from its result. -/
inductive Then (B : Behaviour σ α) (f : α → Behaviour σ β) (s : σ) : Outcome σ β → Prop
  | stopped {halt t} (h : B s (.error halt t)) : Then B f s (.error halt t)
  | went {a t r} (h : B s (.ok a t)) (hf : f a t r) : Then B f s r

instance : Monad (Behaviour σ) where
  pure a := fun s r => r = .ok a s
  bind := Then

/-- To go on with the mere result changes nothing. -/
theorem map_id (B : Behaviour σ α) : id <$> B = B := by
  apply ext
  intro s r
  constructor
  · rintro (h | ⟨h, rfl⟩) <;> exact h
  · intro h
    cases r with
    | ok a t => exact .went h rfl
    | error halt t => exact .stopped h

theorem pure_then (a : α) (f : α → Behaviour σ β) : pure a >>= f = f a := by
  apply ext
  intro s r
  constructor
  · rintro (⟨⟨⟩⟩ | ⟨⟨⟩, h⟩)
    exact h
  · exact fun h => .went rfl h

theorem then_assoc {γ : Type} (B : Behaviour σ α) (f : α → Behaviour σ β)
    (g : β → Behaviour σ γ) : B >>= f >>= g = B >>= fun a => f a >>= g := by
  apply ext
  intro s r
  constructor
  · rintro ((h | ⟨h, hf⟩) | ⟨h | ⟨h, hf⟩, hg⟩)
    · exact .stopped h
    · exact .went h (.stopped hf)
    · exact .went h (.went hf hg)
  · rintro (h | ⟨h, hf | ⟨hf, hg⟩⟩)
    · exact .stopped (.stopped h)
    · exact .stopped (.went h hf)
    · exact .went (.went h hf) hg

instance : LawfulMonad (Behaviour σ) := .mk' _ map_id pure_then then_assoc

theorem bind_mono (h : B ≤ B') (hf : ∀ a, f a ≤ f' a) : B >>= f ≤ B' >>= f' := by
  rintro s r (hB | ⟨hB, hr⟩)
  · exact .stopped (h _ _ hB)
  · exact .went (h _ _ hB) (hf _ _ _ hr)

def stop (halt : Halt) : Behaviour σ α := fun s r => r = .error halt s

def truth (value : Value S) (fault : RuntimeFault) (token : Token) : Behaviour σ Bool :=
  match value with
  | .bool b => pure b
  | _ => stop (.error ⟨fault, token⟩)

section Loops

variable {test test' : Behaviour σ Bool} {round round' rest rest' : Behaviour σ (Completion S)}

/-- A turn of a loop, and what comes after it: the rest if the round completes normally. -/
def turn (test : Behaviour σ Bool) (round rest : Behaviour σ (Completion S)) :
    Behaviour σ (Completion S) := do
  if ← test then
    match ← round with
    | .normal => rest
    | .broke => return .normal
    | .returned value => return .returned value
  else return .normal

/-- A loop that is over before a number of turns. -/
def turns (test : Behaviour σ Bool) (round : Behaviour σ (Completion S)) :
    Nat → Behaviour σ (Completion S)
  | 0 => fun _ _ => False
  | n + 1 => turn test round (turns test round n)

/-- A loop: round after round, as long as the test is true. -/
def loop (test : Behaviour σ Bool) (round : Behaviour σ (Completion S)) :
    Behaviour σ (Completion S) := fun s r => ∃ n, turns test round n s r

/-- More behaviour of the parts of a loop makes for more behaviour of the loop. -/
theorem turn_mono (ht : test ≤ test') (hr : round ≤ round') (h : rest ≤ rest') :
    turn test round rest ≤ turn test' round' rest' := by
  apply bind_mono ht
  intro b
  cases b with
  | false => exact le_rfl
  | true =>
    apply bind_mono hr
    intro c
    cases c with
    | normal => exact h
    | _ => exact le_rfl

/-- A turn of a loop and then the loop is the loop. -/
theorem turn_loop_le : turn test round (loop test round) ≤ loop test round := by
  rintro s r (h | @⟨b, t, _, h, hb⟩)
  · exact ⟨1, .stopped h⟩
  · cases b with
    | false => exact ⟨1, .went h hb⟩
    | true =>
      rcases hb with hr | @⟨c, u, _, hr, hc⟩
      · exact ⟨1, .went h (.stopped hr)⟩
      · cases c with
        | normal =>
          obtain ⟨n, hn⟩ := hc
          exact ⟨n + 1, .went h (.went hr hn)⟩
        | _ => exact ⟨1, .went h (.went hr hc)⟩

end Loops

/-! Runs with fuel. -/

/-- What comes of runs that are followed to their ends. -/
def of (x : Nat → EStateM Halt σ α) : Behaviour σ α := fun s r => Settled r ∧ ∃ fuel, x fuel s = r

/-- Runs that end in these ways. More fuel does not change them. -/
structure Yields (x : Nat → EStateM Halt σ α) (B : Behaviour σ α) : Prop where
  steady : ∀ i j, i ≤ j → Below (x i) (x j)
  of_eq : of x = B

section Runs

variable {x : Nat → EStateM Halt σ α} {g : α → Nat → EStateM Halt σ β}

/-- A result that some fuel is enough for stays the same with more. -/
theorem Yields.apply (h : Yields x B) {fuel more : Nat} (hle : fuel ≤ more) {r : Outcome σ α}
    (hr : Settled r) (heq : x fuel s = r) : x more s = r := by
  subst heq
  exact h.steady fuel more hle s hr

theorem of_pure (a : α) : (of fun _ => (pure a : EStateM Halt σ α)) = pure a := by
  apply ext
  intro s r
  constructor
  · rintro ⟨-, -, rfl⟩
    rfl
  · rintro rfl
    exact ⟨settled_ok a s, 0, rfl⟩

theorem yields_const (x : EStateM Halt σ α) : Yields (fun _ => x) (of fun _ => x) :=
  ⟨fun _ _ _ => .refl x, rfl⟩

theorem yields_pure (a : α) : Yields (fun _ => (pure a : EStateM Halt σ α)) (pure a) :=
  ⟨fun _ _ _ => .refl _, of_pure a⟩

theorem yields_truth (v : Value) (fault : RuntimeFault) (token : Token) :
    Yields (fun _ => Run.truth v fault token) (truth v fault token) := by
  refine ⟨fun _ _ _ => .refl _, ?_⟩
  cases v with
  | bool b => exact of_pure b
  | _ =>
    apply ext
    intro s r
    constructor
    · rintro ⟨-, -, rfl⟩
      rfl
    · rintro rfl
      exact ⟨nofun, 0, rfl⟩

/-- Of a run and the run that it goes on with, the greater fuel is enough for both. -/
theorem Yields.bind (h : Yields x B) (hg : ∀ a, Yields (g a) (f a)) :
    Yields (fun fuel => x fuel >>= fun a => g a fuel) (B >>= f) := by
  refine ⟨fun i j hle => (h.steady i j hle).bind fun a => (hg a).steady i j hle, ?_⟩
  obtain rfl := h.of_eq
  obtain rfl : (fun a => of (g a)) = f := funext fun a => (hg a).of_eq
  apply ext
  intro s r
  constructor
  · rintro ⟨hr, fuel, rfl⟩
    simp only [Bind.bind, EStateM.bind] at hr ⊢
    cases hx : x fuel s with
    | ok a t =>
      rw [hx] at hr
      exact .went ⟨settled_ok a t, fuel, hx⟩ ⟨hr, fuel, rfl⟩
    | error halt t =>
      rw [hx] at hr
      exact .stopped ⟨fun u hu => hr u (by cases hu; rfl), fuel, hx⟩
  · rintro (@⟨halt, t, hr, fuel, hx⟩ | ⟨⟨ht, fuel, hx⟩, hr, more, hgo⟩)
    · exact ⟨fun u hu => hr u (by cases hu; rfl), fuel, by simp only [Bind.bind, EStateM.bind, hx]⟩
    · refine ⟨hr, max fuel more, ?_⟩
      simp only [Bind.bind, EStateM.bind, h.apply (Nat.le_max_left fuel more) ht hx]
      exact (hg _).apply (Nat.le_max_right fuel more) hr hgo

/-- The first bit of fuel does nothing. -/
theorem of_succ (h : x 0 = throw .outOfFuel) : (of fun fuel => x (fuel + 1)) = of x := by
  apply ext
  intro s r
  constructor
  · rintro ⟨hr, fuel, heq⟩
    exact ⟨hr, fuel + 1, heq⟩
  · rintro ⟨hr, fuel, heq⟩
    cases fuel with
    | zero =>
      rw [h] at heq
      exact absurd heq.symm (hr s)
    | succ fuel => exact ⟨hr, fuel, heq⟩

end Runs

/-- A turn of a loop, with fuel. -/
theorem Yields.turn {x : Nat → Run Value} {y z : Nat → Run Completion} {X : Behaviour Machine Value}
    {Y Z : Behaviour Machine Completion} (hx : Yields x X) (hy : Yields y Y) (hz : Yields z Z)
    (fault : RuntimeFault) (token : Token) :
    Yields
      (fun fuel => do
        let value ← x fuel
        let b ← Run.truth value fault token
        if b then
          match ← y fuel with
          | .normal => z fuel
          | .broke => return .normal
          | .returned value => return .returned value
        else return .normal)
      (turn (do truth (← X) fault token) Y Z) := by
  rw [Behaviour.turn, bind_assoc]
  refine hx.bind fun v => (yields_truth v fault token).bind fun b => ?_
  cases b with
  | false => exact yields_pure _
  | true =>
    refine hy.bind fun c => ?_
    cases c with
    | normal => exact hz
    | _ => exact yields_pure _

/-- What comes of a computation in a new frame within the innermost one, which is put back on every
way out. -/
inductive Inside (B : Behaviour Machine α) (m : Machine) : Outcome Machine α → Prop
  | ok {a t} (h : B (m.enter m.frame #[]) (.ok a t)) :
    Inside B m (.ok a { t with frame := m.frame })
  | error {halt t} (h : B (m.enter m.frame #[]) (.error halt t)) :
    Inside B m (.error halt { t with frame := m.frame })

/-- A run within a new frame has the behaviour of the run, inside. -/
theorem of_inside (x : Nat → Run α) :
    (of fun fuel => do let frame ← Run.newFrame (← Run.frame) #[]; Run.within frame (x fuel)) =
      Inside (of x) := by
  apply ext
  intro m r
  have hrun (fuel : Nat) :
      (do let frame ← Run.newFrame m.frame #[]; Run.within frame (x fuel)) m = _ :=
    Run.newFrame_within
  constructor
  · rintro ⟨hr, fuel, h⟩
    replace h := (hrun fuel).symm.trans h
    cases hx : x fuel (m.enter m.frame #[]) with
    | ok a t =>
      rw [hx] at h
      exact h ▸ .ok ⟨settled_ok a t, fuel, hx⟩
    | error halt t =>
      rw [hx] at h
      subst h
      exact .error ⟨fun u hu => hr _ (by cases hu; rfl), fuel, hx⟩
  · rintro (⟨-, fuel, hx⟩ | ⟨hr, fuel, hx⟩)
    · exact ⟨settled_ok _ _, fuel, (hrun fuel).trans (by rw [hx])⟩
    · exact ⟨fun u hu => hr _ (by cases hu; rfl), fuel, (hrun fuel).trans (by rw [hx])⟩

end Behaviour

open Behaviour

variable {room : Option Nat}

/-- What the evaluation of an expression comes to. -/
def evaluates (room : Option Nat) (e : Expr) : Behaviour Machine Value :=
  .of fun fuel => eval fuel room e

/-- What the execution of a statement comes to. -/
def executes (room : Option Nat) (s : Stmt) : Behaviour Machine Completion :=
  .of fun fuel => exec fuel room s

/-- What the execution of statements in order comes to. -/
def executesAll (room : Option Nat) (ss : List Stmt) : Behaviour Machine Completion :=
  .of fun fuel => execAll fuel room ss

theorem yields_eval (e : Expr) : Yields (fun fuel => eval fuel room e) (evaluates room e) :=
  ⟨fun _ _ h => (prolongs h).eval room e, rfl⟩

theorem yields_exec (s : Stmt) : Yields (fun fuel => exec fuel room s) (executes room s) :=
  ⟨fun _ _ h => (prolongs h).exec room s, rfl⟩

theorem yields_execAll (ss : List Stmt) :
    Yields (fun fuel => execAll fuel room ss) (executesAll room ss) :=
  ⟨fun _ _ h => (prolongs h).execAll room ss, rfl⟩

theorem evaluates_literal (id : NodeId) (l : Literal) :
    evaluates room (.literal id l) = pure l.value :=
  (of_succ rfl).symm.trans (of_pure _)

theorem executes_expression (e : Expr) :
    executes room (.expression e) = do
      let _ ← evaluates room e
      return .normal :=
  (of_succ rfl).symm.trans ((yields_eval e).bind fun _ => yields_pure _).of_eq

theorem executesAll_nil : executesAll room [] = pure .normal :=
  (of_succ rfl).symm.trans (of_pure _)

theorem executesAll_cons (s : Stmt) (ss : List Stmt) :
    executesAll room (s :: ss) = do
      match ← executes room s with
      | .normal => executesAll room ss
      | c => return c := by
  refine (of_succ rfl).symm.trans ((yields_exec s).bind fun c => ?_).of_eq
  cases c with
  | normal => exact yields_execAll ss
  | _ => exact yields_pure _

theorem executesAll_singleton (s : Stmt) : executesAll room [s] = executes room s := by
  rw [executesAll_cons, executesAll_nil]
  refine Eq.trans (congrArg _ (funext fun c => ?_)) (bind_pure _)
  cases c <;> rfl

/-- A block is its statements within a new frame. -/
theorem executes_block (ss : List Stmt) :
    executes room (.block ss) = Inside (executesAll room ss) :=
  (of_succ rfl).symm.trans (of_inside _)

theorem executes_branch (keyword : Token) (condition : Expr) (yes : Stmt) (no : Option Stmt) :
    executes room (.branch keyword condition yes no) = do
      let value ← evaluates room condition
      let b ← truth value .conditionNotBoolean keyword
      if b then executes room yes
      else
        match no with
        | some no => executes room no
        | none => return .normal := by
  refine (of_succ rfl).symm.trans ((yields_eval condition).bind fun v =>
    (yields_truth v .conditionNotBoolean keyword).bind fun b => ?_).of_eq
  cases b with
  | true => exact yields_exec yes
  | false =>
    cases no with
    | some no => exact yields_exec no
    | none => exact yields_pure _

/-- A loop is a turn of it and then the loop again. -/
theorem executes_turn (keyword : Token) (condition : Expr) (body : Stmt) :
    executes room (.loop keyword condition body) =
      turn (do truth (← evaluates room condition) .conditionNotBoolean keyword)
        (executes room body) (executes room (.loop keyword condition body)) :=
  (of_succ rfl).symm.trans ((yields_eval condition).turn (yields_exec body)
    (yields_exec (.loop keyword condition body)) .conditionNotBoolean keyword).of_eq

/-- A loop is all of its turns: by induction on the fuel none of them is missed, and by induction on
their number each has the fuel that it needs. -/
theorem executes_loop (keyword : Token) (condition : Expr) (body : Stmt) :
    executes room (.loop keyword condition body) =
      loop (do truth (← evaluates room condition) .conditionNotBoolean keyword)
        (executes room body) := by
  apply le_antisymm
  · have hfuel (fuel : Nat) : (of fun _ => exec fuel room (.loop keyword condition body)) ≤
        loop (do truth (← evaluates room condition) .conditionNotBoolean keyword)
          (executes room body) := by
      induction fuel with
      | zero => exact fun m r ⟨hr, _, h⟩ => absurd h.symm (hr m)
      | succ fuel ih =>
        have hturn := (yields_const (eval fuel room condition)).turn
          (yields_const (exec fuel room body))
          (yields_const (exec fuel room (.loop keyword condition body)))
          .conditionNotBoolean keyword
        refine (hturn.of_eq.le.trans (turn_mono ?_ ?_ ih)).trans turn_loop_le
        · exact bind_mono (fun _ _ ⟨hr, _, h⟩ => ⟨hr, fuel, h⟩) fun _ => le_rfl
        · exact fun _ _ ⟨hr, _, h⟩ => ⟨hr, fuel, h⟩
    exact fun m r ⟨hr, fuel, h⟩ => hfuel fuel m r ⟨hr, fuel, h⟩
  · rintro m r ⟨n, h⟩
    induction n generalizing m r with
    | zero => exact h.elim
    | succ n ih =>
      exact (executes_turn keyword condition body).ge m r (turn_mono le_rfl le_rfl ih m r h)

end Lox
