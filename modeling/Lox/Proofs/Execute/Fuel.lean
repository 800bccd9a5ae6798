import Lox.Evaluate

/-! More fuel changes no run that is followed to its end. -/
namespace Lox

variable {σ α β : Type}

/-- How a run ends, and the state it leaves. -/
abbrev Outcome (σ α : Type) := EStateM.Result Halt σ α

/-- The run was followed to its end. -/
def Settled (r : Outcome σ α) : Prop := ∀ s, r ≠ .error .outOfFuel s

theorem settled_ok (a : α) (s : σ) : Settled (.ok a s) := nofun

/-- The second run ends as the first one does, if that is followed to its end. -/
def Below (x y : EStateM Halt σ α) : Prop := ∀ s, Settled (x s) → y s = x s

namespace Below

variable {x y : EStateM Halt σ α} {f g : α → EStateM Halt σ β}

theorem refl (x : EStateM Halt σ α) : Below x x := fun _ _ => rfl

theorem outOfFuel : Below (throw .outOfFuel) y := fun s h => absurd rfl (h s)

theorem bind (hx : Below x y) (hf : ∀ a, Below (f a) (g a)) : Below (x >>= f) (y >>= g) := by
  intro s h
  simp only [Bind.bind, EStateM.bind] at h ⊢
  cases hr : x s with
  | ok a t =>
    rw [hr] at h
    rw [hx s (hr ▸ settled_ok a t), hr]
    exact hf a t h
  | error halt t =>
    rw [hr] at h
    have hs : Settled (x s) := fun u hu => h u (by cases hr.symm.trans hu; rfl)
    rw [hx s hs, hr]

theorem within {x y : Run α} (h : Below x y) (frame : FrameId) :
    Below (Run.within frame x) (Run.within frame y) := by
  intro m hs
  have hx : Settled (x { m with frame := some frame }) := by
    intro t ht
    exact hs { t with frame := m.frame } (by simp only [Run.within, ht])
  simp only [Run.within, h _ hx]

/-- More fuel for the body of a function prolongs the call. -/
theorem apply {body body' : Option Nat → List Stmt → Run Completion}
    (h : ∀ room ss, Below (body room ss) (body' room ss)) (callee : Value) (paren : Token)
    (arguments : List Value) (room : Option Nat) :
    Below (Run.apply callee paren arguments room body)
      (Run.apply callee paren arguments room body') := by
  unfold Run.apply
  cases callee with
  | closure c =>
    simp only [Value.arity?]
    split
    · exact refl _
    · cases callRoom? room with
      | none => exact refl _
      | some inner =>
        apply (refl _).bind
        intro frame
        exact ((h inner c.fn.body).within frame).bind fun completion => refl _
  | _ => exact refl _

end Below

/-- All that is evaluated or executed with the smaller fuel ends so with the greater as well. -/
structure Prolongs (fuel more : Nat) : Prop where
  eval : ∀ room e, Below (eval fuel room e) (eval more room e)
  evalAll : ∀ room es, Below (evalAll fuel room es) (evalAll more room es)
  exec : ∀ room s, Below (exec fuel room s) (exec more room s)
  execAll : ∀ room ss, Below (execAll fuel room ss) (execAll more room ss)

namespace Prolongs

variable {fuel more : Nat} {room : Option Nat}

theorem succ_eval (h : Prolongs fuel more) (e : Expr) :
    Below (Lox.eval (fuel + 1) room e) (Lox.eval (more + 1) room e) := by
  cases e with
  | literal id value => exact .refl _
  | group id inner => exact h.eval room inner
  | unary id op token operand => exact (h.eval room operand).bind fun v => .refl _
  | binary id left op token right =>
    apply (h.eval room right).bind
    intro v
    exact (h.eval room left).bind fun w => .refl _
  | logical id left op token right =>
    apply (h.eval room left).bind
    intro v
    apply (Below.refl _).bind
    intro b
    cases hb : op.settledBy b with
    | true => simpa [hb] using Below.refl _
    | false => simpa [hb] using h.eval room right
  | reference id name => exact .refl _
  | assign id name value => exact (h.eval room value).bind fun v => .refl _
  | call id callee paren arguments =>
    apply (h.eval room callee).bind
    intro v
    apply (h.evalAll room arguments).bind
    intro vs
    exact .apply h.execAll v paren vs room
  | lambda fn => exact .refl _

theorem succ_evalAll (h : Prolongs fuel more) (es : List Expr) :
    Below (Lox.evalAll (fuel + 1) room es) (Lox.evalAll (more + 1) room es) := by
  cases es with
  | nil => exact .refl _
  | cons e es =>
    apply (h.eval room e).bind
    intro v
    exact (h.evalAll room es).bind fun vs => .refl _

/-- A statement does the same with more fuel if its parts do. -/
theorem succ_exec (h : Prolongs fuel more) (s : Stmt) :
    Below (Lox.exec (fuel + 1) room s) (Lox.exec (more + 1) room s) := by
  cases s with
  | expression value => exact (h.eval room value).bind fun v => .refl _
  | print value => exact (h.eval room value).bind fun v => .refl _
  | var name initial =>
    cases initial with
    | none => exact .refl _
    | some initial => exact (h.eval room initial).bind fun v => .refl _
  | block body =>
    apply (Below.refl _).bind
    intro outer
    apply (Below.refl _).bind
    intro frame
    exact (h.execAll room body).within frame
  | branch keyword condition yes no =>
    apply (h.eval room condition).bind
    intro v
    apply (Below.refl _).bind
    intro b
    cases b with
    | true => exact h.exec room yes
    | false =>
      cases no with
      | none => exact .refl _
      | some no => exact h.exec room no
  | loop keyword condition body =>
    apply (h.eval room condition).bind
    intro v
    apply (Below.refl _).bind
    intro b
    cases b with
    | false => exact .refl _
    | true =>
      apply (h.exec room body).bind
      intro c
      cases c with
      | normal => exact h.exec room (.loop keyword condition body)
      | _ => exact .refl _
  | breakLoop keyword => exact .refl _
  | function name fn => exact .refl _
  | giveBack keyword value =>
    cases value with
    | none => exact .refl _
    | some value => exact (h.eval room value).bind fun v => .refl _

theorem succ_execAll (h : Prolongs fuel more) (ss : List Stmt) :
    Below (Lox.execAll (fuel + 1) room ss) (Lox.execAll (more + 1) room ss) := by
  cases ss with
  | nil => exact .refl _
  | cons s ss =>
    apply (h.exec room s).bind
    intro c
    cases c with
    | normal => exact h.execAll room ss
    | _ => exact .refl _

end Prolongs

theorem prolongs {fuel more : Nat} (h : fuel ≤ more) : Prolongs fuel more := by
  induction fuel generalizing more with
  | zero => constructor <;> intros <;> exact .outOfFuel
  | succ fuel ih =>
    obtain ⟨more, rfl⟩ := Nat.exists_eq_add_of_le' (Nat.le_trans (Nat.le_add_left 1 fuel) h)
    have hle := ih (Nat.le_of_succ_le_succ h)
    exact ⟨fun _ => hle.succ_eval, fun _ => hle.succ_evalAll, fun _ => hle.succ_exec,
      fun _ => hle.succ_execAll⟩

end Lox
