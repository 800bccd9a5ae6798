import Lox.Proofs.Execute.Contents
import Lox.Proofs.Execute.Parts
import Lox.Proofs.Execute.Pending
import Lox.Proofs.Execute.Steps

/-! What it is for a task to fit the machine it is done on, and for a run of it to go well. -/
namespace Lox

open Run
open Resolve (after entered enteredAll)

variable {E E' : Pending → Prop} {n : NodeId} {table : Resolution} {s t : Store} {m : Machine}
  {v : Value}

/-- A function whose scopes fit the frames it was made in. -/
def Value.Safe (E : Pending → Prop) (n : NodeId) (table : Resolution) (s : Store) (v : Value) :
    Prop :=
  ∀ c, v = .closure c →
    ∃ Γ, c.fn.Placed table Γ ∧ (∀ id ∈ c.fn.ids, id < n) ∧ Fits E s c.fn.ids c.scope Γ

/-- A function stays safe while the store grows and declarations complete. -/
theorem Value.Safe.mono (h : v.Safe E n table s) (hg : s.Grows t)
    (hE : ∀ p, E p → E' p ∨ p.slot < t.slots p.frame) : v.Safe E' n table t := by
  intro c hc
  obtain ⟨Γ, hp, hn, hf⟩ := h c hc
  exact ⟨Γ, hp, hn, hf.mono hg (fun _ h => h) hE⟩

theorem Value.Safe.grow (h : v.Safe E n table s) (hg : s.Grows t) : v.Safe E n table t :=
  h.mono hg fun _ h => Or.inl h

theorem Value.safe_of_ne (h : ∀ c, v ≠ .closure c) : v.Safe E n table s :=
  fun c hc => (h c hc).elim

/-- All functions that a machine holds fit. -/
abbrev Machine.Safe (E : Pending → Prop) (n : NodeId) (m : Machine) : Prop :=
  m.Holds (·.Safe E n m.resolution m.store)

namespace Machine.Safe

theorem set (h : m.Safe E n) (frame : FrameId) (slot : Nat)
    (hv : v.Safe E n m.resolution m.store) :
    Machine.Safe E n { m with store := m.store.set frame slot v } :=
  (Machine.Holds.set h frame slot hv).mono fun _ hu => hu.grow (Store.grows_set frame slot v)

theorem enter (h : m.Safe E n) (enclosing : Option FrameId) {values : Array Value}
    (hv : ∀ v ∈ values, v.Safe E n m.resolution m.store) :
    (m.enter enclosing values).Safe E n :=
  (Machine.Holds.enter h enclosing hv).mono fun _ hu => hu.grow (Store.grows_push _)

theorem imp (h : m.Safe E n) (hE : ∀ p, E p → E' p) : m.Safe E' n :=
  h.mono fun _ hu => hu.mono (.refl _) fun p hp => Or.inl (hE p hp)

end Machine.Safe

/-- The places of a task in a program. -/
def Task.Placed (table : Resolution) (Γ : List LocalScope) : Task → Prop
  | .expr e => e.Placed table Γ
  | .exprs es => Expr.PlacedAll table Γ es
  | .stmt s => s.Placed table Γ
  | .stmts ss => Stmt.PlacedAll table Γ ss
  | .body fn => Stmt.PlacedAll table Γ fn.body

/-- Whether a task may declare variables in the innermost frame. -/
def Task.executes : Task → Bool
  | .expr _ | .exprs _ => false
  | _ => true

/-- The scopes of a task fit the frames of a machine. -/
structure Task.SafeIn (E : Pending → Prop) (n : NodeId) (m : Machine) (Γ : List LocalScope)
    (k : Task) : Prop where
  placed : k.Placed m.resolution Γ
  below : ∀ id ∈ k.ids, id < n
  fits : Fits E m.store k.ids m.frame Γ
  roomy : k.executes = true → Roomy m.store m.frame Γ

variable {k k' : Task} {Γ : List LocalScope}

theorem Task.SafeIn.keep (h : k.SafeIn E n m Γ) {t : Machine} (hk : m.Keeps t) :
    k.SafeIn E n t Γ where
  placed := hk.resolution ▸ h.placed
  below := h.below
  fits := hk.frame ▸ h.fits.grow hk.grows
  roomy := fun he => hk.frame ▸ (h.roomy he).grow hk.grows

/-- A part of a task in the same scopes. -/
theorem Task.SafeIn.part (h : k.SafeIn E n m Γ) (hp : k'.Placed m.resolution Γ)
    (hi : k'.ids ⊆ k.ids) (he : k'.executes = true → k.executes = true) : k'.SafeIn E n m Γ where
  placed := hp
  below := fun id hid => h.below id (hi hid)
  fits := h.fits.subset hi
  roomy := fun hk => h.roomy (he hk)

theorem Task.SafeIn.imp (h : k.SafeIn E n m Γ) (hE : ∀ p, E p → E' p) : k.SafeIn E' n m Γ :=
  { h with fits := h.fits.imp hE }

/-- A task fits the machine it is done on, and so do the functions there. Calls may be nested
without limit. -/
structure Config.Safe (E : Pending → Prop) (n : NodeId) (c : Config) : Prop where
  room : c.room = none
  task : ∃ Γ, c.task.SafeIn E n c.machine Γ
  machine : c.machine.Safe E n

theorem Config.Safe.imp {c : Config} (h : c.Safe E n) (hE : ∀ p, E p → E' p) : c.Safe E' n :=
  ⟨h.room, h.task.imp fun _ ht => ht.imp hE, h.machine.imp hE⟩

/-- The execution of a local declaration with an initial value. -/
inductive Declares : Config → Pending → Prop
  | intro {name e room m frame} (hf : m.frame = some frame) :
    Declares ⟨.stmt (.var name (some e)), room, m⟩ ⟨frame, m.store.slots frame, name.lexeme, e.ids⟩

/-- A declaration within `c` whose initial value is still being evaluated at `d`. -/
inductive Open (c d : Config) : Pending → Prop
  | intro {name e room m frame} (hr : Reaches c ⟨.stmt (.var name (some e)), room, m⟩)
    (hf : m.frame = some frame) (hd : Reaches ⟨.expr e, room, m⟩ d) :
    Open c d ⟨frame, m.store.slots frame, name.lexeme, e.ids⟩

/-- A declaration within `c` whose initial value was given up because of an error. -/
inductive Aborted (c : Config) : Pending → Prop
  | intro {name e room m frame fuel error t} (hr : Reaches c ⟨.stmt (.var name (some e)), room, m⟩)
    (hf : m.frame = some frame) (he : eval fuel room e m = .error (.error error) t) :
    Aborted c ⟨frame, m.store.slots frame, name.lexeme, e.ids⟩

theorem Aborted.lift {c d : Config} {p : Pending} (h : Aborted d p) (hr : Reaches c d) :
    Aborted c p := by
  obtain ⟨hd, hf, he⟩ := h
  exact .intro (hr.trans hd) hf he

/-- How a run within `c` that begins at `m` may stop: by an error of the program, which leaves
behind the declarations it aborts, or because it is not followed to its end. -/
def Stops (E : Pending → Prop) (n : NodeId) (c : Config) (m : Machine) (halt : Halt) (t : Machine) :
    Prop :=
  match halt with
  | .error _ => m.Keeps t ∧ t.Safe (fun p => E p ∨ Aborted c p) n
  | .outOfFuel => True
  | _ => False

/-- A run within `c` that begins at `m` goes well. -/
def Goes (E : Pending → Prop) (n : NodeId) (c : Config) {α : Type} (x : Run α) (m : Machine)
    (ok : α → Machine → Prop) : Prop :=
  Ends x m (fun a t => m.Keeps t ∧ t.Safe E n ∧ ok a t) (Stops E n c m)

section Goes

variable {c d : Config} {α β : Type} {x : Run α} {f : α → Run β} {ok : α → Machine → Prop}
  {ok' : β → Machine → Prop}

/-- A run goes as well for one that came before it. -/
theorem Goes.later {t : Machine} (h : Goes E n c x t ok) (hk : m.Keeps t) :
    Ends x t (fun a u => m.Keeps u ∧ u.Safe E n ∧ ok a u) (Stops E n c m) := by
  refine Ends.mono h (fun _ _ h => ⟨hk.trans h.1, h.2⟩) ?_
  rintro halt u h
  cases halt with
  | error e => exact ⟨hk.trans h.1, h.2⟩
  | _ => exact h

/-- A run goes well if its first part does, and its second part from wherever that leads. -/
theorem Goes.bind (hx : Goes E n c x m ok)
    (hf : ∀ a t, x m = .ok a t → m.Keeps t → t.Safe E n → ok a t → Goes E n c (f a) t ok') :
    Goes E n c (x >>= f) m ok' :=
  Ends.bind_run hx fun a t hr h => (hf a t hr h.1 h.2.1 h.2.2).later h.1

/-- A run in a new frame, once the former one is put back. -/
theorem Goes.leave {enclosing : Option FrameId} {values : Array Value}
    (h : Goes E n d x (m.enter enclosing values) ok) (hr : Reaches c d) :
    Ends x (m.enter enclosing values)
      (fun a t => m.Keeps { t with frame := m.frame } ∧
        Machine.Safe E n { t with frame := m.frame } ∧ ok a t)
      fun halt t => Stops E n c m halt { t with frame := m.frame } := by
  refine Ends.mono h ?_ ?_
  · exact fun _ t ht => ⟨ht.1.leave, ⟨ht.2.1.locals, ht.2.1.globals⟩, ht.2.2⟩
  · rintro halt t hstop
    cases halt with
    | error e =>
      refine ⟨hstop.1.leave, Machine.Holds.mono ⟨hstop.2.locals, hstop.2.globals⟩ ?_⟩
      exact fun v hv => hv.mono (.refl _) fun p hp => Or.inl (hp.imp_right fun hp => hp.lift hr)
    | _ => exact hstop

/-- What a started task aborts is aborted within the task that starts it. -/
theorem Goes.within (hx : Goes E n d x m ok) (hr : Reaches c d) : Goes E n c x m ok := by
  refine Ends.mono hx (fun _ _ h => h) ?_
  rintro halt t h
  cases halt with
  | error e => exact ⟨h.1, h.2.imp fun p hp => hp.imp_right fun h => h.lift hr⟩
  | _ => exact h

theorem Goes.mono {ok' : α → Machine → Prop} (hx : Goes E n c x m ok)
    (h : ∀ a t, m.Keeps t → ok a t → ok' a t) : Goes E n c x m ok' :=
  Ends.mono hx (fun _ _ ha => ⟨ha.1, ha.2.1, h _ _ ha.1 ha.2.2⟩) fun _ _ h => h

theorem Goes.result {a : α} {t : Machine} (h : Goes E n c x m ok) (hr : x m = .ok a t) :
    m.Keeps t ∧ t.Safe E n ∧ ok a t := by
  simp only [Goes, Ends, hr] at h
  exact h

theorem goes_pure {a : α} (hm : m.Safe E n) (h : ok a m) : Goes E n c (pure a) m ok :=
  ⟨.refl m, hm, h⟩

/-- The way out of a step that fails. -/
theorem stops_error (hm : m.Safe E n) {e : RuntimeError} : Stops E n c m (.error e) m :=
  ⟨.refl m, hm.imp fun _ => Or.inl⟩

end Goes

/-- A value that fits the machine that a run leaves. -/
abbrev Fitting (E : Pending → Prop) (n : NodeId) (v : Value) (t : Machine) : Prop :=
  v.Safe E n t.resolution t.store

/-- How evaluations and executions go that have no more than `fuel`. A declaration that is complete
has added a variable. -/
structure Secure (fuel : Nat) : Prop where
  eval : ∀ E n e m, Config.Safe E n ⟨.expr e, none, m⟩ →
    Goes E n ⟨.expr e, none, m⟩ (eval fuel none e) m (Fitting E n)
  evalAll : ∀ E n es m, Config.Safe E n ⟨.exprs es, none, m⟩ →
    Goes E n ⟨.exprs es, none, m⟩ (evalAll fuel none es) m fun vs t => ∀ v ∈ vs, Fitting E n v t
  exec : ∀ E n s m, Config.Safe E n ⟨.stmt s, none, m⟩ →
    Goes E n ⟨.stmt s, none, m⟩ (exec fuel none s) m fun c t =>
      (∀ v, c = .returned v → Fitting E n v t) ∧
        (s.declares = true → ∀ i ∈ m.frame, m.store.slots i < t.store.slots i)
  execAll : ∀ E n ss m, Config.Safe E n ⟨.stmts ss, none, m⟩ →
    Goes E n ⟨.stmts ss, none, m⟩ (execAll fuel none ss) m fun c t =>
      ∀ v, c = .returned v → Fitting E n v t

end Lox
