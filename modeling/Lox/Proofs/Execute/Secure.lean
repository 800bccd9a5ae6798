import Lox.Proofs.Execute.Safe

/-! Every run goes well that begins with a task that fits, and what it starts fits as well. -/
namespace Lox

open Run
open Resolve (after entered enteredAll)

variable {E E' : Pending → Prop} {n : NodeId} {table : Resolution} {s t : Store} {m : Machine}
  {v : Value} {k k' : Task} {Γ : List LocalScope} {fuel : Nat} {c d : Config}

section Starts

variable {room : Option Nat}

theorem Config.Safe.expr (hm : m.Safe E n) (hk : k.SafeIn E n m Γ) {e : Expr}
    (hp : e.Placed m.resolution Γ) (hi : e.ids ⊆ k.ids) : Config.Safe E n ⟨.expr e, none, m⟩ :=
  ⟨rfl, ⟨Γ, hk.part hp hi nofun⟩, hm⟩

theorem Config.Safe.exprs (hm : m.Safe E n) (hk : k.SafeIn E n m Γ) {es : List Expr}
    (hp : Expr.PlacedAll m.resolution Γ es) (hi : Expr.idsAll es ⊆ k.ids) :
    Config.Safe E n ⟨.exprs es, none, m⟩ :=
  ⟨rfl, ⟨Γ, hk.part hp hi nofun⟩, hm⟩

theorem Config.Safe.stmt (hm : m.Safe E n) (hk : k.SafeIn E n m Γ) {s : Stmt}
    (hp : s.Placed m.resolution Γ) (hi : s.ids ⊆ k.ids) (he : k.executes = true) :
    Config.Safe E n ⟨.stmt s, none, m⟩ :=
  ⟨rfl, ⟨Γ, hk.part hp hi fun _ => he⟩, hm⟩

/-- The body of a function, in a frame that has the arguments. -/
theorem Config.Safe.body {fn : Lambda} {scope : Option FrameId} {vs : List Value} (hm : m.Safe E n)
    (hp : fn.Placed m.resolution Γ) (hn : ∀ id ∈ fn.ids, id < n)
    (hf : Fits E m.store fn.ids scope Γ) (hvs : ∀ v ∈ vs, Fitting E n v m)
    (ha : vs.length = fn.arity) :
    Config.Safe E n ⟨.body fn, none, m.enter scope vs.toArray⟩ := by
  obtain ⟨id, names, body⟩ := fn
  have hi : Stmt.idsAll body ⊆ (Lambda.mk id names body).ids := List.subset_append_left _ _
  have hfits := (hf.subset hi).enter vs.toArray names ha.symm
  exact ⟨rfl, ⟨_, hp, fun id hid => hn id (hi hid), hfits.1, fun _ => hfits.2⟩,
    hm.enter scope fun v hv => hvs v (by simpa using hv)⟩

/-- The statements of a block, in a frame of their own. -/
theorem Config.Safe.block {ss : List Stmt} (hm : m.Safe E n)
    (hk : (Task.stmt (.block ss)).SafeIn E n m Γ) :
    Config.Safe E n ⟨.stmts ss, none, m.enter m.frame #[]⟩ := by
  have hfits := hk.fits.enter #[] [] rfl
  exact ⟨rfl, ⟨_, hk.placed, hk.below, hfits.1, fun _ => hfits.2⟩, hm.enter _ (by simp)⟩

/-- The initial value of a variable, whose declaration has begun. -/
theorem Config.Safe.initial {name : Token} {e : Expr} (hm : m.Safe E n)
    (hk : (Task.stmt (.var name (some e))).SafeIn E n m Γ) :
    Config.Safe (fun p => E p ∨ Declares ⟨.stmt (.var name (some e)), none, m⟩ p) n
      ⟨.expr e, none, m⟩ := by
  refine ⟨rfl, ⟨_, hk.placed, hk.below, ?_, nofun⟩, hm.imp fun _ => Or.inl⟩
  exact Fits.begin (hk.fits.imp fun _ => Or.inl) (hk.roomy rfl) fun i hi => Or.inr (.intro hi)

/-- The statements after one that has completed. -/
theorem Config.Safe.next {s : Stmt} {ss : List Stmt} {t : Machine} (ht : t.Safe E n)
    (hk : (Task.stmts (s :: ss)).SafeIn E n m Γ) (hkeep : m.Keeps t)
    (hs : s.declares = true → ∀ i ∈ m.frame, m.store.slots i < t.store.slots i) :
    Config.Safe E n ⟨.stmts ss, none, t⟩ := by
  have hi : Stmt.idsAll ss ⊆ (Task.stmts (s :: ss)).ids := List.subset_append_right _ _
  have hp : Stmt.PlacedAll t.resolution (after Γ s) ss := hkeep.resolution ▸ hk.placed.2
  have hfits : Fits E t.store (Stmt.idsAll ss) t.frame (after Γ s) ∧
      Roomy t.store t.frame (after Γ s) := by
    rw [hkeep.frame]
    cases hd : s.declares with
    | false =>
      rw [Resolve.after_of_not_declares hd]
      exact ⟨(hk.fits.subset hi).grow hkeep.grows, (hk.roomy rfl).grow hkeep.grows⟩
    | true =>
      cases s with
      | var name _ | function name _ =>
        exact (hk.fits.subset hi).complete name (hk.roomy rfl) hkeep.grows (hs hd)
      | _ => simp [Stmt.declares] at hd
  exact ⟨rfl, ⟨_, hp, fun id hid => hk.below id (hi hid), hfits.1, fun _ => hfits.2⟩, ht⟩

/-- What a safe task starts is safe; within an initial value the declaration is not complete. -/
theorem Starts.safe (h : Secure fuel) (hs : Starts fuel c d) (hc : c.Safe E n) :
    d.Safe (fun p => E p ∨ Declares c p) n := by
  obtain ⟨k, room, m⟩ := c
  obtain ⟨hroom, ⟨Γ, hk⟩, hm⟩ := hc
  obtain rfl : room = none := hroom
  have hp := hk.placed
  have up {d : Config} (hd : d.Safe E n) : d.Safe (fun p => E p ∨ Declares ⟨k, none, m⟩ p) n :=
    hd.imp fun _ => Or.inl
  have part {e : Expr} {v : Value} {t : Machine} (hp : e.Placed m.resolution Γ)
      (hi : e.ids ⊆ k.ids) (hr : Lox.eval fuel none e m = .ok v t) :
      (t.Safe E n ∧ k.SafeIn E n t Γ) ∧ m.Keeps t ∧ Fitting E n v t :=
    have ⟨hkeep, ht, hv⟩ := (h.eval E n e m (.expr hm hk hp hi)).result hr
    ⟨⟨ht, hk.keep hkeep⟩, hkeep, hv⟩
  have inl {as bs : List NodeId} : as ⊆ as ++ bs := List.subset_append_left _ _
  have inr {as bs : List NodeId} : bs ⊆ as ++ bs := List.subset_append_right _ _
  have mid {as bs cs : List NodeId} : bs ⊆ as ++ (bs ++ cs) := fun _ h => inr (inl h)
  cases hs with
  | inner | operand => exact up (.expr hm hk hp inl)
  | right => exact up (.expr hm hk hp.2 mid)
  | left hr =>
    obtain ⟨⟨ht, hk⟩, -, -⟩ := part hp.2 mid hr
    exact up (.expr ht hk hk.placed.1 inl)
  | first => exact up (.expr hm hk hp.1 inl)
  | second hl =>
    obtain ⟨⟨ht, hk⟩, -, -⟩ := part hp.1 inl hl
    exact up (.expr ht hk hk.placed.2 mid)
  | assigned => exact up (.expr hm hk hp.1 inl)
  | callee => exact up (.expr hm hk hp.1 inl)
  | arguments he =>
    obtain ⟨⟨ht, hk⟩, -, -⟩ := part hp.1 inl he
    exact up (.exprs ht hk hk.placed.2 mid)
  | call he hes ha hr =>
    obtain ⟨⟨ht, hk⟩, -, hv⟩ := part hp.1 inl he
    have ⟨hkeep, hu, hvs⟩ :=
      (h.evalAll E n _ _ (.exprs ht hk hk.placed.2 mid)).result hes
    obtain ⟨Δ, hfn, hn, hfits⟩ := hv _ rfl
    obtain rfl : none = _ := by simpa [callRoom?] using hr
    exact up (.body hu (hkeep.resolution ▸ hfn) hn (hfits.grow hkeep.grows) hvs ha)
  | head => exact up (.expr hm hk hp.1 inl)
  | tail he =>
    obtain ⟨⟨ht, hk⟩, -, -⟩ := part hp.1 inl he
    exact up (.exprs ht hk hk.placed.2 inr)
  | expression | print => exact up (.expr hm hk hp fun _ h => h)
  | initial => exact .initial hm hk
  | block => exact up (.block hm hk)
  | condition => exact up (.expr hm hk hp.1 inl)
  | yes he =>
    obtain ⟨⟨ht, hk⟩, -, -⟩ := part hp.1 inl he
    exact up (.stmt ht hk hk.placed.2.1.2 mid rfl)
  | no he =>
    obtain ⟨⟨ht, hk⟩, -, -⟩ := part hp.1 inl he
    exact up (.stmt ht hk hk.placed.2.2.2 (fun _ h => inr (inr h)) rfl)
  | test => exact up (.expr hm hk hp.1 inl)
  | turn he =>
    obtain ⟨⟨ht, hk⟩, -, -⟩ := part hp.1 inl he
    exact up (.stmt ht hk hk.placed.2.2 inr rfl)
  | again he hb =>
    obtain ⟨⟨ht, hk⟩, -, -⟩ := part hp.1 inl he
    obtain ⟨hkeep, hu, -⟩ :=
      (h.exec E n _ _ (.stmt ht hk hk.placed.2.2 inr rfl)).result hb
    have hk := hk.keep hkeep
    exact up (.stmt hu hk hk.placed (fun _ h => h) rfl)
  | value => exact up (.expr hm hk hp fun _ h => h)
  | statement => exact up (.stmt hm hk hp.1 inl rfl)
  | next hs =>
    obtain ⟨hkeep, ht, -, hd⟩ := (h.exec E n _ _ (.stmt hm hk hp.1 inl rfl)).result hs
    exact up (.next ht hk hkeep hd)
  | statements =>
    exact up ⟨rfl, ⟨Γ, hk.part hp (fun _ h => h) fun _ => rfl⟩, hm⟩

end Starts

section Secure

theorem not_declares (h : ∀ name e, c.task ≠ .stmt (.var name (some e))) (p : Pending) :
    ¬ Declares c p := by
  rintro ⟨⟩
  exact h _ _ rfl

/-- A task that is started by a safe one is safe when its turn comes. -/
theorem Secure.start (h : Secure fuel) (hc : c.Safe E n)
    (hd : ∀ name e, c.task ≠ .stmt (.var name (some e))) (hs : Starts fuel c d) : d.Safe E n :=
  (hs.safe h hc).imp fun p hp => hp.resolve_right (not_declares hd p)

/-- A declaration adds a variable, and then counts as complete. -/
theorem goes_define (hm : m.Safe E' n)
    (hE : ∀ p, E' p → E p ∨ m.frame = some p.frame ∧ p.slot ≤ m.store.slots p.frame)
    (hf : ∀ i ∈ m.frame, ∃ f, m.store.frames[i]? = some f)
    (hv : ∀ t, m.store.Grows t → (∀ i ∈ m.frame, m.store.slots i < t.slots i) →
      v.Safe E n m.resolution t) (name : Token) :
    Goes E n c (define name v) m fun _ t => ∀ i ∈ m.frame, m.store.slots i < t.store.slots i := by
  refine ends_define ?_ ?_
  · intro hnone
    have hm : m.Safe E n := hm.imp fun p hp => (hE p hp).resolve_right (by simp [hnone])
    exact ⟨⟨rfl, rfl, .refl _⟩, hm.putGlobal _ (hv _ (.refl _) (by simp [hnone])), by simp [hnone]⟩
  · intro i hi
    obtain ⟨f, hf⟩ := hf i hi
    have hg := Store.grows_define (s := m.store) i v
    have hlt : ∀ j ∈ m.frame, m.store.slots j < (m.store.define i v).slots j := by
      rintro j hj
      obtain rfl : i = j := by simpa [hi] using hj
      simp [Store.slots_define hf]
    refine ⟨⟨rfl, rfl, hg⟩, Machine.Holds.define ?_ i (hv _ hg hlt), hlt⟩
    refine hm.mono fun u hu => hu.mono hg fun p hp => (hE p hp).imp_right ?_
    rintro ⟨hp, hle⟩
    exact Nat.lt_of_le_of_lt hle (hlt _ hp)

/-- A safe expression keeps the machine safe and its value fits there, with more fuel if with less.
-/
theorem secure_eval (h : Secure fuel) {e : Expr} (hc : Config.Safe E n ⟨.expr e, none, m⟩) :
    Goes E n ⟨.expr e, none, m⟩ (eval (fuel + 1) none e) m (Fitting E n) := by
  have go {e' : Expr} {m' : Machine} (hs : Starts fuel ⟨.expr e, none, m⟩ ⟨.expr e', none, m'⟩) :
      Goes E n ⟨.expr e, none, m⟩ (Lox.eval fuel none e') m' (Fitting E n) :=
    (h.eval E n _ _ (h.start hc (by simp) hs)).within (.single ⟨fuel, hs⟩)
  obtain ⟨-, ⟨Γ, hk⟩, hm⟩ := id hc
  cases e with
  | literal id value =>
    simp only [eval]
    exact goes_pure hm (Value.safe_of_ne (by cases value <;> simp [Literal.value]))
  | group id inner =>
    simp only [eval]
    exact go .inner
  | unary id op token operand =>
    simp only [eval]
    refine (go .operand).bind fun v t _ _ ht _ => ?_
    exact ends_lift (fun w hw => ⟨.refl t, ht, Value.safe_of_ne (UnaryOp.apply_ne hw)⟩)
      fun _ => stops_error ht
  | binary id left op token right =>
    simp only [eval]
    refine (go .right).bind fun v t hr _ _ _ => ?_
    refine (go (.left hr)).bind fun w u _ _ hu _ => ?_
    exact ends_lift (fun w hw => ⟨.refl u, hu, Value.safe_of_ne (BinaryOp.apply_ne hw)⟩)
      fun _ => stops_error hu
  | logical id left op token right =>
    simp only [eval]
    refine (go .first).bind fun v t hl _ ht hv => ?_
    refine ends_bind_truth ?_ (stops_error ht)
    rintro b rfl
    cases hb : op.settledBy b with
    | true => exact goes_pure ht hv
    | false => exact go (.second hl hb)
  | reference id name =>
    simp only [eval]
    refine ends_readVariable (fun v _ hv => ⟨.refl m, hm, hm.global hv⟩)
      (fun a f v _ _ hv => ⟨.refl m, hm, hm.read hv⟩) (stops_error hm) fun a ha hnone => ?_
    obtain ⟨i, target, f, hi, hanc, hf, -⟩ := hk.fits.address (hk.placed.symm.trans ha)
    exact Store.read_ne_noFrame hanc hf (hnone i hi)
  | assign id name value =>
    simp only [eval]
    refine (go .assigned).bind fun v t _ hkeep ht hv => ?_
    have hw : Goes E n ⟨.expr (.assign id name value), none, m⟩ (writeVariable id name v) t
        fun _ u => Fitting E n v u := by
      refine ends_writeVariable
        (fun _ _ => ⟨⟨rfl, rfl, .refl _⟩, ht.putGlobal _ hv, hv⟩)
        (fun a f target _ _ _ => ⟨⟨rfl, rfl, Store.grows_set _ _ _⟩, ht.set _ _ hv,
          hv.grow (Store.grows_set _ _ _)⟩) (stops_error ht) fun a ha hnone => ?_
      have hk := hk.keep hkeep
      obtain ⟨i, target, f, hi, hanc, hf, -⟩ := hk.fits.address (hk.placed.2.symm.trans ha)
      have hl := hnone i hi
      rw [Store.locate_of_ancestor? hanc hf a.slot] at hl
      split at hl <;> cases hl
    exact hw.bind fun _ u _ _ hu hv => goes_pure hu hv
  | call id callee paren arguments =>
    simp only [eval]
    refine (go .callee).bind fun v t he _ ht hv => ?_
    refine ((h.evalAll E n _ _ (h.start hc (by simp) (.arguments he))).within
      (.single ⟨fuel, .arguments he⟩)).bind fun vs u hes _ hu hvs => ?_
    refine ends_apply (fun _ => stops_error hu) (by simp [callRoom?])
      ⟨⟨rfl, rfl, .refl _⟩, ⟨hu.locals, hu.globals⟩, nofun⟩ ?_
    rintro c inner rfl ha hr
    obtain rfl : none = inner := by simpa [callRoom?] using hr
    have hbody := h.start hc (by simp) (.call he hes ha hr)
    have hgo := h.execAll E n _ _ (h.start hbody (by simp) .statements)
    refine Ends.mono (hgo.leave (.tail (.single ⟨fuel, .call he hes ha hr⟩) ⟨fuel, .statements⟩))
      ?_ fun _ _ h => h
    rintro completion w ⟨hkeep, hw, hcompletion⟩
    refine ⟨hkeep, hw, ?_⟩
    cases completion with
    | returned v => exact hcompletion v rfl
    | _ => exact nofun
  | lambda fn =>
    simp only [eval]
    refine ⟨⟨rfl, rfl, .refl _⟩, ⟨hm.locals, hm.globals⟩, ?_⟩
    rintro _ ⟨⟩
    exact ⟨Γ, hk.placed, hk.below, hk.fits⟩

theorem secure_evalAll (h : Secure fuel) {es : List Expr}
    (hc : Config.Safe E n ⟨.exprs es, none, m⟩) :
    Goes E n ⟨.exprs es, none, m⟩ (evalAll (fuel + 1) none es) m
      fun vs t => ∀ v ∈ vs, Fitting E n v t := by
  cases es with
  | nil => exact goes_pure hc.machine (by simp)
  | cons e es =>
    simp only [evalAll]
    refine ((h.eval E n _ _ (h.start hc (by simp) .head)).within
      (.single ⟨fuel, .head⟩)).bind fun v t he _ ht hv => ?_
    refine ((h.evalAll E n _ _ (h.start hc (by simp) (.tail he))).within
      (.single ⟨fuel, .tail he⟩)).bind fun vs u _ hkeep hu hvs => ?_
    refine goes_pure hu ?_
    intro w hw
    rcases List.mem_cons.mp hw with rfl | hw
    · have : Value.Safe E n u.resolution t.store w := hkeep.resolution ▸ hv
      exact this.grow hkeep.grows
    · exact hvs w hw

/-- The initial value of a variable is evaluated while its declaration is not complete; an error
there aborts it. -/
theorem goes_initial (h : Secure fuel) {name : Token} {e : Expr}
    (hc : Config.Safe E n ⟨.stmt (.var name (some e)), none, m⟩) :
    Ends (eval fuel none e) m
      (fun v t => m.Keeps t ∧
        t.Safe (fun p => E p ∨ Declares ⟨.stmt (.var name (some e)), none, m⟩ p) n ∧
        Fitting (fun p => E p ∨ Declares ⟨.stmt (.var name (some e)), none, m⟩ p) n v t)
      (Stops E n ⟨.stmt (.var name (some e)), none, m⟩ m) := by
  have init := h.eval _ _ _ _ (Starts.initial.safe h hc)
  simp only [Goes, Ends] at init ⊢
  cases hr : eval fuel none e m with
  | ok v t =>
    rw [hr] at init
    exact init
  | error halt t =>
    rw [hr] at init
    cases halt with
    | error e' =>
      refine ⟨init.1, init.2.imp ?_⟩
      rintro p ((hp | hp) | hp)
      · exact Or.inl hp
      · cases hp with
        | intro hf => exact Or.inr (.intro .refl hf hr)
      · exact Or.inr (hp.lift (.single ⟨fuel, .initial⟩))
    | _ => exact init

/-- A variable gets its initial value, which completes its declaration. -/
theorem goes_var (h : Secure fuel) {name : Token} {e : Expr}
    (hc : Config.Safe E n ⟨.stmt (.var name (some e)), none, m⟩) :
    Goes E n ⟨.stmt (.var name (some e)), none, m⟩ (eval fuel none e >>= define name) m
      fun _ t => ∀ i ∈ m.frame, m.store.slots i < t.store.slots i := by
  obtain ⟨-, ⟨Γ, hk⟩, -⟩ := id hc
  refine Ends.bind (goes_initial h hc) ?_
  rintro v t ⟨hkeep, ht, hv⟩
  have hE : ∀ p, E p ∨ Declares ⟨.stmt (.var name (some e)), none, m⟩ p →
      E p ∨ t.frame = some p.frame ∧ p.slot ≤ t.store.slots p.frame := by
    rintro p (hp | hp)
    · exact Or.inl hp
    · cases hp with
      | intro hf => exact Or.inr ⟨hkeep.frame.trans hf, hkeep.grows.slots _⟩
  have hframe : ∀ i ∈ t.frame, ∃ f, t.store.frames[i]? = some f := by
    intro i hi
    obtain ⟨f, hf⟩ := hk.fits.exists_frame (hkeep.frame ▸ hi)
    obtain ⟨g, hg, -⟩ := hkeep.grows i f hf
    exact ⟨g, hg⟩
  have hdef : Goes E n ⟨.stmt (.var name (some e)), none, m⟩ (define name v) t
      fun _ u => ∀ i ∈ t.frame, t.store.slots i < u.store.slots i := by
    refine goes_define ht hE hframe ?_ name
    intro u hg hlt
    refine hv.mono hg fun p hp => (hE p hp).imp_right ?_
    rintro ⟨hi, hle⟩
    exact Nat.lt_of_le_of_lt hle (hlt _ hi)
  refine (hdef.mono fun _ u _ hlt i hi => ?_).later hkeep
  exact Nat.lt_of_le_of_lt (hkeep.grows.slots i) (hlt i (hkeep.frame.symm ▸ hi))

/-- A function finds itself declared. -/
theorem goes_function {name : Token} {fn : Lambda}
    (hc : Config.Safe E n ⟨.stmt (.function name fn), none, m⟩) :
    Goes E n ⟨.stmt (.function name fn), none, m⟩
      (makeClosure (some name.lexeme) fn >>= define name) m
      fun _ t => ∀ i ∈ m.frame, m.store.slots i < t.store.slots i := by
  obtain ⟨-, ⟨Γ, hk⟩, hm⟩ := id hc
  have hmade : m.Keeps { m with closures := m.closures + 1 } := ⟨rfl, rfl, .refl _⟩
  have hdef : Goes E n ⟨.stmt (.function name fn), none, m⟩
      (define name (.closure ⟨some name.lexeme, fn, m.frame, m.closures⟩))
      { m with closures := m.closures + 1 }
      fun _ t => ∀ i ∈ m.frame, m.store.slots i < t.store.slots i := by
    refine goes_define (m := { m with closures := m.closures + 1 }) ⟨hm.locals, hm.globals⟩
      (fun _ => Or.inl) (fun i hi => hk.fits.exists_frame hi) ?_ name
    rintro t hg hlt _ ⟨⟩
    have hfits := hk.fits.complete name (hk.roomy rfl) hg hlt
    exact ⟨_, hk.placed, hk.below, hfits.1⟩
  exact hdef.later hmade

/-- A statement keeps the machine safe too, and a declaration leaves its frame wider. -/
theorem secure_exec (h : Secure fuel) {s : Stmt} (hc : Config.Safe E n ⟨.stmt s, none, m⟩) :
    Goes E n ⟨.stmt s, none, m⟩ (exec (fuel + 1) none s) m fun c t =>
      (∀ v, c = .returned v → Fitting E n v t) ∧
        (s.declares = true → ∀ i ∈ m.frame, m.store.slots i < t.store.slots i) := by
  have go {e : Expr} {m' : Machine} (hd : ∀ name e, s ≠ .var name (some e))
      (hs : Starts fuel ⟨.stmt s, none, m⟩ ⟨.expr e, none, m'⟩) :
      Goes E n ⟨.stmt s, none, m⟩ (eval fuel none e) m' (Fitting E n) :=
    (h.eval E n _ _ (h.start hc (by simpa using hd) hs)).within (.single ⟨fuel, hs⟩)
  have goExec {s' : Stmt} {m' : Machine} (hd : ∀ name e, s ≠ .var name (some e))
      (hs : Starts fuel ⟨.stmt s, none, m⟩ ⟨.stmt s', none, m'⟩) :
      Goes E n ⟨.stmt s, none, m⟩ (exec fuel none s') m' fun c t =>
        ∀ v, c = .returned v → Fitting E n v t :=
    ((h.exec E n _ _ (h.start hc (by simpa using hd) hs)).within (.single ⟨fuel, hs⟩)).mono
      fun _ _ _ h => h.1
  obtain ⟨-, ⟨Γ, hk⟩, hm⟩ := id hc
  have hframe : ∀ i ∈ m.frame, ∃ f, m.store.frames[i]? = some f :=
    fun i hi => hk.fits.exists_frame hi
  cases s with
  | expression value =>
    simp only [exec]
    exact (go (by simp) .expression).bind fun v t _ _ ht _ => goes_pure ht ⟨nofun, nofun⟩
  | print value =>
    simp only [exec]
    refine (go (by simp) .print).bind fun v t _ _ ht _ => ?_
    exact ⟨⟨rfl, rfl, .refl _⟩, ⟨ht.locals, ht.globals⟩, nofun, nofun⟩
  | var name initial =>
    cases initial with
    | none =>
      simp only [exec]
      refine (goes_define hm (fun _ => Or.inl) hframe
        (fun _ _ _ => Value.safe_of_ne (v := .nil) nofun) name).bind fun _ t _ _ ht hlt => ?_
      exact goes_pure ht ⟨nofun, fun _ => hlt⟩
    | some initial =>
      simp only [exec]
      rw [← bind_assoc]
      exact (goes_var h hc).bind fun _ t _ _ ht hlt => goes_pure ht ⟨nofun, fun _ => hlt⟩
  | block body =>
    simp only [exec]
    have hgo := h.execAll E n _ _ (h.start hc (by simp) .block)
    refine ends_within (Ends.mono (hgo.leave (.single ⟨fuel, .block⟩)) ?_ fun _ _ h => h)
    exact fun c t ht => ⟨ht.1, ht.2.1, ht.2.2, nofun⟩
  | branch keyword condition yes no =>
    simp only [exec]
    refine (go (by simp) .condition).bind fun v t he _ ht _ => ?_
    refine ends_bind_truth ?_ (stops_error ht)
    rintro b rfl
    cases b with
    | true => exact (goExec (by simp) (.yes he)).mono fun _ _ _ h => ⟨h, nofun⟩
    | false =>
      cases no with
      | none => exact goes_pure ht ⟨nofun, nofun⟩
      | some no => exact (goExec (by simp) (.no he)).mono fun _ _ _ h => ⟨h, nofun⟩
  | loop keyword condition body =>
    simp only [exec]
    refine (go (by simp) .test).bind fun v t he _ ht _ => ?_
    refine ends_bind_truth ?_ (stops_error ht)
    rintro b rfl
    cases b with
    | false => exact goes_pure ht ⟨nofun, nofun⟩
    | true =>
      refine (goExec (by simp) (.turn he)).bind fun c u hb _ hu hcompletion => ?_
      cases c with
      | normal => exact (goExec (by simp) (.again he hb)).mono fun _ _ _ h => ⟨h, nofun⟩
      | broke => exact goes_pure hu ⟨nofun, nofun⟩
      | returned v => exact goes_pure hu ⟨hcompletion, nofun⟩
  | breakLoop keyword => exact goes_pure hm ⟨nofun, nofun⟩
  | function name fn =>
    simp only [exec]
    rw [← bind_assoc]
    exact (goes_function hc).bind fun _ t _ _ ht hlt => goes_pure ht ⟨nofun, fun _ => hlt⟩
  | giveBack keyword value =>
    cases value with
    | none =>
      refine goes_pure hm ⟨?_, nofun⟩
      rintro _ ⟨⟩
      exact Value.safe_of_ne nofun
    | some value =>
      simp only [exec]
      refine (go (by simp) .value).bind fun v t _ _ ht hv => goes_pure ht ⟨?_, nofun⟩
      rintro _ ⟨⟩
      exact hv

/-- Statements in order are safe by what each leaves to the next. -/
theorem secure_execAll (h : Secure fuel) {ss : List Stmt}
    (hc : Config.Safe E n ⟨.stmts ss, none, m⟩) :
    Goes E n ⟨.stmts ss, none, m⟩ (execAll (fuel + 1) none ss) m fun c t =>
      ∀ v, c = .returned v → Fitting E n v t := by
  cases ss with
  | nil => exact goes_pure hc.machine nofun
  | cons s ss =>
    simp only [execAll]
    refine ((h.exec E n _ _ (h.start hc (by simp) .statement)).within
      (.single ⟨fuel, .statement⟩)).bind fun c t hs _ ht hcompletion => ?_
    cases c with
    | normal =>
      exact (h.execAll E n _ _ (h.start hc (by simp) (.next hs))).within (.single ⟨fuel, .next hs⟩)
    | broke => exact goes_pure ht nofun
    | returned v => exact goes_pure ht hcompletion.1

theorem secure (fuel : Nat) : Secure fuel := by
  induction fuel with
  | zero => constructor <;> intros <;> trivial
  | succ fuel ih =>
    exact ⟨fun _ _ _ _ => secure_eval ih, fun _ _ _ _ => secure_evalAll ih,
      fun _ _ _ _ => secure_exec ih, fun _ _ _ _ => secure_execAll ih⟩

end Secure

end Lox
