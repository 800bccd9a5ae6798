import Lox.Proofs.Reference.Agreement

/-! Both interpreters go through a program in step, as long as neither is out of fuel before the
other: every run of the one is a run of the other, and they end alike. -/
namespace Lox.Reference

open Resolve (declared entered enteredAll after New)

variable {β β' : Layout} {n : NodeId} {table : Resolution} {m m' : Machine} {t t' : State}
  {frame : Option FrameId} {Γ : List LocalScope} {scope : Scope} {own : Option FrameId}
  {placed placed' faultless faultless' : Prop} {ids ids' : List NodeId} {fuel : Nat}

/-- Code that is placed and not at fault, with identities that have been given out. -/
structure Fine (n : NodeId) (placed faultless : Prop) (ids : List NodeId) : Prop where
  placed : placed
  faultless : faultless
  below : ∀ id ∈ ids, id < n

theorem Fine.part (h : Fine n placed faultless ids) (hp : placed → placed')
    (hf : faultless → faultless') (hi : ids' ⊆ ids) : Fine n placed' faultless' ids' :=
  ⟨hp h.placed, hf h.faultless, fun id hid => h.below id (hi hid)⟩

theorem after_ne_nil (s : Stmt) (h : Γ ≠ []) : after Γ s ≠ [] := by
  cases Γ with
  | nil => exact absurd rfl h
  | cons scope outer => cases s <;> exact List.cons_ne_nil _ _

theorem enteredAll_ne_nil {S : LocalScope} (params : List Token) :
    enteredAll params (S :: Γ) ≠ [] := by
  induction params generalizing S with
  | nil => exact List.cons_ne_nil _ _
  | cons name params ih => exact ih

/-- Where nothing is declared it does not matter whether there is a scope. -/
theorem undeclared {s : Stmt} {P : Prop} (h : s.declares = false) : s.declares = true → P := by
  simp [h]

/-- How both interpreters go through code with `fuel`. Only the innermost frame gets variables. -/
structure InStep (fuel : Nat) : Prop where
  eval : ∀ {n table frame Γ scope β m t} {e : Expr}, Here n table frame Γ scope β m t →
    Fine n (e.Placed table Γ) (e.Faultless Γ) e.ids →
    Agree none n β (Lox.eval fuel none e) m (eval fuel scope e) t fun β' m' => Same β' n m'
  evalAll : ∀ {n table frame Γ scope β m t} {es : List Expr}, Here n table frame Γ scope β m t →
    Fine n (Expr.PlacedAll table Γ es) (Expr.FaultlessAll Γ es) (Expr.idsAll es) →
    Agree none n β (Lox.evalAll fuel none es) m (evalAll fuel scope es) t
      fun β' m' => List.Forall₂ (Same β' n m')
  exec : ∀ {n table frame Γ scope β m t context} {s : Stmt}, Here n table frame Γ scope β m t →
    Level β m.store frame Γ → (s.declares = true → Γ = [] → scope = none) →
    Fine n (s.Placed table Γ) (s.Faultless context Γ) s.ids →
    Agree frame n β (Lox.exec fuel none s) m (exec fuel scope s) t
      (Executed n frame (after Γ s))
  execAll : ∀ {n table frame Γ scope β m t context} {ss : List Stmt},
    Here n table frame Γ scope β m t → Level β m.store frame Γ → Γ ≠ [] →
    Fine n (Stmt.PlacedAll table Γ ss) (Stmt.FaultlessAll context Γ ss) (Stmt.idsAll ss) →
    Agree frame n β (Lox.execAll fuel none ss) m (execAll fuel scope ss) t
      fun β' m' => SameCompletion (Same β' n m')

section Calls

variable {v : Value} {w : Value Scope} {values : List Value} {values' : List (Value Scope)}
  {paren : Token}

theorem SameCompletion.result {c : Completion} {d : Completion Scope}
    (h : SameCompletion (Same β n m) c d) : Same β n m (Lox.Run.result c) (Lox.Run.result d) := by
  cases h with
  | returned h => exact h
  | _ => exact .nil

theorem reference_apply_closure {c : Closure Scope} (ha : values'.length = c.fn.arity)
    (body : Scope → List Stmt → Run (Completion Scope)) :
    Run.apply (.closure c) paren values' body = (do
      let names ← Run.bindAll c.fn.params values' (c.scope.getD [])
      let completion ← body (some names) c.fn.body
      return Lox.Run.result completion) := by
  simp only [Run.apply, Value.arity?, ha, ne_eq, not_true_eq_false, if_false]
  congr 1
  funext names
  congr 1
  funext completion
  cases completion <;> rfl

theorem apply_wrongArity {arity : Nat} (ha : v.arity? = some arity) (hne : values.length ≠ arity)
    (body : Option Nat → List Stmt → Lox.Run Completion) :
    Lox.Run.apply v paren values none body m =
      .error (.error ⟨.wrongArity arity values.length, paren⟩) m := by
  simp only [Lox.Run.apply, ha, ne_eq, hne, not_false_eq_true, if_true]
  rfl

theorem reference_apply_wrongArity {arity : Nat} (ha : w.arity? = some arity)
    (hne : values'.length ≠ arity) (body : Scope → List Stmt → Run (Completion Scope)) :
    Run.apply w paren values' body t =
      .error (.error ⟨.wrongArity arity values'.length, paren⟩) t := by
  simp only [Run.apply, ha, ne_eq, hne, not_false_eq_true, if_true]
  rfl

/-- Asking the clock. -/
theorem agree_readClock (h : Simulates β n m t) :
    Agree none n β Lox.Run.readClock m Run.readClock t fun β' m' => Same β' n m' := by
  have hx : Lox.Run.readClock m = .ok (.number (m.clock m.ticks)) { m with ticks := m.ticks + 1 } :=
    rfl
  have hy : Run.readClock t = .ok (.number (m.clock m.ticks)) { t with ticks := t.ticks + 1 } := by
    rw [h.clock, h.ticks]
    rfl
  have hsim : Simulates β n { m with ticks := m.ticks + 1 } { t with ticks := t.ticks + 1 } :=
    { h with ticks := congrArg (· + 1) h.ticks }
  exact agree_step hx hy ⟨rfl, .of_store_eq rfl rfl, hsim⟩ (.number _)

/-- A call binds the arguments on both sides before its body is run. -/
theorem agree_apply (ih : InStep fuel) (h : Simulates β n m t) (hv : Same β n m v w)
    (hvs : List.Forall₂ (Same β n m) values values') :
    Agree none n β (Lox.Run.apply v paren values none (Lox.execAll fuel)) m
      (Run.apply w paren values' (execAll fuel)) t fun β' m' => Same β' n m' := by
  have hlen := hvs.length_eq
  by_cases hwrong : ∃ arity, v.arity? = some arity ∧ values.length ≠ arity
  · obtain ⟨arity, ha, hne⟩ := hwrong
    simp only [Agree, apply_wrongArity ha hne,
      reference_apply_wrongArity (hv.arity?.symm.trans ha) (hlen ▸ hne), hlen]
    exact ⟨trivial, trivial, trivial, β, h⟩
  cases hv with
  | native f =>
    have ha : values.length = f.arity :=
      Decidable.byContradiction fun hne => hwrong ⟨_, rfl, hne⟩
    have hx : Lox.Run.apply (.native f) paren values none (Lox.execAll fuel) =
        Lox.Run.readClock := by simp [Lox.Run.apply, Value.arity?, ha]
    have hy : Run.apply (.native f) paren values' (execAll fuel) = Run.readClock := by
      simp [Run.apply, Value.arity?, ← hlen, ha]
    rw [hx, hy]
    exact agree_readClock h
  | @closure name fn frame scope identity Γ hp hf hn ht =>
    obtain ⟨id, params, body⟩ := fn
    have ha : values.length = params.length :=
      Decidable.byContradiction fun hne => hwrong ⟨_, rfl, hne⟩
    have ha' : values'.length = params.length := hlen.symm.trans ha
    rw [Lox.Run.apply_closure (c := ⟨name, .mk id params body, frame, identity⟩) ha rfl,
      reference_apply_closure (c := ⟨name, .mk id params body, scope, identity⟩) ha']
    obtain ⟨β₁, t₁, names, hrun, hhere, hlevel, hext⟩ := exists_enter h ht hf.1 hvs ha
    have hbody := ih.execAll hhere hlevel (enteredAll_ne_nil params)
      ⟨hp, hf.2, fun id hid => hn id (List.mem_append_left _ hid)⟩
    have hcall : Agree none n β
        (do
          let frame ← Lox.Run.newFrame frame values.toArray
          Lox.Run.within frame (Lox.execAll fuel none body)) m (execAll fuel (some names) body) t₁
        fun β' m' => SameCompletion (Same β' n m') := hbody.within hext fun _ _ _ _ h => h
    refine Agree.after (hcall.next fun β' m' t' c d ho hcd => ?_) hrun (.refl none β m)
    exact agree_pure ho.sim hcd.result
  | _ => exact agree_fail h _ _

end Calls

section Steps

variable {context : Resolve.Context}

/-- A function is made where it stands. -/
theorem agree_makeClosure {fn : Lambda} (h : Here n table frame Γ scope β m t)
    (hf : Fine n (fn.Placed table Γ) (fn.Faultless Γ) fn.ids) (name : Option String) :
    Agree none n β (Lox.Run.makeClosure name fn) m (Run.makeClosure name fn scope) t
      fun β' m' => Same β' n m' := by
  have hx : Lox.Run.makeClosure name fn m =
      .ok (.closure ⟨name, fn, m.frame, m.closures⟩) { m with closures := m.closures + 1 } := rfl
  have hy : Run.makeClosure name fn scope t =
      .ok (.closure ⟨name, fn, scope, m.closures⟩) { t with closures := t.closures + 1 } := by
    rw [h.sim.closures]
    rfl
  have hsame : Same β n m (.closure ⟨name, fn, m.frame, m.closures⟩)
      (.closure ⟨name, fn, scope, m.closures⟩) :=
    .closure (h.resolution ▸ hf.placed) hf.faultless hf.below (h.frame ▸ h.tied)
  have hsim : Simulates β n { m with closures := m.closures + 1 }
      { t with closures := t.closures + 1 } :=
    { h.sim with closures := congrArg (· + 1) h.sim.closures }
  exact agree_step hx hy ⟨rfl, .of_store_eq rfl rfl, hsim⟩ hsame

/-- Every expression is evaluated alike, with more fuel if with less. -/
theorem agree_eval (ih : InStep fuel) {e : Expr} (h : Here n table frame Γ scope β m t)
    (hf : Fine n (e.Placed table Γ) (e.Faultless Γ) e.ids) :
    Agree none n β (Lox.eval (fuel + 1) none e) m (eval (fuel + 1) scope e) t
      fun β' m' => Same β' n m' := by
  have htied : Tied β m.store m.frame Γ scope := h.frame ▸ h.tied
  cases e with
  | literal id value => exact agree_pure h.sim (same_literal value)
  | group id inner => exact ih.eval h (hf.part (·) (·) (by simp [Expr.ids]))
  | unary id op token operand =>
    simp only [Lox.eval, eval]
    have hoperand := ih.eval (e := operand) h (hf.part (·) (·) (by simp [Expr.ids]))
    refine hoperand.next fun β₁ m₁ t₁ v w ho hvw => ?_
    exact agree_lift ho.sim (hvw.unary op) token
  | binary id left op token right =>
    simp only [Lox.eval, eval]
    refine (ih.eval h (hf.part (·.2) (·.2) (by simp [Expr.ids]))).next
      fun β₁ m₁ t₁ v₁ w₁ ho₁ h₁ => ?_
    have hleft := ih.eval (h.onward ho₁) (hf.part (·.1) (·.1) (by simp [Expr.ids]))
    refine hleft.next fun β₂ m₂ t₂ v₂ w₂ ho₂ h₂ => ?_
    exact agree_lift ho₂.sim (h₂.binary (h₁.extend ho₂.extend) op) token
  | logical id left op token right =>
    simp only [Lox.eval, eval]
    refine (ih.eval h (hf.part (·.1) (·.1) (by simp [Expr.ids]))).next
      fun β₁ m₁ t₁ v w ho hvw => ?_
    refine agree_truth ho.sim hvw fun b => ?_
    cases op.settledBy b with
    | true => exact agree_pure ho.sim hvw
    | false => exact ih.eval (h.onward ho) (hf.part (·.2) (·.2) (by simp [Expr.ids]))
  | reference id name =>
    have ha : Resolve.At m.resolution Γ id name := h.resolution ▸ hf.placed
    exact agree_readVariable h.sim htied ha
  | assign id name value =>
    simp only [Lox.eval, eval]
    have hvalue := ih.eval (e := value) h (hf.part (·.1) (·) (by simp [Expr.ids]))
    refine hvalue.next fun β₁ m₁ t₁ v w ho hvw => ?_
    have h₁ := h.onward ho
    have hwrite : Agree none n β₁ (Lox.Run.writeVariable id name v) m₁
        (Run.writeVariable scope name w) t₁ fun _ _ _ _ => True :=
      agree_writeVariable h₁.sim (h₁.frame ▸ h₁.tied) (h₁.resolution ▸ hf.placed.2) hvw
    refine hwrite.next fun β₂ m₂ t₂ _ _ ho₂ _ => ?_
    exact agree_pure ho₂.sim (hvw.extend ho₂.extend)
  | call id callee paren arguments =>
    simp only [Lox.eval, eval]
    refine (ih.eval h (hf.part (·.1) (·.1) (by simp [Expr.ids]))).next
      fun β₁ m₁ t₁ v w ho₁ hvw => ?_
    have hargs := ih.evalAll (h.onward ho₁) (hf.part (·.2) (·.2) (by simp [Expr.ids]))
    refine hargs.next fun β₂ m₂ t₂ vs ws ho₂ hvs => ?_
    exact agree_apply ih ho₂.sim (hvw.extend ho₂.extend) hvs
  | lambda fn => exact agree_makeClosure h (hf.part (·) (·) (List.Subset.refl _)) none

theorem agree_evalAll (ih : InStep fuel) {es : List Expr} (h : Here n table frame Γ scope β m t)
    (hf : Fine n (Expr.PlacedAll table Γ es) (Expr.FaultlessAll Γ es) (Expr.idsAll es)) :
    Agree none n β (Lox.evalAll (fuel + 1) none es) m (evalAll (fuel + 1) scope es) t
      fun β' m' => List.Forall₂ (Same β' n m') := by
  cases es with
  | nil => exact agree_pure h.sim .nil
  | cons e es =>
    simp only [Lox.evalAll, evalAll]
    refine (ih.eval h (hf.part (·.1) (·.1) (by simp [Expr.idsAll]))).next
      fun β₁ m₁ t₁ v w ho₁ hvw => ?_
    have hrest := ih.evalAll (h.onward ho₁) (hf.part (·.2) (·.2) (by simp [Expr.idsAll]))
    refine hrest.next fun β₂ m₂ t₂ vs ws ho₂ hvs => ?_
    exact agree_pure ho₂.sim (.cons (hvw.extend ho₂.extend) hvs)

/-- A statement that declares nothing and leaves the innermost frame alone. -/
theorem Here.executed {c : Completion} {d : Completion Scope} (h : Here n table frame Γ scope β m t)
    (hl : Level β m.store frame Γ) (ho : Onward none n β m β' m' t')
    (hc : SameCompletion (Same β' n m') c d) : Executed n frame Γ β' m' c (d, scope) :=
  ⟨hc, (h.onward ho).tied, hl.extend ho.extend h.tied.exists_frame⟩

/-- The next statement. -/
theorem Here.next {Δ : List LocalScope} {c : Completion} {d : Completion Scope} {inner : Scope}
    (h : Here n table frame Γ scope β m t) (ho : Onward own n β m β' m' t')
    (hx : Executed n frame Δ β' m' c (d, inner)) : Here n table frame Δ inner β' m' t' :=
  ⟨ho.sim, hx.tied, (h.onward ho).frame, (h.onward ho).resolution⟩

theorem Simulates.print (h : Simulates β n m t) (text : String) :
    Simulates β n (m.print text) (t.print text) := by
  refine { h with out := ?_ }
  simp only [Machine.print, State.print, h.out]

theorem agree_print (h : Simulates β n m t) (text : String) :
    Agree none n β (Lox.Run.print text) m (Run.print text) t fun _ _ _ _ => True := by
  exact agree_step rfl rfl ⟨rfl, .of_store_eq rfl rfl, h.print text⟩ trivial

/-- In a new frame there is a scope without names of its own. -/
theorem Here.enter (h : Here n table frame Γ scope β m t) :
    Here n table (some m.store.frames.size) (.empty :: Γ) (some (scope.getD [])) β
      (m.enter m.frame #[]) t := by
  have htied : Tied β m.store m.frame Γ scope := h.frame ▸ h.tied
  exact ⟨h.sim.enter m.frame, htied.enter #[], rfl, h.resolution⟩

/-- A block ends with the frame and the scope it began with. -/
theorem agree_block (ih : InStep fuel) {body : List Stmt} (h : Here n table frame Γ scope β m t)
    (hl : Level β m.store frame Γ)
    (hf : Fine n (Stmt.PlacedAll table (.empty :: Γ) body)
      (Stmt.FaultlessAll context (.empty :: Γ) body) (Stmt.idsAll body)) :
    Agree none n β
      (do
        let frame ← Lox.Run.newFrame m.frame #[]
        Lox.Run.within frame (Lox.execAll fuel none body))
      m (do let c ← execAll fuel (some (scope.getD [])) body; return (c, scope)) t
      (Executed n frame Γ) := by
  have hbody := ih.execAll h.enter (Level.enter h.sim m.frame) (List.cons_ne_nil _ _) hf
  have hwithin : Agree none n β
      (do
        let frame ← Lox.Run.newFrame m.frame #[]
        Lox.Run.within frame (Lox.execAll fuel none body))
      m (execAll fuel (some (scope.getD [])) body) t
      fun β' m' => SameCompletion (Same β' n m') := hbody.within (.refl _ _ _) fun _ _ _ _ h => h
  have hreturn : Agree none n β
      ((do
        let frame ← Lox.Run.newFrame m.frame #[]
        Lox.Run.within frame (Lox.execAll fuel none body)) >>= pure)
      m (do let c ← execAll fuel (some (scope.getD [])) body; return (c, scope)) t
      (Executed n frame Γ) :=
    hwithin.next fun β' m' t' c d ho hcd => agree_pure ho.sim (h.executed hl ho hcd)
  simpa only [bind_pure] using hreturn

/-- A condition is evaluated, and must be a boolean. -/
theorem agree_condition {condition : Expr} {keyword : Token} {f : Bool → Lox.Run Completion}
    {g : Bool → Run (Completion Scope × Scope)}
    {rel : Layout → Machine → Completion → Completion Scope × Scope → Prop} (ih : InStep fuel)
    (h : Here n table frame Γ scope β m t) (hl : Level β m.store frame Γ)
    (hf : Fine n (condition.Placed table Γ) (condition.Faultless Γ) condition.ids)
    (hfg : ∀ b β' m' t', Here n table frame Γ scope β' m' t' → Level β' m'.store frame Γ →
      Agree frame n β' (f b) m' (g b) t' rel) :
    Agree frame n β
      (do
        let value ← Lox.eval fuel none condition
        let b ← Lox.Run.truth value .conditionNotBoolean keyword
        f b) m
      (do
        let value ← eval fuel scope condition
        let b ← Run.truth value .conditionNotBoolean keyword
        g b) t rel := by
  refine (ih.eval h hf).next fun β' m' t' v w ho hvw => ?_
  have hl' := hl.extend ho.extend h.tied.exists_frame
  exact agree_truth ho.sim hvw fun b => hfg b β' m' t' (h.onward ho) hl'

/-- Every statement is executed alike; a declaration takes the next slot and a new cell. -/
theorem agree_exec (ih : InStep fuel) {s : Stmt} (h : Here n table frame Γ scope β m t)
    (hl : Level β m.store frame Γ) (hs : s.declares = true → Γ = [] → scope = none)
    (hf : Fine n (s.Placed table Γ) (s.Faultless context Γ) s.ids) :
    Agree frame n β (Lox.exec (fuel + 1) none s) m (exec (fuel + 1) scope s) t
      (Executed n frame (after Γ s)) := by
  cases s with
  | expression value =>
    simp only [Lox.exec, exec]
    refine (ih.eval h (hf.part (·) (·) (List.Subset.refl _))).next
      fun β₁ m₁ t₁ v w ho hvw => ?_
    exact agree_pure ho.sim (h.executed hl ho .normal)
  | print value =>
    simp only [Lox.exec, exec]
    refine (ih.eval h (hf.part (·) (·) (List.Subset.refl _))).next
      fun β₁ m₁ t₁ v w ho hvw => ?_
    rw [hvw.text]
    refine (agree_print ho.sim w.text).next fun β₂ m₂ t₂ _ _ ho₂ _ => ?_
    exact agree_pure ho₂.sim ((h.onward ho).executed (hl.extend ho.extend h.tied.exists_frame) ho₂
      .normal)
  | var name initial =>
    have hnew : Resolve.New Γ name := hf.faultless.1
    cases initial with
    | none =>
      simp only [Lox.exec, exec]
      exact agree_declare (x := pure .nil) (y := fun _ => pure .nil) h hl (hs rfl) hnew
        fun β₁ t₁ inner h₁ => agree_pure h₁.sim .nil
    | some initial =>
      simp only [Lox.exec, exec]
      exact agree_declare (y := fun inner => eval fuel inner initial) h hl (hs rfl) hnew
        fun β₁ t₁ inner h₁ => ih.eval h₁ (hf.part (·) (·.2) (List.Subset.refl _))
  | block body =>
    simp only [Lox.exec, exec]
    exact (agree_block ih h hl (hf.part (·) (·) (List.Subset.refl _))).imp nofun
      fun _ _ _ _ _ _ h => h
  | branch keyword condition yes no =>
    simp only [Lox.exec, exec]
    have hcondition : Fine n (condition.Placed table Γ) (condition.Faultless Γ) condition.ids :=
      hf.part (·.1) (·.1) (by simp [Stmt.ids])
    refine agree_condition ih h hl hcondition fun b β₁ m₁ t₁ h₁ hl₁ => ?_
    cases b with
    | true =>
      have hyes := ih.exec h₁ hl₁ (undeclared hf.placed.2.1.1)
        (hf.part (·.2.1.2) (·.2.1) (by simp [Stmt.ids]))
      rwa [Resolve.after_of_not_declares hf.placed.2.1.1] at hyes
    | false =>
      cases no with
      | none => exact agree_pure h₁.sim ⟨.normal, h₁.tied, hl₁⟩
      | some no =>
        have hno := ih.exec (s := no) h₁ hl₁ (undeclared hf.placed.2.2.1)
          (hf.part (·.2.2.2) (·.2.2) (by simp [Stmt.ids, Stmt.ids?]))
        rwa [Resolve.after_of_not_declares hf.placed.2.2.1] at hno
  | loop keyword condition body =>
    simp only [Lox.exec, exec]
    have hcondition : Fine n (condition.Placed table Γ) (condition.Faultless Γ) condition.ids :=
      hf.part (·.1) (·.1) (by simp [Stmt.ids])
    refine agree_condition ih h hl hcondition fun b β₁ m₁ t₁ h₁ hl₁ => ?_
    cases b with
    | false => exact agree_pure h₁.sim ⟨.normal, h₁.tied, hl₁⟩
    | true =>
      have hbody := ih.exec h₁ hl₁ (undeclared hf.placed.2.1)
        (hf.part (·.2.2) (·.2) (by simp [Stmt.ids]))
      rw [Resolve.after_of_not_declares hf.placed.2.1] at hbody
      refine hbody.bind (fun _ h => h) fun β₂ m₂ t₂ c d ho₂ hx => ?_
      obtain ⟨d, inner⟩ := d
      obtain ⟨hc, htied, hlevel⟩ := hx
      cases hc with
      | normal => exact ih.exec (h₁.next ho₂ ⟨.normal, htied, hlevel⟩) hlevel nofun hf
      | broke => exact agree_pure ho₂.sim ⟨.normal, htied, hlevel⟩
      | returned hvw => exact agree_pure ho₂.sim ⟨.returned hvw, htied, hlevel⟩
  | breakLoop keyword => exact agree_pure h.sim ⟨.broke, h.tied, hl⟩
  | function name fn =>
    simp only [Lox.exec, exec]
    have hfn : Fine n (fn.Placed table (entered name Γ)) (fn.Faultless (entered name Γ)) fn.ids :=
      hf.part (·) (·.2) (List.Subset.refl _)
    exact agree_declare (y := Run.makeClosure (some name.lexeme) fn) h hl (hs rfl) hf.faultless.1
      fun β₁ t₁ inner h₁ => agree_makeClosure { h₁ with tied := h₁.tied.ready } hfn _
  | giveBack keyword value =>
    cases value with
    | none => exact agree_pure h.sim ⟨.returned .nil, h.tied, hl⟩
    | some value =>
      simp only [Lox.exec, exec]
      refine (ih.eval h (hf.part (·) (·.2) (List.Subset.refl _))).next
        fun β₁ m₁ t₁ v w ho hvw => ?_
      exact agree_pure ho.sim (h.executed hl ho (.returned hvw))

/-- What a statement declares is there for the next one. -/
theorem agree_execAll (ih : InStep fuel) {ss : List Stmt} (h : Here n table frame Γ scope β m t)
    (hl : Level β m.store frame Γ) (hΓ : Γ ≠ [])
    (hf : Fine n (Stmt.PlacedAll table Γ ss) (Stmt.FaultlessAll context Γ ss) (Stmt.idsAll ss)) :
    Agree frame n β (Lox.execAll (fuel + 1) none ss) m (execAll (fuel + 1) scope ss) t
      fun β' m' => SameCompletion (Same β' n m') := by
  cases ss with
  | nil => exact agree_pure h.sim .normal
  | cons s ss =>
    simp only [Lox.execAll, execAll]
    have hs := ih.exec h hl (fun _ h => absurd h hΓ) (hf.part (·.1) (·.1) (by simp [Stmt.idsAll]))
    refine hs.bind (fun _ h => h) fun β₁ m₁ t₁ c d ho hx => ?_
    obtain ⟨d, inner⟩ := d
    have h₁ := h.next ho hx
    obtain ⟨hc, htied, hlevel⟩ := hx
    cases hc with
    | normal =>
      exact ih.execAll h₁ hlevel (after_ne_nil s hΓ) (hf.part (·.2) (·.2) (by simp [Stmt.idsAll]))
    | broke => exact agree_pure ho.sim .broke
    | returned hvw => exact agree_pure ho.sim (.returned hvw)

end Steps

theorem inStep (fuel : Nat) : InStep fuel := by
  induction fuel with
  | zero => constructor <;> intros <;> exact agree_throw (Here.sim ‹_›) _
  | succ fuel ih => exact ⟨agree_eval ih, agree_evalAll ih, agree_exec ih, agree_execAll ih⟩

end Lox.Reference
