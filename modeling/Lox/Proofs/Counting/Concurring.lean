import Lox.Proofs.Counting.Rule

/-! Counting loops on a machine, in terms of blocks and loops, come to what the direct rule says. -/
namespace Lox.Reference

open Behaviour (Inside)
open Resolve (after declared entered)

variable {α α' γ γ' : Type} {β β₁ β' : Layout} {n : NodeId} {m m₁ m' : Machine} {t t₁ t' : State}
  {own own' : Option FrameId} {table : Resolution} {frame : Option FrameId} {Γ : List LocalScope}
  {scope : Scope} {rel : Layout → Machine → α → α' → Prop} {rel' : Layout → Machine → γ → γ' → Prop}
  {r : Outcome Machine α} {r' : Outcome State α'}

/-- Both interpreters have ended alike: with results that are related, or with the same stop. -/
inductive Ended (own : Option FrameId) (n : NodeId) (β : Layout) (m : Machine)
    (rel : Layout → Machine → α → α' → Prop) : Outcome Machine α → Outcome State α' → Prop
  | ok {β' a m' b t'} (ho : Onward own n β m β' m' t') (h : rel β' m' a b) :
    Ended own n β m rel (.ok a m') (.ok b t')
  | error {β' halt m' t'} (hf : m'.frame = m.frame) (hr : m'.resolution = m.resolution)
    (hs : Simulates β' n m' t') : Ended own n β m rel (.error halt m') (.error halt t')

/-- Runs that agree have ended alike. -/
theorem Agree.ended {x : Lox.Run α} {y : Run α'} (h : Agree own n β x m y t rel) :
    Ended own n β m rel (x m) (y t) := by
  simp only [Agree] at h
  split at h
  · next hx hy =>
    obtain ⟨β', ho, hab⟩ := h
    rw [hx, hy]
    exact .ok ho hab
  · next hx hy =>
    obtain ⟨rfl, hf, hr, β', hs⟩ := h
    rw [hx, hy]
    exact .error hf hr hs
  · exact h.elim

namespace Ended

theorem settled_iff (h : Ended own n β m rel r r') : Settled r ↔ Settled r' := by
  cases h with
  | ok => exact ⟨fun _ => settled_ok _ _, fun _ => settled_ok _ _⟩
  | error => exact ⟨fun h u hu => h _ (by cases hu; rfl), fun h u hu => h _ (by cases hu; rfl)⟩

/-- What ends alike after what is common to both. -/
theorem trans {s : Outcome Machine γ} {s' : Outcome State γ'} (ho : Onward own n β m β₁ m₁ t₁)
    (hsub : ∀ i ∈ own, i ∈ own') (h : Ended own' n β₁ m₁ rel' s s') :
    Ended own' n β m rel' s s' := by
  cases h with
  | ok ho' h =>
    exact .ok ⟨ho'.frame.trans ho.frame, (ho.extend.widen hsub).trans ho'.extend, ho'.sim⟩ h
  | error hf hr hs => exact .error (hf.trans ho.frame) (hr.trans ho.extend.resolution) hs

theorem of_ok {a : α} (h : Ended own n β m rel r r') (hr : r = .ok a m') :
    ∃ β' t' b, Onward own n β m β' m' t' ∧ rel β' m' a b := by
  subst hr
  cases h with
  | ok ho hab => exact ⟨_, _, _, ho, hab⟩

theorem of_error {halt : Halt} (h : Ended own n β m rel r r') (hr : r = .error halt m') :
    ∃ β' t', Simulates β' n m' t' := by
  subst hr
  cases h with
  | error _ _ hs => exact ⟨_, _, hs⟩

end Ended

/-- Both behaviours come to the same. -/
structure Concur (own : Option FrameId) (n : NodeId) (β : Layout) (B : Behaviour Machine α)
    (m : Machine) (C : Behaviour State α') (t : State) (rel : Layout → Machine → α → α' → Prop) :
    Prop where
  forth : ∀ r, B m r → ∃ r', C t r' ∧ Ended own n β m rel r r'
  back : ∀ r', C t r' → ∃ r, B m r ∧ Ended own n β m rel r r'

variable {B : Behaviour Machine α} {C : Behaviour State α'} {f : α → Behaviour Machine γ}
  {g : α' → Behaviour State γ'}

/-- Runs that agree whatever the fuel. -/
theorem concur_of {x : Nat → Lox.Run α} {y : Nat → Run α'}
    (h : ∀ fuel, Agree own n β (x fuel) m (y fuel) t rel) :
    Concur own n β (.of x) m (.of y) t rel where
  forth := by
    rintro r ⟨hr, fuel, rfl⟩
    exact ⟨y fuel t, ⟨(h fuel).ended.settled_iff.mp hr, fuel, rfl⟩, (h fuel).ended⟩
  back := by
    rintro r' ⟨hr, fuel, rfl⟩
    exact ⟨x fuel m, ⟨(h fuel).ended.settled_iff.mpr hr, fuel, rfl⟩, (h fuel).ended⟩

theorem concur_pure {a : α} {b : α'} (h : Simulates β n m t) (hab : rel β m a b) :
    Concur own n β (pure a) m (pure b) t rel := by
  have hended : Ended own n β m rel (.ok a m) (.ok b t) := .ok ⟨rfl, .refl own β m, h⟩ hab
  constructor
  · rintro r rfl
    exact ⟨_, rfl, hended⟩
  · rintro r' rfl
    exact ⟨_, rfl, hended⟩

theorem concur_stop (h : Simulates β n m t) (halt : Halt) :
    Concur own n β (.stop halt) m (.stop halt) t rel := by
  have hended : Ended own n β m rel (.error halt m) (.error halt t) := .error rfl rfl h
  constructor
  · rintro r rfl
    exact ⟨_, rfl, hended⟩
  · rintro r' rfl
    exact ⟨_, rfl, hended⟩

namespace Concur

/-- Two runs that agree up to some point and on whatever may follow agree on the whole. -/
theorem bind (h : Concur own n β B m C t rel) (hsub : ∀ i ∈ own, i ∈ own')
    (hfg : ∀ β' m' t' a b, Onward own n β m β' m' t' → rel β' m' a b →
      Concur own' n β' (f a) m' (g b) t' rel') :
    Concur own' n β (B >>= f) m (C >>= g) t rel' where
  forth := by
    rintro s (hB | ⟨hB, hs⟩)
    · obtain ⟨r', hC, he⟩ := h.forth _ hB
      cases he with
      | error hf hr hs => exact ⟨_, .stopped hC, .error hf hr hs⟩
    · obtain ⟨r', hC, he⟩ := h.forth _ hB
      cases he with
      | ok ho hab =>
        obtain ⟨s', hC', he⟩ := (hfg _ _ _ _ _ ho hab).forth _ hs
        exact ⟨s', .went hC hC', .trans ho hsub he⟩
  back := by
    rintro s' (hC | ⟨hC, hs⟩)
    · obtain ⟨r, hB, he⟩ := h.back _ hC
      cases he with
      | error hf hr hs => exact ⟨_, .stopped hB, .error hf hr hs⟩
    · obtain ⟨r, hB, he⟩ := h.back _ hC
      cases he with
      | ok ho hab =>
        obtain ⟨s, hB', he⟩ := (hfg _ _ _ _ _ ho hab).back _ hs
        exact ⟨s, .went hB hB', .trans ho hsub he⟩

/-- What else is known of the results. -/
theorem imp {rel' : Layout → Machine → α → α' → Prop} (h : Concur own n β B m C t rel)
    (hsub : ∀ i ∈ own, i ∈ own')
    (hrel : ∀ β' m' t' a b, Onward own n β m β' m' t' → rel β' m' a b → rel' β' m' a b) :
    Concur own' n β B m C t rel' := by
  simpa only [bind_pure] using h.bind hsub fun β' m' t' a b ho hab =>
    concur_pure ho.sim (hrel β' m' t' a b ho hab)

/-- In a new frame, once the frame around it is put back. -/
theorem inside {rel' : Layout → Machine → α → α' → Prop}
    (h : Concur (some m.store.frames.size) n β B (m.enter m.frame #[]) C t rel)
    (hrel : ∀ β' m' a b, rel β' m' a b → rel' β' { m' with frame := m.frame } a b) :
    Concur none n β (Inside B) m C t rel' where
  forth := by
    rintro _ (hB | hB)
    · obtain ⟨r', hC, he⟩ := h.forth _ hB
      cases he with
      | ok ho hab => exact ⟨_, hC, .ok ⟨rfl, ho.extend.leave, { ho.sim with }⟩ (hrel _ _ _ _ hab)⟩
    · obtain ⟨r', hC, he⟩ := h.forth _ hB
      cases he with
      | error hf hr hs => exact ⟨_, hC, .error rfl hr { hs with }⟩
  back := by
    intro r' hC
    obtain ⟨r, hB, he⟩ := h.back r' hC
    cases he with
    | ok ho hab =>
      exact ⟨_, .ok hB, .ok ⟨rfl, ho.extend.leave, { ho.sim with }⟩ (hrel _ _ _ _ hab)⟩
    | error hf hr hs => exact ⟨_, .error hB, .error rfl hr { hs with }⟩

end Concur

/-- Only a boolean is gone on with. -/
theorem concur_truth {v : Value} {w : Value Scope} (h : Simulates β n m t) (hv : Same β n m v w)
    (fault : RuntimeFault) (token : Token) :
    Concur own n β (.truth v fault token) m (.truth w fault token) t fun _ _ a b => a = b := by
  cases hv with
  | bool b => exact concur_pure h rfl
  | _ => exact concur_stop h _

section Loops

variable {context : Resolve.Context} {keyword : Token} {condition step : Option Expr}
  {initial : Option Stmt} {body : Stmt} {id : NodeId} {names : List (String × Cell)}

/-- The expressions of a loop are evaluated alike by the rule and on the machine. -/
theorem concur_eval {e : Expr} (h : Here n table frame Γ scope β m t)
    (hf : Fine n (e.Placed table Γ) (e.Faultless Γ) e.ids) :
    Concur none n β (Lox.evaluates none e) m (evaluates scope e) t fun β' m' => Same β' n m' :=
  concur_of fun fuel => (inStep fuel).eval h hf

/-- Statements are executed alike as well, and leave the scope that the resolver goes on with. -/
theorem concur_exec {s : Stmt} (h : Here n table frame Γ scope β m t)
    (hl : Level β m.store frame Γ) (hs : s.declares = true → Γ = [] → scope = none)
    (hf : Fine n (s.Placed table Γ) (s.Faultless context Γ) s.ids) :
    Concur frame n β (Lox.executes none s) m (executes scope s) t
      (Executed n frame (after Γ s)) :=
  concur_of fun fuel => (inStep fuel).exec h hl hs hf

/-- A condition that is left out is true. -/
theorem concur_tests (h : Here n table frame Γ scope β m t)
    (hf : Fine n ((condition.getD (.literal id (.bool true))).Placed table Γ)
      ((condition.getD (.literal id (.bool true))).Faultless Γ)
      (condition.getD (.literal id (.bool true))).ids) :
    Concur none n β
      (do .truth (← Lox.evaluates none (condition.getD (.literal id (.bool true))))
            .conditionNotBoolean keyword)
      m (tests scope keyword condition) t fun _ _ a b => a = b := by
  cases condition with
  | none =>
    simp only [Option.getD_none, evaluates_literal, pure_bind]
    exact concur_pure h.sim rfl
  | some condition =>
    exact (concur_eval h hf).bind (by simp) fun β' m' t' v w ho hvw =>
      concur_truth ho.sim hvw _ _

/-- Statements that complete alike, and leave the innermost frame as its scope says. -/
def Completed (n : NodeId) (frame : Option FrameId) (Γ : List LocalScope) (β : Layout) (m : Machine)
    (c : Completion) (d : Completion Scope) : Prop :=
  SameCompletion (Same β n m) c d ∧ Level β m.store frame Γ

/-- The body of a counting loop, together with its step. -/
def turnBody (step : Option Expr) (body : Stmt) : Stmt :=
  match step with
  | some step => .block [body, .expression step]
  | none => body

/-- A body that declares nothing leaves the frame as wide as it was. -/
theorem concur_body (h : Here n table frame Γ scope β m t) (hl : Level β m.store frame Γ)
    (hb : body.declares = false)
    (hf : Fine n (body.Placed table Γ) (body.Faultless context Γ) body.ids) :
    Concur frame n β (Lox.executes none body) m (executes scope body) t
      fun β' m' c d => Completed n frame Γ β' m' c d.1 := by
  have hbody := concur_exec h hl (undeclared hb) hf
  rw [Resolve.after_of_not_declares hb] at hbody
  exact hbody.imp (fun _ h => h) fun _ _ _ _ _ _ hx => ⟨hx.completion, hx.level⟩

/-- The step is in a frame of its own with the body, where the body leaves no names. -/
theorem concur_rounds (h : Here n table frame Γ (some names) β m t) (hl : Level β m.store frame Γ)
    (hb : body.declares = false)
    (hf : Fine n ((turnBody step body).Placed table Γ) ((turnBody step body).Faultless context Γ)
      (turnBody step body).ids) :
    Concur frame n β (Lox.executes none (turnBody step body)) m (rounds (some names) step body) t
      (Completed n frame Γ) := by
  cases step with
  | none =>
    have hbody : Concur frame n β (Lox.executes none body >>= pure) m
        (executes (some names) body >>= fun d => pure d.1) t (Completed n frame Γ) :=
      (concur_body h hl hb hf).bind (fun _ h => h) fun β' m' t' c d ho hcd => concur_pure ho.sim hcd
    simpa [rounds, turnBody] using hbody
  | some step =>
    have hbody := concur_body h.enter (Level.enter h.sim m.frame) hb
      (hf.part (·.1) (·.1) (by simp [turnBody, Stmt.ids, Stmt.idsAll]))
    have hstep : Fine n (step.Placed table (.empty :: Γ)) (step.Faultless (.empty :: Γ))
        step.ids := by
      have hafter : after (.empty :: Γ) body = .empty :: Γ := Resolve.after_of_not_declares hb
      exact hf.part (fun hp => (congrArg (step.Placed table) hafter).mp hp.2.1)
        (fun hp => (congrArg step.Faultless hafter).mp hp.2.1)
        (by simp [turnBody, Stmt.ids, Stmt.idsAll])
    have hround : Concur (some m.store.frames.size) n β
        (Lox.executesAll none [body, .expression step]) (m.enter m.frame #[])
        (rounds (some names) (some step) body) t fun β' m' => SameCompletion (Same β' n m') := by
      rw [executesAll_cons, executesAll_singleton, executes_expression]
      refine hbody.bind (fun _ h => h) fun β' m' t' c d ho hcd => ?_
      obtain ⟨d, scope⟩ := d
      obtain ⟨hcd, -⟩ := hcd
      cases hcd with
      | normal =>
        refine (concur_eval (h.enter.onward ho) hstep).bind (by simp) fun _ _ _ _ _ ho _ => ?_
        exact concur_pure ho.sim .normal
      | broke => exact concur_pure ho.sim .broke
      | returned hvw => exact concur_pure ho.sim (.returned hvw)
    rw [turnBody, executes_block]
    have hleft : Concur none n β (Inside (Lox.executesAll none [body, .expression step])) m
        (rounds (some names) (some step) body) t fun β' m' => SameCompletion (Same β' n m') :=
      hround.inside fun _ _ _ _ h => h
    exact hleft.imp (by simp) fun _ _ _ _ _ ho hcd =>
      ⟨hcd, hl.extend ho.extend h.tied.exists_frame⟩

/-- A loop whose tests and rounds concur wherever it has come to, by induction on its turns. -/
theorem concur_loop {test : Behaviour Machine Bool} {test' : Behaviour State Bool}
    {round : Behaviour Machine Completion} {round' : Behaviour State (Completion Scope)}
    (htest : ∀ {β m t}, Here n table frame Γ scope β m t →
      Concur none n β test m test' t fun _ _ a b => a = b)
    (hround : ∀ {β m t}, Here n table frame Γ scope β m t → Level β m.store frame Γ →
      Concur frame n β round m round' t (Completed n frame Γ))
    (h : Here n table frame Γ scope β m t) (hl : Level β m.store frame Γ) :
    Concur frame n β (.loop test round) m (.loop test' round') t (Completed n frame Γ) := by
  have hturns (k : Nat) : ∀ {β m t}, Here n table frame Γ scope β m t →
      Level β m.store frame Γ → Concur frame n β (.turns test round k) m (.turns test' round' k) t
        (Completed n frame Γ) := by
    induction k with
    | zero => exact fun _ _ => ⟨fun _ h => h.elim, fun _ h => h.elim⟩
    | succ k ih =>
      intro β m t h hl
      rw [Behaviour.turns, Behaviour.turns, Behaviour.turn, Behaviour.turn]
      refine (htest h).bind (by simp) fun β₁ m₁ t₁ b _ ho hb => ?_
      subst hb
      have h₁ := h.onward ho
      have hl₁ := hl.extend ho.extend h.tied.exists_frame
      cases b with
      | false => exact concur_pure h₁.sim ⟨.normal, hl₁⟩
      | true =>
        refine (hround h₁ hl₁).bind (fun _ h => h) fun β₂ m₂ t₂ c d ho₂ hx => ?_
        obtain ⟨hcd, hl₂⟩ := hx
        have h₂ := h₁.onward ho₂
        cases hcd with
        | normal => exact ih h₂ hl₂
        | broke => exact concur_pure h₂.sim ⟨.normal, hl₂⟩
        | returned hvw => exact concur_pure h₂.sim ⟨.returned hvw, hl₂⟩
  constructor
  · rintro r ⟨k, hr⟩
    obtain ⟨r', hr', he⟩ := (hturns k h hl).forth r hr
    exact ⟨r', ⟨k, hr'⟩, he⟩
  · rintro r' ⟨k, hr'⟩
    obtain ⟨r, hr, he⟩ := (hturns k h hl).back r' hr'
    exact ⟨r, ⟨k, hr⟩, he⟩

/-- The loop proper, after its initial statement. -/
theorem concur_turns (h : Here n table frame Γ (some names) β m t) (hl : Level β m.store frame Γ)
    (hb : body.declares = false)
    (hf : Fine n
      ((Stmt.loop keyword (condition.getD (.literal id (.bool true))) (turnBody step body)).Placed
        table Γ)
      ((Stmt.loop keyword (condition.getD (.literal id (.bool true)))
        (turnBody step body)).Faultless context Γ)
      (Stmt.loop keyword (condition.getD (.literal id (.bool true))) (turnBody step body)).ids) :
    Concur frame n β
      (Lox.executes none
        (.loop keyword (condition.getD (.literal id (.bool true))) (turnBody step body)))
      m (.loop (tests (some names) keyword condition) (rounds (some names) step body)) t
      (Completed n frame Γ) := by
  rw [executes_loop]
  exact concur_loop (concur_tests · (hf.part (·.1) (·.1) (by simp [Stmt.ids])))
    (concur_rounds · · hb (hf.part (·.2.2) (·.2) (by simp [Stmt.ids]))) h hl

/-- The tree of a `for` with the body and the step of a turn made one statement. -/
theorem counting_eq (keyword : Token) (initial : Option Stmt) (condition : Expr)
    (step : Option Expr) (body : Stmt) :
    Stmt.counting keyword initial condition step body =
      match initial with
      | some initial => .block [initial, .loop keyword condition (turnBody step body)]
      | none => .loop keyword condition (turnBody step body) := by
  cases initial <;> cases step <;> rfl

/-- A scope without names may be opened anywhere. -/
theorem Tied.getD {s : Store} (h : Tied β s frame Γ scope) :
    Tied β s frame Γ (some (scope.getD [])) where
  outside := h.outside
  unscoped := nofun
  exists_frame := h.exists_frame
  global := fun x hx => (find?_getD scope x).trans (h.global x hx)
  named := by simpa only [find?_getD] using h.named

/-- A counting loop comes to what the direct rule says, wherever it stands. -/
theorem concur_counts (h : Here n table frame Γ scope β m t) (hl : Level β m.store frame Γ)
    (hb : body.declares = false)
    (hf : Fine n
      ((Stmt.counting keyword initial (condition.getD (.literal id (.bool true))) step body).Placed
        table Γ)
      ((Stmt.counting keyword initial (condition.getD (.literal id (.bool true))) step
        body).Faultless context Γ)
      (Stmt.counting keyword initial (condition.getD (.literal id (.bool true))) step body).ids) :
    Concur frame n β
      (Lox.executes none
        (.counting keyword initial (condition.getD (.literal id (.bool true))) step body))
      m (counts scope keyword initial condition step body) t
      fun β' m' => SameCompletion (Same β' n m') := by
  rw [counting_eq] at hf ⊢
  cases initial with
  | none =>
    rw [counts, begins, pure_bind]
    exact (concur_turns { h with tied := h.tied.getD } hl hb hf).imp (fun _ h => h)
      fun _ _ _ _ _ _ hcd => hcd.1
  | some initial =>
    have hinitial := concur_exec (s := initial) h.enter (Level.enter h.sim m.frame)
      (fun _ hΓ => absurd hΓ (List.cons_ne_nil _ _))
      (hf.part (·.1) (·.1) (by simp [Stmt.ids, Stmt.idsAll]))
    have hcounts : Concur (some m.store.frames.size) n β
        (Lox.executesAll none [initial,
          .loop keyword (condition.getD (.literal id (.bool true))) (turnBody step body)])
        (m.enter m.frame #[]) (counts scope keyword (some initial) condition step body) t
        fun β' m' => SameCompletion (Same β' n m') := by
      rw [executesAll_cons, executesAll_singleton, counts, begins]
      refine hinitial.bind (fun _ h => h) fun β₁ m₁ t₁ c d ho hx => ?_
      obtain ⟨d, inner⟩ := d
      have h₁ := h.enter.next ho hx
      obtain ⟨hcd, htied, hl₁⟩ := hx
      cases hcd with
      | normal =>
        have hΓ : after (.empty :: Γ) initial ≠ [] := after_ne_nil initial (List.cons_ne_nil _ _)
        obtain ⟨names, rfl⟩ : ∃ names, inner = some names :=
          Option.ne_none_iff_exists'.mp fun hs => hΓ (htied.unscoped hs)
        have hturns := concur_turns h₁ hl₁ hb
          (hf.part (·.2.1) (·.2.1) (by simp [Stmt.ids, Stmt.idsAll]))
        exact hturns.imp (fun _ h => h) fun _ _ _ _ _ _ hcd => hcd.1
      | broke => exact concur_pure ho.sim .broke
      | returned hvw => exact concur_pure ho.sim (.returned hvw)
    rw [executes_block]
    exact (hcounts.inside fun _ _ _ _ h => h).imp (by simp) fun _ _ _ _ _ _ hcd => hcd

end Loops

end Lox.Reference
