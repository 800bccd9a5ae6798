import Lox.Proofs.Execute.Steps
import Lox.Proofs.Reference.Cells

/-! Runs of both interpreters that end alike. -/
namespace Lox.Reference

open Resolve (address? declared entered enteredAll after New NewAll At)

variable {α α' γ γ' : Type} {β β₁ β' : Layout} {n : NodeId} {m m' : Machine} {t t₁ t' : State}
  {own own' : Option FrameId} {x : Lox.Run α} {y : Run α'} {f : α → Lox.Run γ} {g : α' → Run γ'}
  {rel : Layout → Machine → α → α' → Prop} {rel' : Layout → Machine → γ → γ' → Prop}

/-- What both interpreters have come to. -/
structure Onward (own : Option FrameId) (n : NodeId) (β : Layout) (m : Machine) (β' : Layout)
    (m' : Machine) (t' : State) : Prop where
  frame : m'.frame = m.frame
  extend : Extends own β m β' m'
  sim : Simulates β' n m' t'

/-- Two runs end alike: with results that are related, or with the same stop. -/
def Agree (own : Option FrameId) (n : NodeId) (β : Layout) (x : Lox.Run α) (m : Machine)
    (y : Run α') (t : State) (rel : Layout → Machine → α → α' → Prop) : Prop :=
  match x m, y t with
  | .ok a m', .ok b t' => ∃ β', Onward own n β m β' m' t' ∧ rel β' m' a b
  | .error halt m', .error halt' t' => halt = halt' ∧ m'.frame = m.frame ∧
      m'.resolution = m.resolution ∧ ∃ β', Simulates β' n m' t'
  | _, _ => False

theorem agree_pure {a : α} {b : α'} (h : Simulates β n m t) (hab : rel β m a b) :
    Agree own n β (pure a) m (pure b) t rel := ⟨β, ⟨rfl, .refl own β m, h⟩, hab⟩

theorem agree_throw (h : Simulates β n m t) (halt : Halt) :
    Agree own n β (throw halt) m (throw halt) t rel := ⟨rfl, rfl, rfl, β, h⟩

theorem agree_fail (h : Simulates β n m t) (fault : RuntimeFault) (token : Token) :
    Agree own n β (Lox.Run.fail fault token) m (Run.fail fault token) t rel := agree_throw h _

/-- One step of each. -/
theorem agree_step {a : α} {b : α'} (hx : x m = .ok a m') (hy : y t = .ok b t')
    (ho : Onward own n β m β' m' t') (hab : rel β' m' a b) : Agree own n β x m y t rel := by
  simp only [Agree, hx, hy]
  exact ⟨β', ho, hab⟩

/-- The reference and the machine agree on a whole if they agree on its parts, wherever the first
leaves them. -/
theorem Agree.bind (hx : Agree own n β x m y t rel) (hsub : ∀ i ∈ own, i ∈ own')
    (hf : ∀ β' m' t' a b, Onward own n β m β' m' t' → rel β' m' a b →
      Agree own' n β' (f a) m' (g b) t' rel') : Agree own' n β (x >>= f) m (y >>= g) t rel' := by
  simp only [Agree, Bind.bind, EStateM.bind] at hx ⊢
  cases hxm : x m with
  | ok a m' =>
    cases hyt : y t with
    | ok b t' =>
      simp only [hxm, hyt] at hx ⊢
      obtain ⟨β', ho, hab⟩ := hx
      have hfg := hf β' m' t' a b ho hab
      simp only [Agree] at hfg
      split at hfg
      · obtain ⟨β'', ho', hcd⟩ := hfg
        have hext := (ho.extend.widen hsub).trans ho'.extend
        exact ⟨β'', ⟨ho'.frame.trans ho.frame, hext, ho'.sim⟩, hcd⟩
      · obtain ⟨rfl, hframe, hres, hsim⟩ := hfg
        exact ⟨rfl, hframe.trans ho.frame, hres.trans ho.extend.resolution, hsim⟩
      · exact hfg
    | error halt t' => simp [hxm, hyt] at hx
  | error halt m' =>
    cases hyt : y t with
    | ok b t' => simp [hxm, hyt] at hx
    | error halt' t' => simpa only [hxm, hyt] using hx

/-- Runs that leave the innermost frame alone, and runs after them. -/
theorem Agree.next (hx : Agree none n β x m y t rel)
    (hf : ∀ β' m' t' a b, Onward none n β m β' m' t' → rel β' m' a b →
      Agree own n β' (f a) m' (g b) t' rel') : Agree own n β (x >>= f) m (y >>= g) t rel' :=
  hx.bind (by simp) hf

/-- What else is known of two runs. -/
theorem Agree.imp {rel' : Layout → Machine → α → α' → Prop} (hx : Agree own n β x m y t rel)
    (hsub : ∀ i ∈ own, i ∈ own')
    (h : ∀ β' m' t' a b, Onward own n β m β' m' t' → rel β' m' a b → rel' β' m' a b) :
    Agree own' n β x m y t rel' := by
  simp only [Agree] at hx ⊢
  split at hx
  · obtain ⟨β', ho, hab⟩ := hx
    exact ⟨β', ⟨ho.frame, ho.extend.widen hsub, ho.sim⟩, h β' _ _ _ _ ho hab⟩
  · exact hx
  · exact hx

/-- A step that only the reference interpreter makes. -/
theorem Agree.after {b : α'} {x : Lox.Run γ} (h : Agree own n β₁ x m (g b) t₁ rel')
    (hy : y t = .ok b t₁) (he : Extends own β m β₁ m) : Agree own n β x m (y >>= g) t rel' := by
  simp only [Agree, Bind.bind, EStateM.bind, hy] at h ⊢
  split at h
  · obtain ⟨β', ho, hcd⟩ := h
    exact ⟨β', ⟨ho.frame, he.trans ho.extend, ho.sim⟩, hcd⟩
  · exact h
  · exact h

/-- A run in a new frame, once the frame around it is put back. -/
theorem Agree.within {enclosing : Option FrameId} {values : Array Value}
    {rel' : Layout → Machine → α → α' → Prop}
    (h : Agree (some m.store.frames.size) n β₁ x (m.enter enclosing values) y t rel)
    (he : Extends (some m.store.frames.size) β (m.enter enclosing #[]) β₁
      (m.enter enclosing values))
    (hrel : ∀ β' m' a b, rel β' m' a b → rel' β' { m' with frame := m.frame } a b) :
    Agree none n β
      (do let frame ← Lox.Run.newFrame enclosing values; Lox.Run.within frame x) m y t rel' := by
  simp only [Agree] at h ⊢
  rw [Lox.Run.newFrame_within]
  split at h
  · next a m' b t' hx hy =>
    obtain ⟨β', ho, hab⟩ := h
    simp only [hx, hy]
    exact ⟨β', ⟨rfl, (he.trans ho.extend).leave, { ho.sim with }⟩, hrel β' m' a b hab⟩
  · next halt m' halt' t' hx hy =>
    obtain ⟨rfl, -, hres, β', hsim⟩ := h
    simp only [hx, hy]
    exact ⟨trivial, trivial, hres, β', { hsim with }⟩
  · exact h.elim

/-- Results that are the same of values that are the same. -/
theorem agree_lift {result : Except RuntimeFault Value}
    {result' : Except RuntimeFault (Value Scope)} (h : Simulates β n m t)
    (hr : SameResult β n m result result') (token : Token) :
    Agree own n β (Lox.Run.lift token result) m (Run.lift token result') t
      fun β' m' => Same β' n m' := by
  cases hr with
  | ok hv => exact agree_pure h hv
  | error fault => exact agree_fail h fault token

/-- Only a boolean is gone on with. -/
theorem agree_truth {f : Bool → Lox.Run γ} {g : Bool → Run γ'} {v : Value} {w : Value Scope}
    {fault : RuntimeFault} {token : Token} (h : Simulates β n m t) (hv : Same β n m v w)
    (hf : ∀ b, Agree own n β (f b) m (g b) t rel') :
    Agree own n β (Lox.Run.truth v fault token >>= f) m (Run.truth w fault token >>= g) t rel' := by
  cases hv with
  | bool b => exact hf b
  | _ => exact ⟨rfl, rfl, rfl, β, h⟩

variable {Γ : List LocalScope} {scope : Scope} {id : NodeId} {name : Token}

/-- A name found by going outward through the scopes is the slot that its address leads to. -/
theorem agree_readVariable (h : Simulates β n m t) (ht : Tied β m.store m.frame Γ scope)
    (ha : At m.resolution Γ id name) :
    Agree own n β (Lox.Run.readVariable id name) m (Run.readVariable scope name) t
      fun β' m' => Same β' n m' := by
  have ha : m.resolution.find? id = address? name.lexeme Γ := ha
  cases haddress : address? name.lexeme Γ with
  | none =>
    have hscope := ht.global _ haddress
    have hget := h.get? name.lexeme
    simp only [Agree, Lox.Run.readVariable, Run.readVariable, ha, haddress, hscope,
      Option.elim_none, Lox.Run.readGlobal]
    generalize m.globals.get? name.lexeme = v, t.globals.get? name.lexeme = w at hget ⊢
    cases hget with
    | none => exact ⟨rfl, rfl, rfl, β, h⟩
    | some hv => exact ⟨β, ⟨rfl, .refl own β m, h⟩, hv⟩
  | some a =>
    obtain ⟨i, target, cell, hi, hanc, hcell, hplace⟩ := ht.named _ a haddress
    have hread := Store.read_eq hanc (h.frames cell _ hplace) a.slot
    have hvalue : Option.Rel (Same β n m) (m.store.value? target a.slot) (t.value? cell) :=
      h.cells cell _ hplace
    simp only [Agree, Lox.Run.readVariable, Run.readVariable, ha, haddress, hcell, hi,
      Option.elim_some, hread]
    generalize m.store.value? target a.slot = v, t.value? cell = w at hvalue ⊢
    cases hvalue with
    | none => exact ⟨rfl, hi, rfl, β, h⟩
    | some hv => exact ⟨β, ⟨rfl, .refl own β m, h⟩, hv⟩

/-- Giving a variable that is there another value. -/
theorem extends_set {target : FrameId} {slot : Nat} (v : Value) :
    Extends own β m β { m with store := m.store.set target slot v } := by
  refine ⟨rfl, Store.grows_set target slot v, .refl β, fun _ _ h => Or.inl h, ?_⟩
  intro i _ _
  simp only [Store.slots, Store.getElem?_set]
  split
  · cases m.store.frames[i]? <;> simp
  · rfl

/-- An assignment by name stores where the address leads. -/
theorem agree_writeVariable {v : Value} {w : Value Scope} (h : Simulates β n m t)
    (ht : Tied β m.store m.frame Γ scope) (ha : At m.resolution Γ id name)
    (hv : Same β n m v w) :
    Agree own n β (Lox.Run.writeVariable id name v) m (Run.writeVariable scope name w) t
      fun _ _ _ _ => True := by
  have ha : m.resolution.find? id = address? name.lexeme Γ := ha
  cases haddress : address? name.lexeme Γ with
  | none =>
    have hscope := ht.global _ haddress
    have hcontains : m.globals.contains name.lexeme = t.globals.contains name.lexeme :=
      rel_isSome (h.get? name.lexeme)
    simp only [Agree, Lox.Run.writeVariable, Run.writeVariable, ha, haddress, hscope,
      Lox.Run.writeGlobal, hcontains]
    cases t.globals.contains name.lexeme with
    | false => exact ⟨rfl, rfl, rfl, β, h⟩
    | true =>
      exact ⟨β, ⟨rfl, .of_store_eq rfl rfl, h.putGlobal name.lexeme hv⟩, trivial⟩
  | some a =>
    obtain ⟨i, target, cell, hi, hanc, hcell, hplace⟩ := ht.named _ a haddress
    have hf := Array.getElem?_eq_getElem (h.frames cell _ hplace)
    have hlocate := Store.locate_of_ancestor? hanc hf a.slot
    have hvalue := rel_isSome (h.cells cell _ hplace)
    by_cases hlt : a.slot < m.store.slots target
    · have hx : Lox.Run.writeVariable id name v m =
          .ok () { m with store := m.store.set target a.slot v } := by
        simp [Lox.Run.writeVariable, ha, haddress, hi, hlocate, hlt]
      have hy : Run.writeVariable scope name w t =
          .ok () { t with cells := t.cells.set! cell (some w) } := by
        have hsome : (t.value? cell).isSome = true := by
          rw [← hvalue, Option.isSome_iff_ne_none, ne_eq, Store.value?_eq_none]
          exact Nat.not_le.mpr hlt
        simp [Run.writeVariable, Run.fill, hcell, hsome]
      have hsim := h.fill hplace (Store.grows_set _ _ _) (Store.value?_set hlt v) hv
      exact agree_step hx hy ⟨rfl, extends_set v, hsim⟩ trivial
    · have hx : Lox.Run.writeVariable id name v m =
          .error (.error ⟨.undefinedVariable name.lexeme, name⟩) m := by
        simp [Lox.Run.writeVariable, ha, haddress, hi, hlocate, hlt, Lox.Run.storeHalt]
      have hy : Run.writeVariable scope name w t =
          .error (.error ⟨.undefinedVariable name.lexeme, name⟩) t := by
        have hnone : m.store.value? target a.slot = none :=
          Store.value?_eq_none.mpr (Nat.not_lt.mp hlt)
        simp only [hnone, Option.isSome_none] at hvalue
        simp only [Run.writeVariable, hcell, ← hvalue]
        rfl
      simp only [Agree, hx, hy]
      exact ⟨trivial, trivial, trivial, β, h⟩

/-! Declarations. -/

variable {table : Resolution} {frame : Option FrameId} {S : LocalScope} {outer : List LocalScope}
  {names : List (String × Cell)} {i : FrameId} {v : Value} {w : Value Scope}

/-- Both interpreters are about to do a piece of code that stands in some scopes. -/
structure Here (n : NodeId) (table : Resolution) (frame : Option FrameId) (Γ : List LocalScope)
    (scope : Scope) (β : Layout) (m : Machine) (t : State) : Prop where
  sim : Simulates β n m t
  tied : Tied β m.store frame Γ scope
  frame : m.frame = frame
  resolution : m.resolution = table

theorem Here.onward (h : Here n table frame Γ scope β m t) (ho : Onward own n β m β' m' t') :
    Here n table frame Γ scope β' m' t' :=
  ⟨ho.sim, h.tied.extend ho.extend, ho.frame.trans h.frame,
    ho.extend.resolution.trans h.resolution⟩

/-- Statements that complete alike. -/
inductive SameCompletion (same : Value → Value Scope → Prop) :
    Completion → Completion Scope → Prop
  | normal : SameCompletion same .normal .normal
  | broke : SameCompletion same .broke .broke
  | returned {v : Value} {w : Value Scope} (h : same v w) :
    SameCompletion same (.returned v) (.returned w)

/-- Where a statement leads to, in the frame that it is executed in. -/
structure Executed (n : NodeId) (frame : Option FrameId) (Γ : List LocalScope) (β : Layout)
    (m : Machine) (c : Completion) (d : Completion Scope × Scope) : Prop where
  completion : SameCompletion (Same β n m) c d.1
  tied : Tied β m.store frame Γ d.2
  level : Level β m.store frame Γ

/-- A global is declared once its value is computed. -/
theorem agree_declareGlobal {x : Lox.Run Value} {y : Run (Value Scope)}
    (h : Here n table none [] none β m t)
    (hxy : Agree none n β x m y t fun β' m' => Same β' n m') (name : Token) :
    Agree none n β (do let v ← x; Lox.Run.define name v; return Completion.normal) m
      (do
        let w ← y
        Run.settle name none w
        return (Completion.normal, none)) t
      (Executed n none []) := by
  refine hxy.next fun β' m' t' v w ho hvw => ?_
  have hx : Lox.Run.define name v m' =
      .ok () { m' with globals := m'.globals.put name.lexeme v } := by
    simp [Lox.Run.define, ho.frame, h.frame]
  have hput : Onward none n β' m' β' { m' with globals := m'.globals.put name.lexeme v }
      { t' with globals := t'.globals.put name.lexeme w } :=
    ⟨rfl, .of_store_eq rfl rfl, ho.sim.putGlobal name.lexeme hvw⟩
  have hdefine : Agree none n β' (Lox.Run.define name v) m' (Run.settle name none w) t'
      fun _ _ _ _ => True := agree_step hx rfl hput trivial
  refine hdefine.next fun β'' m'' t'' _ _ ho' _ => ?_
  exact agree_pure ho'.sim ⟨.normal, ((h.onward ho).onward ho').tied, level_outside⟩

/-- A local variable that has a cell gets its place once its value is computed. -/
theorem agree_declareLocal {x : Lox.Run Value} {y : Run (Value Scope)} {cell : Cell}
    (h : Here n table (some i) (declared name (S :: outer)) scope β m t)
    (hb : Begun β m.store i S cell) (hnew : New (S :: outer) name)
    (hxy : Agree none n β x m y t fun β' m' => Same β' n m') :
    Agree (some i) n β (do let v ← x; Lox.Run.define name v; return Completion.normal) m
      (do
        let w ← y
        Run.settle name (some cell) w
        return (Completion.normal, scope)) t
      (Executed n (some i) (entered name (S :: outer))) := by
  have hi := h.tied.exists_frame i rfl
  refine hxy.next fun β' m' t' v w ho hvw => ?_
  have hi' : i < m'.store.frames.size := Nat.lt_of_lt_of_le hi ho.extend.grows.size_le
  obtain ⟨hsim, hext, hlevel⟩ := (hb.extend ho.extend hi).complete ho.sim hi' (hnew S rfl) hvw
  have hx : Lox.Run.define name v m' = .ok () { m' with store := m'.store.define i v } := by
    simp [Lox.Run.define, ho.frame, h.frame]
  have hdefine : Agree (some i) n β' (Lox.Run.define name v) m' (Run.settle name (some cell) w) t'
      fun β' m' _ _ => Level β' m'.store (some i) (entered name (S :: outer)) :=
    agree_step hx rfl ⟨rfl, hext, hsim⟩ hlevel
  refine hdefine.bind (fun _ h => h) fun β'' m'' t'' _ _ ho' hlevel => ?_
  exact agree_pure ho'.sim ⟨.normal, ((h.onward ho).onward ho').tied.ready, hlevel⟩

/-- A value is computed once the name is declared, and then given to the variable. -/
theorem agree_declare {x : Lox.Run Value} {y : Scope → Run (Value Scope)}
    (h : Here n table frame Γ scope β m t) (hl : Level β m.store frame Γ)
    (hs : Γ = [] → scope = none) (hnew : New Γ name)
    (hxy : ∀ β' t' inner, Here n table frame (declared name Γ) inner β' m t' →
      Agree none n β' x m (y inner) t' fun β' m' => Same β' n m') :
    Agree frame n β (do let v ← x; Lox.Run.define name v; return Completion.normal) m
      (do
        let (inner, cell) ← Run.enter name scope
        let w ← y inner
        Run.settle name cell w
        return (Completion.normal, inner)) t
      (Executed n frame (entered name Γ)) := by
  cases Γ with
  | nil =>
    obtain rfl : frame = none := h.tied.outside.mpr rfl
    obtain rfl : scope = none := hs rfl
    exact agree_declareGlobal h (hxy β t none h) name
  | cons S outer =>
    obtain ⟨i, rfl⟩ : ∃ i, frame = some i := by
      cases frame with
      | none => exact absurd (h.tied.outside.mp rfl) (by simp)
      | some i => exact ⟨i, rfl⟩
    obtain ⟨names, rfl⟩ : ∃ names, scope = some names := by
      cases scope with
      | none => exact absurd (h.tied.unscoped rfl) (by simp)
      | some names => exact ⟨names, rfl⟩
    obtain ⟨β₁, hsim, hext, htied, hbegun⟩ := h.sim.begin h.tied hl name.lexeme
    have hinner : Here n table (some i) (declared name (S :: outer))
        (some ((name.lexeme, t.cells.size) :: names)) β₁ m
        { t with cells := t.cells.push none } := ⟨hsim, htied, h.frame, h.resolution⟩
    exact Agree.after (agree_declareLocal hinner hbegun hnew (hxy _ _ _ hinner)) rfl hext

/-! Parameters. -/

/-- Several variables are added to a frame. -/
def defineAll (s : Store) (i : FrameId) (values : List Value) : Store :=
  values.foldl (·.define i ·) s

theorem defineAll_push (frames : Array Frame) (enclosing : Option FrameId) (values : List Value)
    (first : Array Value) :
    defineAll ⟨frames.push ⟨enclosing, first⟩⟩ frames.size values =
      ⟨frames.push ⟨enclosing, first ++ values.toArray⟩⟩ := by
  induction values generalizing first with
  | nil => simp [defineAll]
  | cons v values ih =>
    have hdefine : (⟨frames.push ⟨enclosing, first⟩⟩ : Store).define frames.size v =
        ⟨frames.push ⟨enclosing, first.push v⟩⟩ := by
      simp only [Store.define, Store.mk.injEq]
      refine Array.ext_getElem? fun j => ?_
      by_cases hj : j = frames.size
      · rw [hj, Array.getElem?_modify, Array.getElem?_push_size, Array.getElem?_push_size]
        simp
      · simp [hj, Ne.symm hj, Array.getElem?_modify, Array.getElem?_push]
    refine (congrArg (defineAll · frames.size values) hdefine).trans ((ih (first.push v)).trans ?_)
    simp

theorem enter_eq (m : Machine) (enclosing : Option FrameId) (values : List Value) :
    m.enter enclosing values.toArray = { m.enter enclosing #[] with
      store := defineAll (m.enter enclosing #[]).store m.store.frames.size values } := by
  have := defineAll_push m.store.frames enclosing values #[]
  simp only [Machine.enter, Store.newFrame, this]
  simp

/-- The parameters are declared one after the other. -/
theorem exists_bindAll {params : List Token} {values : List Value} {values' : List (Value Scope)}
    (h : Simulates β n m t) (ht : Tied β m.store (some i) (S :: outer) (some names))
    (hl : Level β m.store (some i) (S :: outer)) (hnew : NewAll (S :: outer) params)
    (hv : List.Forall₂ (Same β n m) values values') (hlen : values.length = params.length) :
    ∃ β' t' names', Run.bindAll params values' names t = .ok names' t' ∧
      Simulates β' n { m with store := defineAll m.store i values } t' ∧
      Tied β' (defineAll m.store i values) (some i) (enteredAll params (S :: outer))
        (some names') ∧
      Level β' (defineAll m.store i values) (some i) (enteredAll params (S :: outer)) ∧
      Extends (some i) β m β' { m with store := defineAll m.store i values } := by
  induction params generalizing values values' names S β m t with
  | nil =>
    obtain rfl : values = [] := List.length_eq_zero_iff.mp hlen
    exact ⟨β, t, names, rfl, h, ht, hl, .refl _ β m⟩
  | cons name params ih =>
    cases hv with
    | nil => simp at hlen
    | @cons v w values values' hvw hvs =>
      have hi := ht.exists_frame i rfl
      obtain ⟨β₁, hsim, hext, htied, hbegun⟩ := h.begin ht hl name.lexeme
      obtain ⟨hsim', hext', hlevel⟩ :=
        hbegun.complete hsim hi (hnew.1 S rfl) (hvw.extend hext)
      have htied' : Tied β₁ m.store (some i) (declared name (S :: outer))
        (some ((name.lexeme, t.cells.size) :: names)) := htied
      have hstep := hext.trans hext'
      obtain ⟨β₂, t₂, names₂, hrun, hsim₂, htied₂, hlevel₂, hext₂⟩ :=
        ih hsim' (htied'.extend hext').ready hlevel hnew.2
          (hvs.imp fun _ _ h => h.extend hstep) (by simpa using hlen)
      exact ⟨β₂, t₂, names₂, hrun, hsim₂, htied₂, hlevel₂, hstep.trans hext₂⟩

/-- A function is about to be executed in a new frame, with its parameters declared. -/
theorem exists_enter {params : List Token} {values : List Value} {values' : List (Value Scope)}
    (h : Simulates β n m t) (ht : Tied β m.store frame Γ scope)
    (hnew : NewAll (.empty :: Γ) params) (hv : List.Forall₂ (Same β n m) values values')
    (hlen : values.length = params.length) :
    ∃ β' t' names', Run.bindAll params values' (scope.getD []) t = .ok names' t' ∧
      Here n m.resolution (some m.store.frames.size) (enteredAll params (.empty :: Γ))
        (some names') β' (m.enter frame values.toArray) t' ∧
      Level β' (m.enter frame values.toArray).store (some m.store.frames.size)
        (enteredAll params (.empty :: Γ)) ∧
      Extends (some m.store.frames.size) β (m.enter frame #[]) β'
        (m.enter frame values.toArray) := by
  have hsame : List.Forall₂ (Same β n (m.enter frame #[])) values values' :=
    hv.imp fun _ _ h => h.mono (.refl β) rfl (Store.grows_push _)
  obtain ⟨β', t', names', hrun, hsim, htied, hlevel, hext⟩ :=
    exists_bindAll (h.enter frame) (ht.enter #[]) (Level.enter h frame) hnew hsame hlen
  have hstore := congrArg Machine.store (enter_eq m frame values)
  rw [← enter_eq] at hsim hext
  exact ⟨β', t', names', hrun, ⟨hsim, hstore ▸ htied, rfl, rfl⟩, hstore ▸ hlevel, hext⟩

end Lox.Reference
