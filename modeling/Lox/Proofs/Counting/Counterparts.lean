import Lox.Proofs.Counting.Concurring
import Lox.Proofs.Execute.Safety
import Lox.Proofs.Execute.Jumps
import Lox.Proofs.Reference.Sessions

/-! Wherever a program has come to, the reference interpreter could be there as well. -/
namespace Lox.Reference

open Resolve (Context after declared entered enteredAll)

variable {n : NodeId} {β β' : Layout} {Γ Γ' : List LocalScope} {scope : Scope} {t t' : State}
  {m m' : Machine} {k k' : Task} {table : Resolution} {context : Context} {fuel : Nat}

/-- A task that stands in some scopes and is not at fault there. Statements in a row are never
outside of all local scopes. -/
def FineTask (n : NodeId) (table : Resolution) (context : Context) (Γ : List LocalScope) :
    Task → Prop
  | .expr e => Fine n (e.Placed table Γ) (e.Faultless Γ) e.ids
  | .exprs es => Fine n (Expr.PlacedAll table Γ es) (Expr.FaultlessAll Γ es) (Expr.idsAll es)
  | .stmt s => Fine n (s.Placed table Γ) (s.Faultless context Γ) s.ids
  | .stmts ss => Γ ≠ [] ∧
    Fine n (Stmt.PlacedAll table Γ ss) (Stmt.FaultlessAll context Γ ss) (Stmt.idsAll ss)
  | .body fn => Γ ≠ [] ∧ Fine n (Stmt.PlacedAll table Γ fn.body)
    (Stmt.FaultlessAll context Γ fn.body) (Stmt.idsAll fn.body)

/-- A state and a scope that stand for a machine which is about to do a task. -/
structure Counterpart (n : NodeId) (β : Layout) (Γ : List LocalScope) (scope : Scope) (t : State)
    (c : Config) : Prop where
  room : c.room = none
  here : Here n c.machine.resolution c.machine.frame Γ scope β c.machine t
  level : c.task.executes = true → Level β c.machine.store c.machine.frame Γ
  outside : Γ = [] → scope = none
  fine : ∃ context, FineTask n c.machine.resolution context Γ c.task

theorem Here.self {frame : Option FrameId} (h : Here n table frame Γ scope β m t) :
    Here n m.resolution m.frame Γ scope β m t :=
  ⟨h.sim, h.frame ▸ h.tied, rfl, rfl⟩

namespace Counterpart

/-- The same task, after a run that leaves the innermost frame alone. -/
theorem onward (h : Counterpart n β Γ scope t ⟨k, none, m⟩) (ho : Onward none n β m β' m' t') :
    Counterpart n β' Γ scope t' ⟨k, none, m'⟩ where
  room := rfl
  here := (h.here.onward ho).self
  level := fun hk => ho.frame ▸ (h.level hk).extend ho.extend h.here.tied.exists_frame
  outside := h.outside
  fine := ho.extend.resolution ▸ h.fine

/-- A part of a task in the same scopes. -/
theorem part (h : Counterpart n β Γ scope t ⟨k, none, m⟩)
    (hk : k'.executes = true → k.executes = true) (hf : FineTask n m.resolution context Γ k') :
    Counterpart n β Γ scope t ⟨k', none, m⟩ :=
  ⟨rfl, h.here, fun he => h.level (hk he), h.outside, context, hf⟩

/-- What a state has come to when an expression has been evaluated. -/
theorem evaluated {e : Expr} {v : Value} (h : Counterpart n β Γ scope t ⟨k, none, m⟩)
    (hf : Fine n (e.Placed m.resolution Γ) (e.Faultless Γ) e.ids)
    (hr : Lox.eval fuel none e m = .ok v m') :
    ∃ β' t' w, Onward none n β m β' m' t' ∧ Same β' n m' v w :=
  ((inStep fuel).eval h.here hf).ended.of_ok hr

/-- A part of a task in the same scopes, after another part has been evaluated. -/
theorem then_part {e : Expr} {v : Value} (h : Counterpart n β Γ scope t ⟨k, none, m⟩)
    (he : Fine n (e.Placed m.resolution Γ) (e.Faultless Γ) e.ids)
    (hr : Lox.eval fuel none e m = .ok v m') (hk : k'.executes = true → k.executes = true)
    (hf : FineTask n m.resolution context Γ k') :
    ∃ β' t', Counterpart n β' Γ scope t' ⟨k', none, m'⟩ := by
  obtain ⟨β', t', w, ho, -⟩ := h.evaluated he hr
  exact ⟨β', t', (h.onward ho).part hk (ho.extend.resolution ▸ hf)⟩

/-- Arguments that the machine has evaluated have their counterparts under the rules. -/
theorem evaluatedAll {es : List Expr} {vs : List Value}
    (h : Counterpart n β Γ scope t ⟨k, none, m⟩)
    (hf : Fine n (Expr.PlacedAll m.resolution Γ es) (Expr.FaultlessAll Γ es) (Expr.idsAll es))
    (hr : Lox.evalAll fuel none es m = .ok vs m') :
    ∃ β' t' ws, Onward none n β m β' m' t' ∧ List.Forall₂ (Same β' n m') vs ws :=
  ((inStep fuel).evalAll h.here hf).ended.of_ok hr

/-- What a state has come to when a statement has completed. -/
theorem executed {s : Stmt} {c : Completion} (h : Counterpart n β Γ scope t ⟨k, none, m⟩)
    (hk : k.executes = true) (hf : Fine n (s.Placed m.resolution Γ) (s.Faultless context Γ) s.ids)
    (hr : Lox.exec fuel none s m = .ok c m') :
    ∃ β' t' d, Onward m.frame n β m β' m' t' ∧ Executed n m.frame (after Γ s) β' m' c d :=
  ((inStep fuel).exec h.here (h.level hk) (fun _ => h.outside) hf).ended.of_ok hr

/-- The initial value of a variable, whose declaration has begun. -/
theorem initial {name : Token} {e : Expr}
    (h : Counterpart n β Γ scope t ⟨.stmt (.var name (some e)), none, m⟩) :
    ∃ β' inner t', Counterpart n β' (declared name Γ) inner t' ⟨.expr e, none, m⟩ := by
  obtain ⟨-, ⟨hsim, htied, -, -⟩, hl, hs, context, hf⟩ := h
  have hvalue : Fine n (e.Placed m.resolution (declared name Γ)) (e.Faultless (declared name Γ))
      e.ids := hf.part (·) (·.2) (List.Subset.refl _)
  cases Γ with
  | nil => exact ⟨β, scope, t, rfl, ⟨hsim, htied, rfl, rfl⟩, nofun, hs, context, hvalue⟩
  | cons S outer =>
    obtain ⟨i, hi⟩ : ∃ i, m.frame = some i :=
      Option.ne_none_iff_exists'.mp fun hn => List.cons_ne_nil S outer (htied.outside.mp hn)
    obtain ⟨names, rfl⟩ : ∃ names, scope = some names :=
      Option.ne_none_iff_exists'.mp fun hn => List.cons_ne_nil S outer (htied.unscoped hn)
    dsimp only at htied hl
    rw [hi] at htied hl
    obtain ⟨β', hsim', -, htied', -⟩ := hsim.begin htied (hl rfl) name.lexeme
    exact ⟨β', _, _, rfl, ⟨hsim', hi ▸ htied', rfl, rfl⟩, nofun, nofun, context, hvalue⟩

/-- The statements of a block, in a frame of their own. -/
theorem block {ss : List Stmt} (h : Counterpart n β Γ scope t ⟨.stmt (.block ss), none, m⟩) :
    Counterpart n β (.empty :: Γ) (some (scope.getD [])) t
      ⟨.stmts ss, none, m.enter m.frame #[]⟩ := by
  obtain ⟨context, hf⟩ := h.fine
  exact ⟨rfl, h.here.enter, fun _ => Level.enter h.here.sim m.frame, nofun, context,
    List.cons_ne_nil _ _, hf⟩

/-- The body of a function, in a frame that has the arguments. -/
theorem body {c : Closure} {w : Value Scope} {vs : List Value} {ws : List (Value Scope)}
    (h : Simulates β n m t) (hc : Same β n m (.closure c) w)
    (hvs : List.Forall₂ (Same β n m) vs ws) (ha : vs.length = c.fn.arity) :
    ∃ β' Γ' scope' t', Counterpart n β' Γ' scope' t'
      ⟨.body c.fn, none, m.enter c.scope vs.toArray⟩ := by
  cases hc with
  | @closure name fn frame scope identity Γ hp hf hn ht =>
    obtain ⟨id, params, body⟩ := fn
    obtain ⟨β', t', names, -, hhere, hlevel, -⟩ := exists_enter h ht hf.1 hvs ha
    have hΓ : enteredAll params (.empty :: Γ) ≠ [] := enteredAll_ne_nil params
    exact ⟨β', _, some names, t', rfl, hhere, fun _ => hlevel, fun h => absurd h hΓ, .function, hΓ,
      hp, hf.2, fun id hid => hn id (List.mem_append_left _ hid)⟩

end Counterpart

/-- A task that a task starts has a counterpart where the runs before it have led. -/
theorem exists_counterpart_of_starts {c d : Config} (hs : Starts fuel c d)
    (h : Counterpart n β Γ scope t c) :
    ∃ β' Γ' scope' t', Counterpart n β' Γ' scope' t' d := by
  obtain ⟨k, room, m⟩ := c
  obtain rfl : room = none := h.room
  obtain ⟨context, hf⟩ := h.fine
  have inl {as bs : List NodeId} : as ⊆ as ++ bs := List.subset_append_left _ _
  have inr {as bs : List NodeId} : bs ⊆ as ++ bs := List.subset_append_right _ _
  have mid {as bs cs : List NodeId} : bs ⊆ as ++ (bs ++ cs) := fun _ h => inr (inl h)
  have same {k' : Task} (hk : k'.executes = true → k.executes = true)
      (hf : ∃ context, FineTask n m.resolution context Γ k') :
      ∃ β' Γ' scope' t', Counterpart n β' Γ' scope' t' ⟨k', none, m⟩ :=
    ⟨β, Γ, scope, t, h.part hk hf.choose_spec⟩
  have later {e : Expr} {v : Value} {m' : Machine} {k' : Task}
      (he : Fine n (e.Placed m.resolution Γ) (e.Faultless Γ) e.ids)
      (hr : Lox.eval fuel none e m = .ok v m') (hk : k'.executes = true → k.executes = true)
      (hf : ∃ context, FineTask n m.resolution context Γ k') :
      ∃ β' Γ' scope' t', Counterpart n β' Γ' scope' t' ⟨k', none, m'⟩ :=
    have ⟨β', t', h'⟩ := h.then_part he hr hk hf.choose_spec
    ⟨β', Γ, scope, t', h'⟩
  cases hs with
  | inner | operand => exact same nofun ⟨context, hf.part (·) (·) inl⟩
  | right => exact same nofun ⟨context, hf.part (·.2) (·.2) mid⟩
  | left hr => exact later (hf.part (·.2) (·.2) mid) hr nofun ⟨context, hf.part (·.1) (·.1) inl⟩
  | first => exact same nofun ⟨context, hf.part (·.1) (·.1) inl⟩
  | second hl => exact later (hf.part (·.1) (·.1) inl) hl nofun ⟨context, hf.part (·.2) (·.2) mid⟩
  | assigned => exact same nofun ⟨context, hf.part (·.1) (·) inl⟩
  | callee => exact same nofun ⟨context, hf.part (·.1) (·.1) inl⟩
  | arguments he =>
    exact later (hf.part (·.1) (·.1) inl) he nofun ⟨context, hf.part (·.2) (·.2) mid⟩
  | call he hes ha hr =>
    obtain rfl : none = _ := by simpa [callRoom?] using hr
    obtain ⟨β₁, t₁, w, ho₁, hw⟩ := h.evaluated (hf.part (·.1) (·.1) inl) he
    have h₁ := h.onward ho₁
    obtain ⟨β₂, t₂, ws, ho₂, hws⟩ :=
      h₁.evaluatedAll (ho₁.extend.resolution ▸ hf.part (·.2) (·.2) mid) hes
    exact Counterpart.body ho₂.sim (hw.extend ho₂.extend) hws ha
  | head => exact same nofun ⟨context, hf.part (·.1) (·.1) inl⟩
  | tail he => exact later (hf.part (·.1) (·.1) inl) he nofun ⟨context, hf.part (·.2) (·.2) inr⟩
  | expression | print => exact same nofun ⟨context, hf.part (·) (·) fun _ h => h⟩
  | initial =>
    obtain ⟨β', inner, t', h'⟩ := h.initial
    exact ⟨β', _, inner, t', h'⟩
  | block => exact ⟨_, _, _, _, h.block⟩
  | condition => exact same nofun ⟨context, hf.part (·.1) (·.1) inl⟩
  | yes he =>
    exact later (hf.part (·.1) (·.1) inl) he id ⟨context, hf.part (·.2.1.2) (·.2.1) mid⟩
  | no he =>
    exact later (hf.part (·.1) (·.1) inl) he id
      ⟨context, hf.part (·.2.2.2) (·.2.2) fun _ h => inr (inr h)⟩
  | test => exact same nofun ⟨context, hf.part (·.1) (·.1) inl⟩
  | turn he => exact later (hf.part (·.1) (·.1) inl) he id ⟨_, hf.part (·.2.2) (·.2) inr⟩
  | again he hb =>
    obtain ⟨β₁, t₁, h₁⟩ := h.then_part (hf.part (·.1) (·.1) inl) he id hf
    obtain ⟨context, hf₁⟩ := h₁.fine
    obtain ⟨β₂, t₂, d, ho, hx⟩ := h₁.executed rfl (hf₁.part (·.2.2) (·.2) inr) hb
    have hlevel := Resolve.after_of_not_declares hf₁.placed.2.1 ▸ hx.level
    exact ⟨β₂, Γ, scope, t₂, rfl, (h₁.here.onward ho).self, fun _ => ho.frame ▸ hlevel, h.outside,
      context, ho.extend.resolution ▸ hf₁⟩
  | value => exact same nofun ⟨context, hf.part (·) (·.2) fun _ h => h⟩
  | statement => exact same id ⟨context, hf.2.part (·.1) (·.1) inl⟩
  | @next s _ _ _ _ hs =>
    obtain ⟨β', t', d, ho, hx⟩ := h.executed rfl (hf.2.part (·.1) (·.1) inl) hs
    have hΓ := after_ne_nil s hf.1
    have hrest := hf.2.part (·.2) (·.2) inr
    exact ⟨β', _, d.2, t', rfl, (h.here.next ho hx).self, fun _ => ho.frame ▸ hx.level,
      fun h => absurd h hΓ, context, hΓ, ho.extend.resolution ▸ hrest⟩
  | statements => exact same id ⟨context, hf⟩

/-- Whatever is reached within a task that has a counterpart has one too. -/
theorem exists_counterpart_of_reaches {c d : Config} (hr : Reaches c d)
    (h : Counterpart n β Γ scope t c) : ∃ β' Γ' scope' t', Counterpart n β' Γ' scope' t' d := by
  induction hr with
  | refl => exact ⟨β, Γ, scope, t, h⟩
  | tail _ hs ih =>
    obtain ⟨β', Γ', scope', t', h'⟩ := ih
    exact exists_counterpart_of_starts hs.choose_spec h'

section Worlds

variable {clock : Nat → Float} {w : World}

/-- A program that is in its place, and in order, finds its counterpart outside of all local
scopes. -/
theorem Simulates.counterpart (h : Simulates β w.nextId w.machine t) (hsafe : w.Safe)
    (hfaultless : w.Faultless) {s : Stmt} (hs : s ∈ w.loaded) :
    Counterpart w.nextId β [] none t ⟨.stmt s, none, w.machine⟩ := by
  obtain ⟨hp, hn⟩ := hsafe.loaded s hs
  have hhere : Here w.nextId w.machine.resolution none [] none β w.machine t :=
    ⟨h, tied_nil, hsafe.frame, rfl⟩
  have hl : Level β w.machine.store w.machine.frame [] := by
    rw [hsafe.frame]
    exact level_outside
  exact ⟨rfl, hhere.self, fun _ => hl, fun _ => rfl, .program, hp, hfaultless.loaded s hs, hn⟩

/-- Whatever programs without errors have done so far, the reference interpreter could have done as
well. -/
theorem exists_simulates
    (hw : Reachable clock none (fun program => (resolve program).errors = []) w) :
    ∃ β t, Simulates β w.nextId w.machine t := by
  induction hw with
  | start => exact ⟨#[], .start clock, simulates_start clock⟩
  | @load w tokens finish firstId hw hid _ _ ih | @file w tokens finish firstId hw hid _ ih =>
    obtain ⟨β, t, h⟩ := ih
    obtain ⟨hle, hf, ht⟩ := parse_neat tokens finish firstId
    obtain ⟨-, hold, -, -⟩ :=
      resolve_placed hf ht fun id hlo => hw.safe.fresh id (Nat.le_trans hid hlo)
    exact ⟨β, t, h.file (Nat.le_trans hid hle) fun id hlt => hold id (Nat.lt_of_lt_of_le hlt hid)⟩
  | @execute w s fuel c m hw hs hr ih =>
    obtain ⟨β, t, h⟩ := ih
    have hc := h.counterpart hw.safe hw.faultless hs
    obtain ⟨context, hf⟩ := hc.fine
    obtain ⟨β', t', d, ho, -⟩ := hc.executed rfl hf hr
    exact ⟨β', t', ho.sim⟩
  | @stop w s fuel halt m hw hs hr _ ih =>
    obtain ⟨β, t, h⟩ := ih
    have hc := h.counterpart hw.safe hw.faultless hs
    obtain ⟨context, hf⟩ := hc.fine
    exact ((inStep fuel).exec hc.here (hc.level rfl) (fun _ => hc.outside) hf).ended.of_error hr
  | @print w out _ ih =>
    obtain ⟨β, t, h⟩ := ih
    exact ⟨β, { t with out }, { h with out := rfl }⟩

end Worlds

end Lox.Reference
