import Lox.Proofs.Equality
import Lox.Proofs.Execute.Additions
import Lox.Proofs.Execute.Fuel
import Lox.Proofs.Execute.Heritage
import Lox.Proofs.Resolve.Numbering

/-! How frames fill up, against the slots that resolving counts on. The variable of a declaration
gets the place in its frame that counts all declarations before it, also those that repeat a name.
-/
namespace Lox

open Run

/-- The value that a declaration finds for its variable, and the machine that this leaves. -/
inductive Initializes (fuel : Nat) (room : Option Nat) : Stmt → Machine → Value → Machine → Prop
  | nothing {name m} : Initializes fuel room (.var name none) m .nil m
  | value {name e m v t} (he : eval fuel room e m = .ok v t) :
    Initializes fuel room (.var name (some e)) m v t
  | function {name fn m v t} (hfn : makeClosure (some name.lexeme) fn m = .ok v t) :
    Initializes fuel room (.function name fn) m v t

namespace World

/-- The tasks in the text of the programs that were loaded. -/
def Has (w : World) (k : Task) : Prop := ∃ s ∈ w.loaded, (Task.stmt s).Has k

/-- The local scopes in the text of the programs, each with its parameters and its statements. -/
inductive Scope (w : World) : List Token → List Stmt → Prop
  | block {body} (h : w.Has (.stmt (.block body))) : Scope w [] body
  | function {fn} (h : w.Has (.body fn)) : Scope w fn.params fn.body

/-- The machine when the execution of a scope has come between two of its statements: a frame was
made that has the values of the parameters, and the statements before were executed. -/
inductive UpTo (w : World) (room : Option Nat) (params : List Token) (before after : List Stmt) :
    Machine → Prop
  | intro {m : Machine} {enclosing : Option FrameId} {values : Array Value} {fuel : Nat}
    {t : Machine} (hscope : w.Scope params (before ++ after))
    (hvalues : values.size = params.length)
    (hrun : execAll fuel room before (m.enter enclosing values) = .ok .normal t) :
    UpTo w room params before after t

end World

variable {m t u : Machine} {fuel more : Nat} {room : Option Nat} {s : Stmt} {ss : List Stmt}
  {name : Token} {v : Value} {i : FrameId}

section Declarations

theorem Initializes.spares (h : Initializes fuel room s m v t) : m.Spares false t := by
  cases h with
  | nothing => exact .refl m
  | @value _ e _ _ _ he =>
    have hspared := (sparing fuel).eval room e m
    simp only [Spared, Ends, he] at hspared
    exact hspared
  | function hfn =>
    cases hfn
    exact ⟨⟨rfl, rfl, .refl _⟩, fun _ _ _ => rfl, fun _ => rfl⟩

/-- A variable is defined in the innermost frame after its value is found. -/
theorem define_eq_ok_iff {x : Run Value} {c : Completion}
    (hx : ∀ v u, x m = .ok v u → u.frame = some i) :
    (do let v ← x; define name v; return Completion.normal) m = .ok c t ↔
      c = .normal ∧ ∃ v u, x m = .ok v u ∧ t = { u with store := u.store.define i v } := by
  simp only [Bind.bind, EStateM.bind]
  cases h : x m with
  | ok v u =>
    have hdefine : define name v u = .ok () { u with store := u.store.define i v } := by
      simp only [define, hx v u h]
    simp [hdefine, Pure.pure, EStateM.pure, eq_comm]
  | error halt u => simp

/-- A declaration completes once its value is found, which then comes last in the frame. -/
theorem exec_declaration (hs : s.declaredName? = some name) (hf : m.frame = some i)
    {c : Completion} : exec (fuel + 1) room s m = .ok c t ↔
      c = .normal ∧ ∃ v u, Initializes fuel room s m v u ∧
        t = { u with store := u.store.define i v } := by
  have hframe {v u} (h : Initializes fuel room s m v u) : u.frame = some i :=
    h.spares.keeps.frame.trans hf
  have found {x : Run Value} (hx : ∀ v u, Initializes fuel room s m v u ↔ x m = .ok v u) :
      (do let v ← x; define name v; return Completion.normal) m = .ok c t ↔
        c = .normal ∧ ∃ v u, Initializes fuel room s m v u ∧
          t = { u with store := u.store.define i v } := by
    simp only [define_eq_ok_iff fun v u h => hframe ((hx v u).mpr h), hx]
  cases s with
  | var own initial =>
    obtain rfl := Option.some.inj hs
    cases initial with
    | none =>
      refine found (x := pure .nil) fun v u => ⟨?_, ?_⟩
      · rintro ⟨⟩
        rfl
      · rintro ⟨⟩
        exact .nothing
    | some e =>
      refine found fun v u => ⟨?_, .value⟩
      rintro ⟨⟩
      assumption
  | function own fn =>
    obtain rfl := Option.some.inj hs
    refine found fun v u => ⟨?_, .function⟩
    rintro ⟨⟩
    assumption
  | _ => cases hs

/-- What a declaration stores comes to the place that counts the variables before. -/
theorem stores_declaration (hs : s.declaredName? = some name) (hf : m.frame = some i)
    (hi : i < m.store.frames.size) {c : Completion} (hr : exec fuel room s m = .ok c t) :
    ∃ fuel v u, Initializes fuel room s m v u ∧
      t.store.value? i (m.store.slots i) = some v := by
  cases fuel with
  | zero => cases hr
  | succ fuel =>
    obtain ⟨-, v, u, hv, rfl⟩ := (exec_declaration hs hf).mp hr
    refine ⟨fuel, v, u, hv, ?_⟩
    have hslots := hv.spares.slots i hi nofun
    have hiu := Nat.lt_of_lt_of_le hi hv.spares.keeps.grows.size_le
    rw [Store.value?_define hiu, if_pos ⟨rfl, hslots.symm⟩]

end Declarations

section Statements

theorem execAll_cons : execAll (fuel + 1) room (s :: ss) m = .ok .normal t ↔
    ∃ u, exec fuel room s m = .ok .normal u ∧ execAll fuel room ss u = .ok .normal t := by
  simp only [execAll, Bind.bind, EStateM.bind]
  cases h : exec fuel room s m with
  | ok c u =>
    cases c with
    | normal => simp
    | _ => simp [Pure.pure, EStateM.pure]
  | error halt u => simp

theorem exec_block : exec (fuel + 1) room (.block ss) m = .ok .normal t ↔
    ∃ u, execAll fuel room ss (m.enter m.frame #[]) = .ok .normal u ∧
      { u with frame := m.frame } = t := by
  have h : exec (fuel + 1) room (.block ss) m = _ := Run.newFrame_within
  rw [h]
  cases execAll fuel room ss (m.enter m.frame #[]) with
  | ok c u => cases c <;> simp
  | error halt u => simp

/-- Statements run to their end, and then one more. -/
theorem execAll_concat (h : execAll fuel room ss m = .ok .normal t)
    (hs : exec more room s t = .ok .normal u) :
    ∃ all, execAll all room (ss ++ [s]) m = .ok .normal u := by
  induction ss generalizing fuel m with
  | nil =>
    cases fuel with
    | zero => cases h
    | succ fuel =>
      cases h
      cases more with
      | zero => cases hs
      | succ more => exact ⟨more + 2, execAll_cons.mpr ⟨u, hs, rfl⟩⟩
  | cons s' ss ih =>
    cases fuel with
    | zero => cases h
    | succ fuel =>
      obtain ⟨n, hfirst, hrest⟩ := execAll_cons.mp h
      obtain ⟨all, hall⟩ := ih hrest
      -- The first statement and what comes after it may need different amounts of fuel.
      refine ⟨max fuel all + 1, execAll_cons.mpr ⟨n, ?_, ?_⟩⟩
      · rw [← hfirst]
        exact (prolongs (Nat.le_max_left ..)).exec room s' m (hfirst ▸ settled_ok _ _)
      · rw [← hall]
        exact (prolongs (Nat.le_max_right ..)).execAll room _ n (hall ▸ settled_ok _ _)

theorem declared?_eq (s : Stmt) : s.declared? = s.declaredName?.map (·.lexeme) := by
  cases s <;> rfl

/-- A statement that completes normally leaves its frame in place, wider by what it declares. -/
theorem slots_exec (ht : s.Tidy) (hr : exec fuel room s m = .ok .normal t)
    (hf : m.frame = some i) (hi : i < m.store.frames.size) :
    t.frame = some i ∧ i < t.store.frames.size ∧
      t.store.slots i = m.store.slots i + s.declaredName?.toList.length := by
  have hadds : Ends (exec fuel room s) m (fun _ t => m.Adds s.declared? t) fun _ t =>
      m.Adds none t := adds_exec ht room
  simp only [Ends, hr] at hadds
  have hframe := Array.getElem?_eq_getElem hi
  obtain ⟨g, hg, -, hsize⟩ := hadds.frames i _ hframe
  refine ⟨hadds.frame.trans hf, (Array.getElem?_eq_some_iff.mp hg).1, ?_⟩
  simp only [Store.slots, hg, hframe, Option.elim_some, hsize, hf, declared?_eq]
  cases s.declaredName? <;> simp

/-- Statements add as many variables to the innermost frame as they declare. -/
theorem slots_execAll (ht : Stmt.TidyAll ss) (hr : execAll fuel room ss m = .ok .normal t)
    (hf : m.frame = some i) (hi : i < m.store.frames.size) :
    t.frame = some i ∧ i < t.store.frames.size ∧
      t.store.slots i = m.store.slots i + (ss.filterMap Stmt.declaredName?).length := by
  induction ss generalizing fuel m with
  | nil =>
    cases fuel with
    | zero => cases hr
    | succ fuel =>
      cases hr
      exact ⟨hf, hi, rfl⟩
  | cons s ss ih =>
    cases fuel with
    | zero => cases hr
    | succ fuel =>
      obtain ⟨u, hfirst, hrest⟩ := execAll_cons.mp hr
      obtain ⟨hfu, hiu, hslots⟩ := slots_exec ht.1 hfirst hf hi
      obtain ⟨hft, hit, hmore⟩ := ih ht.2 hrest hfu hiu
      refine ⟨hft, hit, ?_⟩
      cases hs : s.declaredName? <;> simp [hs, hmore, hslots, Nat.add_assoc, Nat.add_comm 1]

end Statements

namespace World

variable {w : World} {params : List Token} {before after : List Stmt} {k k' : Task}

theorem Has.part (h : w.Has k) (hc : k.Contains k') : w.Has k' := by
  obtain ⟨s, hs, hk⟩ := h
  exact ⟨s, hs, hk.tail hc⟩

theorem has_heritable : Task.Heritable w.Has := fun _ _ => Has.part

/-- What was executed, in whatever order, is made of what was loaded. -/
structure Orderly (w : World) : Prop where
  outside : w.machine.frame = none
  neat : ∀ s ∈ w.loaded, s.Tidy ∧ s.ids.Nodup
  machine : w.machine.Holds (Value.From w.Has)

theorem Orderly.tidy (h : w.Orderly) (hk : w.Has k) : k.Tidy := by
  obtain ⟨s, hs, hk⟩ := hk
  exact hk.tidy (h.neat s hs).1

theorem Orderly.nodup (h : w.Orderly) (hk : w.Has k) : k.ids.Nodup := by
  obtain ⟨s, hs, hk⟩ := hk
  exact (h.neat s hs).2.sublist hk.ids_sublist

theorem Orderly.scope (h : w.Orderly) {body : List Stmt} (hs : w.Scope params body) :
    Stmt.TidyAll body ∧ (Stmt.idsAll body).Nodup := by
  cases hs with
  | block hb => exact ⟨h.tidy hb, h.nodup hb⟩
  | @function fn hb =>
    obtain ⟨id, params, body⟩ := fn
    exact ⟨h.tidy hb, h.nodup hb⟩

/-- What comes before a declaration in its scope is in place. -/
theorem Orderly.declared (h : w.Orderly) {body ss : List Stmt} {ps : List Token} {name : Token}
    (hs : w.Scope params body) (hd : DeclaredIn params body ps ss name) :
    Stmt.TidyAll ss ∧ (Stmt.idsAll ss).Nodup := by
  cases hd with
  | param => exact ⟨trivial, List.nodup_nil⟩
  | statement hbody =>
    subst hbody
    obtain ⟨ht, hn⟩ := h.scope hs
    rw [stmt_idsAll_append] at hn
    exact ⟨(stmt_tidyAll_append.mp ht).1, (List.nodup_append.mp hn).1⟩

/-- The frame of a scope has a variable for each declaration before. -/
theorem UpTo.slots (h : w.Orderly) (hup : w.UpTo room params before after t)
    (hf : t.frame = some i) :
    i < t.store.frames.size ∧ t.store.slots i = (declaredNames params before).length := by
  obtain ⟨hscope, hvalues, hrun⟩ := hup
  have htidy := (stmt_tidyAll_append.mp (h.scope hscope).1).1
  obtain ⟨hframe, hi, hslots⟩ := slots_execAll htidy hrun rfl (by simp [Machine.enter])
  obtain rfl := Option.some.inj (hf.symm.trans hframe)
  refine ⟨hi, ?_⟩
  rw [hslots, declaredNames, List.length_map, List.length_append, ← hvalues]
  simp [Machine.enter, Store.newFrame, Store.slots]

/-- The point reached in a body moves on by a statement. -/
theorem UpTo.next {s : Stmt} (h : w.UpTo room params before (s :: after) m)
    (hr : exec fuel room s m = .ok .normal t) :
    w.UpTo room params (before ++ [s]) after t := by
  obtain ⟨hscope, hvalues, hrun⟩ := h
  obtain ⟨all, hall⟩ := execAll_concat hrun hr
  exact ⟨by simpa using hscope, hvalues, hall⟩

end World

/-- How the frame of a task came about: statements in a list are executed in the frame of their
scope, after those before them there. -/
def Config.Scoped (w : World) (c : Config) : Prop :=
  match c.task with
  | .stmts ss => ∃ params before, w.UpTo c.room params before ss c.machine
  | .stmt s => s.declares = true → c.machine.frame = none ∨
      ∃ params before after, w.UpTo c.room params before (s :: after) c.machine
  | .body fn => ∃ (m : Machine) (enclosing : Option FrameId) (values : Array Value),
      values.size = fn.params.length ∧ c.machine = m.enter enclosing values
  | _ => True

section Scoped

variable {w : World} {c d : Config}

/-- No statement is a declaration that is started elsewhere than in a list. -/
theorem Starts.scoped (hs : Starts fuel c d) (hk : w.Has c.task) (ht : c.task.Tidy)
    (hc : c.Scoped w) : d.Scoped w := by
  cases hs with
  | call he hes ha hr => exact ⟨_, _, _, by simpa [Lambda.arity] using ha, rfl⟩
  | block => exact ⟨[], [], .block (by simpa using hk), rfl, (rfl : execAll 1 _ [] _ = _)⟩
  -- A declaration as a branch or as the body of a loop would add to the frame out of turn, but the
  -- parser makes none there.
  | yes => exact fun hd => absurd hd (by simp [ht.2.1.1])
  | no => exact fun hd => absurd hd (by simp [ht.2.2.1])
  | turn => exact fun hd => absurd hd (by simp [ht.2.1])
  | again => exact nofun
  | statement =>
    obtain ⟨params, before, hup⟩ := hc
    exact fun _ => .inr ⟨params, before, _, hup⟩
  | next hr =>
    obtain ⟨params, before, hup⟩ := hc
    exact ⟨params, _, hup.next hr⟩
  | statements =>
    obtain ⟨m, enclosing, values, hvalues, rfl⟩ := hc
    exact ⟨_, [], .function hk, hvalues, (rfl : execAll 1 _ [] _ = _)⟩
  | _ => trivial

/-- What is reached from a task of the program is within some body of the program. -/
theorem Reaches.scoped (hw : w.Orderly) (h : Reaches c d) (hk : w.Has c.task)
    (hm : c.machine.Holds (Value.From w.Has)) (hc : c.Scoped w) : d.Scoped w := by
  induction h with
  | refl => exact hc
  | tail h hs ih =>
    obtain ⟨fuel, hs⟩ := hs
    have hk' := (Reaches.stays World.has_heritable h hk hm).1
    exact hs.scoped hk' (hw.tidy hk') ih

end Scoped

section Worlds

variable {w : World} {clock : Nat → Float} {admitted : List Stmt → Prop}

/-- Every statement of a program that is neat is neat. -/
theorem neat_of_mem {program : List Stmt} (ht : Stmt.TidyAll program)
    (hd : (Stmt.idsAll program).Nodup) (hs : s ∈ program) : s.Tidy ∧ s.ids.Nodup := by
  obtain ⟨before, after, rfl⟩ := List.append_of_mem hs
  rw [stmt_idsAll_append] at hd
  exact ⟨(stmt_tidyAll_append.mp ht).2.1,
    (List.nodup_append.mp (List.nodup_append.mp hd).2.1).1⟩

/-- However the execution of a statement ends, the world stays orderly. -/
theorem World.Orderly.ran (h : w.Orderly) (fuel : Nat) (room : Option Nat) (hs : s ∈ w.loaded)
    (c : Config) : Ends (exec fuel room s) w.machine (fun _ t => (w.ran c t).Orderly)
      fun _ t => (w.ran c t).Orderly := by
  have hspared := (sparing fuel).exec true room s w.machine nofun
  have hstays := (staying has_heritable fuel).exec room s w.machine ⟨s, hs, .refl⟩ h.machine
  unfold Spared Ends at hspared
  unfold Stays Ends at hstays
  unfold Ends
  split at hspared <;> simp_all only
  · exact ⟨hspared.keeps.frame.trans h.outside, h.neat, hstays.1⟩
  · exact ⟨hspared.keeps.frame.trans h.outside, h.neat, hstays.1⟩

theorem Reachable.orderly (h : Reachable clock room admitted w) : w.Orderly := by
  induction h with
  | start => exact ⟨rfl, by simp, Machine.Holds.start clock fun _ => .of_ne nofun⟩
  | @load w tokens finish firstId _ _ _ _ ih =>
    obtain ⟨-, hfresh, htidy⟩ := parse_neat tokens finish firstId
    refine ⟨ih.outside, fun s hs => ?_,
      Machine.Holds.mono ⟨ih.machine.locals, ih.machine.globals⟩ ?_⟩
    · rcases List.mem_append.mp hs with hs | hs
      · exact ih.neat s hs
      · exact neat_of_mem htidy hfresh.nodup hs
    · intro v hv c hc
      obtain ⟨s, hs, hk⟩ := hv c hc
      exact ⟨s, List.mem_append_left _ hs, hk⟩
  | file _ _ _ ih => exact ⟨ih.outside, ih.neat, ih.machine.locals, ih.machine.globals⟩
  | @execute w s fuel _ m _ hs hr ih | @stop w s fuel _ m _ hs hr _ ih =>
    have hran := ih.ran fuel room hs ⟨.stmt s, room, w.machine⟩
    simp only [Ends, hr] at hran
    exact hran
  | print _ ih => exact ⟨ih.outside, ih.neat, ih.machine.locals, ih.machine.globals⟩

end Worlds

/-- The arguments of a call are the first variables of its frame. -/
theorem Starts.arguments_bound {id : NodeId} {callee : Expr} {paren : Token} {es : List Expr}
    {fn : Lambda} {inner : Option Nat}
    (hs : Starts fuel ⟨.expr (.call id callee paren es), room, m⟩ ⟨.body fn, inner, t⟩) :
    ∃ m₁ vs m₂, evalAll fuel room es m₁ = .ok vs m₂ ∧ vs.length = fn.params.length ∧
      t.frame = some m₂.store.frames.size ∧
        ∀ j, t.store.value? m₂.store.frames.size j = vs[j]? := by
  cases hs with
  | call he hes ha hr =>
    refine ⟨_, _, _, hes, ha, rfl, fun j => ?_⟩
    simp [Machine.enter, Store.newFrame, Store.value?]

theorem declares_of_declaredName? (h : s.declaredName? = some name) : s.declares = true := by
  cases s <;> first | rfl | cases h

/-- A local declaration stores its value at the place that counts the declarations before it. -/
theorem Reaches.stored {w : World} (h : w.Orderly) (hs : s ∈ w.loaded) {d : Stmt}
    {inner : Option Nat} (hc : Reaches ⟨.stmt s, room, w.machine⟩ ⟨.stmt d, inner, m⟩)
    (hname : d.declaredName? = some name) (hf : m.frame = some i) :
    ∃ params before after, w.Scope params (before ++ d :: after) ∧
      w.UpTo inner params before (d :: after) m ∧
        ∀ fuel completion t, exec fuel inner d m = .ok completion t →
          ∃ fuel v u, Initializes fuel inner d m v u ∧
            t.store.value? i (declaredNames params before).length = some v := by
  have hscoped := Reaches.scoped h hc ⟨s, hs, .refl⟩ h.machine fun _ => .inl h.outside
  obtain hnone | ⟨params, before, after, hup⟩ := hscoped (declares_of_declaredName? hname)
  · cases hnone.symm.trans hf
  · obtain ⟨hi, hslots⟩ := hup.slots h hf
    refine ⟨params, before, after, ?_, hup, fun fuel completion t hr => ?_⟩
    · obtain ⟨hscope, -, -⟩ := hup
      exact hscope
    · rw [← hslots]
      exact stores_declaration hname hf hi hr

/-- In programs that are parsed without error, also where names are declared twice: the slot of a
local declaration is the number of different names that its scope declares before it. That is the
number of declarations before it exactly if none of those repeats a name, and two declarations have
the same slot exactly if all that is declared from the one up to the other repeats a name from
before. It is the slot of the last declaration of its name that a use is given. But what a
declaration stores comes, in the frame of its scope, to the place that counts all declarations
before it. -/
theorem declarations_fill_frames {clock : Nat → Float} {w : World}
    (hw : Reachable clock room (fun _ => True) w) :
    (∀ params body, w.Scope params body → ∀ ps ss name, DeclaredIn params body ps ss name →
      ∀ context walk,
        Resolve.slotAt? context ps ss name walk = some (declaredNames ps ss).toFinset.card ∧
        (Resolve.slotAt? context ps ss name walk = some (declaredNames ps ss).length ↔
          (declaredNames ps ss).Nodup) ∧
        ∀ ps' ss' name' more, DeclaredIn params body ps' ss' name' →
          declaredNames ps' ss' = declaredNames ps ss ++ name.lexeme :: more →
          (Resolve.slotAt? context ps' ss' name' walk = Resolve.slotAt? context ps ss name walk ↔
            name.lexeme :: more ⊆ declaredNames ps ss)) ∧
    (∀ tokens finish firstId u,
      u ∈ (resolve (parse tokens finish firstId).program).located ↔
        ∃ p ∈ places (parse tokens finish firstId).program,
          p.node = .use u.id u.access u.name ∧ Binds p.around.scopes u.name.lexeme u.address) ∧
    (∀ fuel id callee paren es room m fn inner t,
      Starts fuel ⟨.expr (.call id callee paren es), room, m⟩ ⟨.body fn, inner, t⟩ →
      ∃ m₁ vs m₂, evalAll fuel room es m₁ = .ok vs m₂ ∧ vs.length = fn.params.length ∧
        t.frame = some m₂.store.frames.size ∧
          ∀ j, t.store.value? m₂.store.frames.size j = vs[j]?) ∧
    ∀ s ∈ w.loaded, ∀ c, Reaches ⟨.stmt s, room, w.machine⟩ c →
      ∀ d name i, c.task = .stmt d → d.declaredName? = some name → c.machine.frame = some i →
        ∃ params before after, w.Scope params (before ++ d :: after) ∧
          w.UpTo c.room params before (d :: after) c.machine ∧
          ∀ fuel completion t, exec fuel c.room d c.machine = .ok completion t →
            ∃ fuel v u, Initializes fuel c.room d c.machine v u ∧
              t.store.value? i (declaredNames params before).length = some v := by
  have h := hw.orderly
  refine ⟨fun params body hscope ps ss name hd context walk => ?_, ?_,
    fun _ _ _ _ _ _ _ _ _ _ => Starts.arguments_bound, ?_⟩
  · obtain ⟨ht, hn⟩ := h.declared hscope hd
    refine ⟨Resolve.slotAt?_eq ht hn, Resolve.slotAt?_eq_length_iff ht hn, ?_⟩
    intro ps' ss' name' more hd' hmore
    obtain ⟨ht', hn'⟩ := h.declared hscope hd'
    exact Resolve.slotAt?_eq_slotAt?_iff ht hn ht' hn' hmore
  · intro tokens finish firstId
    exact mem_resolve_located_iff_binds (parse_neat tokens finish firstId).2.2
  · rintro s hs ⟨_, inner, m⟩ hc d name i rfl hname hi
    exact Reaches.stored h hs hc hname hi

/-- The name that `redeclared` declares twice. -/
def twiceNamed : Token := ⟨.identifier, "a", .nil, 1⟩

/-- The name that `redeclared` declares last. -/
def lastNamed : Token := ⟨.identifier, "b", .nil, 1⟩

/-- The tokens of a block with two variables of one name, the second of which is true, and a third
variable, which is false and is printed. -/
def redeclared : List Token :=
  [⟨.leftBrace, "\x7b", .nil, 1⟩, ⟨.kwVar, "var", .nil, 1⟩, twiceNamed, ⟨.semicolon, ";", .nil, 1⟩,
    ⟨.kwVar, "var", .nil, 1⟩, twiceNamed, ⟨.equal, "=", .nil, 1⟩, ⟨.kwTrue, "true", .nil, 1⟩,
    ⟨.semicolon, ";", .nil, 1⟩, ⟨.kwVar, "var", .nil, 1⟩, lastNamed, ⟨.equal, "=", .nil, 1⟩,
    ⟨.kwFalse, "false", .nil, 1⟩, ⟨.semicolon, ";", .nil, 1⟩, ⟨.kwPrint, "print", .nil, 1⟩,
    lastNamed, ⟨.semicolon, ";", .nil, 1⟩, ⟨.rightBrace, "\x7d", .nil, 1⟩]

/-- The statements of `redeclared` that come before its last declaration. -/
def twiceDeclared : List Stmt :=
  [.var twiceNamed none, .var twiceNamed (some (.literal 0 (.bool true)))]

/-- The statements of the block that `redeclared` is parsed as. -/
def redeclaredBody : List Stmt :=
  twiceDeclared ++ [.var lastNamed (some (.literal 1 (.bool false))),
    .print (.reference 2 lastNamed)]

def redeclaring : World :=
  World.load ⟨.start fun _ => 0, 0, [], []⟩ (parse redeclared (.endOfInput 1) 0)

theorem declarations_fill_frames_redeclared :
    DeclaredIn [] redeclaredBody [] twiceDeclared lastNamed ∧
      Resolve.slotAt? .program [] twiceDeclared lastNamed .start = some 1 ∧
      ∃ params before after, redeclaring.UpTo none params before
        (.var twiceNamed none :: after) (redeclaring.machine.enter none #[]) := by
  have hprogram : (parse redeclared (.endOfInput 1) 0).program = [.block redeclaredBody] := by
    decide +kernel
  have hw : Reachable (fun _ => 0) none (fun _ => True) redeclaring :=
    .load .start (Nat.le_refl 0) (by decide +kernel) trivial
  have hs : .block redeclaredBody ∈ redeclaring.loaded := by
    simp [redeclaring, World.load, hprogram]
  have hd : DeclaredIn [] redeclaredBody [] twiceDeclared lastNamed := .statement rfl rfl
  have hc : Reaches ⟨.stmt (.block redeclaredBody), none, redeclaring.machine⟩
      ⟨.stmt (.var twiceNamed none), none, redeclaring.machine.enter none #[]⟩ :=
    .tail (.single ⟨0, .block⟩) ⟨0, .statement⟩
  obtain ⟨hslots, -, -, hstores⟩ := declarations_fill_frames hw
  obtain ⟨params, before, after, -, hup, -⟩ := hstores _ hs _ hc _ _ _ rfl rfl rfl
  exact ⟨hd, (hslots [] _ (.block ⟨_, hs, .refl⟩) [] _ _ hd .program .start).1, params, before,
    after, hup⟩

/-- After a name is declared again, a slot is not the number of declarations before: the third
variable here has the slot of the second. So the second is what is printed. -/
theorem slots_fall_behind :
    (parse redeclared (.endOfInput 1) 0).errors = [] ∧
      (parse redeclared (.endOfInput 1) 0).program = [.block redeclaredBody] ∧
      DeclaredIn [] redeclaredBody [] twiceDeclared lastNamed ∧
      (declaredNames [] twiceDeclared).length = 2 ∧
      Resolve.slotAt? .program [] twiceDeclared lastNamed .start = some 1 ∧
      Resolve.slotAt? .program [] [.var twiceNamed none] twiceNamed .start = some 1 ∧
      (resolve [.block redeclaredBody]).located = [⟨2, .read, lastNamed, ⟨0, 1⟩⟩] ∧
      exec 7 none (.block redeclaredBody) redeclaring.machine = .ok .normal
        { redeclaring.machine with
          store := ⟨#[⟨none, #[.nil, .bool true, .bool false]⟩]⟩
          out := "true\n" } := by
  have hprogram : (parse redeclared (.endOfInput 1) 0).program = [.block redeclaredBody] := by
    decide +kernel
  have hlocated : (resolve [.block redeclaredBody]).located = [⟨2, .read, lastNamed, ⟨0, 1⟩⟩] := rfl
  refine ⟨by decide +kernel, hprogram, .statement rfl rfl, rfl, rfl, rfl, hlocated, ?_⟩
  have hmachine : redeclaring.machine =
      { Machine.start fun _ => 0 with resolution := ⟨#[none, none, some ⟨0, 1⟩]⟩ } := by
    rw [redeclaring, World.load, World.file, hprogram, hlocated]
    rfl
  have hout : "" ++ "true" ++ "\n" = "true\n" := by decide
  rw [hmachine, ← hout]
  exact exec_block.mpr ⟨_, execAll_cons.mpr ⟨_, rfl, execAll_cons.mpr ⟨_, rfl,
    execAll_cons.mpr ⟨_, rfl, execAll_cons.mpr ⟨_, rfl, rfl⟩⟩⟩⟩, rfl⟩

end Lox
