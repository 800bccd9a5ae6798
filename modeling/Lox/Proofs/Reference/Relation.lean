import Mathlib.Data.List.Forall2
import Lox.Proofs.Execute.Growth
import Lox.Proofs.Execute.Reach
import Lox.Proofs.Reference
import Lox.Proofs.Resolve.Walk

/-! When a state of the reference interpreter stands for a machine: every cell is that of one
variable of one frame, and holds the same value. -/
namespace Lox

namespace Reference

open Resolve (address? declared entered enteredAll after)

theorem rel_imp {α α' : Type} {R R' : α → α' → Prop} {a : Option α} {b : Option α'}
    (h : Option.Rel R a b) (hR : ∀ a b, R a b → R' a b) : Option.Rel R' a b := by
  cases h with
  | some h => exact .some (hR _ _ h)
  | none => exact .none

theorem rel_isSome {α α' : Type} {R : α → α' → Prop} {a : Option α} {b : Option α'}
    (h : Option.Rel R a b) : a.isSome = b.isSome := by cases h <;> rfl

/-- A variable of a frame. -/
structure Place where
  frame : FrameId
  slot : Nat
  deriving DecidableEq

/-- The variables that the cells stand for. -/
abbrev Layout := Array Place

variable {β β' β'' : Layout} {n : NodeId} {m m' m'' : Machine} {t : State} {s : Store}
  {frame : Option FrameId} {Γ : List LocalScope} {scope : Scope} {own : Option FrameId}

/-- Every cell goes on standing for the same variable. -/
def Kept (β β' : Layout) : Prop :=
  ∀ (cell : Cell) (place : Place), β[cell]? = some place → β'[cell]? = some place

theorem Kept.refl (β : Layout) : Kept β β := fun _ _ h => h

theorem Kept.trans (h : Kept β β') (h' : Kept β' β'') : Kept β β'' :=
  fun cell place hc => h' cell place (h cell place hc)

/-- The cells of the names in a scope are those of the variables that the addresses of the names
lead to, from a frame outward. Outside of all local scopes there may be a scope without names, as
long as nothing is declared in it. -/
structure Tied (β : Layout) (s : Store) (frame : Option FrameId) (Γ : List LocalScope)
    (scope : Scope) : Prop where
  outside : frame = none ↔ Γ = []
  unscoped : scope = none → Γ = []
  exists_frame : ∀ i ∈ frame, i < s.frames.size
  global : ∀ x, address? x Γ = none → scope.find? x = none
  named : ∀ x a, address? x Γ = some a → ∃ i target cell, frame = some i ∧
    s.ancestor? a.distance i = some target ∧ scope.find? x = some cell ∧
    β[cell]? = some ⟨target, a.slot⟩

/-- Values that are the same but for the scopes that functions keep; those are tied. -/
inductive SameIn (β : Layout) (n : NodeId) (table : Resolution) (s : Store) :
    Value → Value Scope → Prop
  | nil : SameIn β n table s .nil .nil
  | bool (b : Bool) : SameIn β n table s (.bool b) (.bool b)
  | number (x : Float) : SameIn β n table s (.number x) (.number x)
  | string (text : String) : SameIn β n table s (.string text) (.string text)
  | native (f : Native) : SameIn β n table s (.native f) (.native f)
  | closure {name fn frame scope identity Γ} (hp : Lambda.Placed table Γ fn)
    (hf : fn.Faultless Γ) (hn : ∀ id ∈ fn.ids, id < n) (ht : Tied β s frame Γ scope) :
    SameIn β n table s (.closure ⟨name, fn, frame, identity⟩) (.closure ⟨name, fn, scope, identity⟩)

/-- Values that are the same on a machine. -/
abbrev Same (β : Layout) (n : NodeId) (m : Machine) : Value → Value Scope → Prop :=
  SameIn β n m.resolution m.store

abbrev SameEntries (β : Layout) (n : NodeId) (m : Machine) :
    List (String × Value) → List (String × Value Scope) → Prop :=
  List.Forall₂ fun e f => e.1 = f.1 ∧ Same β n m e.2 f.2

/-- A state stands for a machine. -/
structure Simulates (β : Layout) (n : NodeId) (m : Machine) (t : State) : Prop where
  size : t.cells.size = β.size
  frames : ∀ (cell : Cell) (place : Place), β[cell]? = some place →
    place.frame < m.store.frames.size
  injective : ∀ (c d : Cell) (place : Place), β[c]? = some place → β[d]? = some place → c = d
  cells : ∀ (cell : Cell) (place : Place), β[cell]? = some place →
    Option.Rel (Same β n m) (m.store.value? place.frame place.slot) (t.value? cell)
  globals : SameEntries β n m m.globals.entries t.globals.entries
  out : m.out = t.out
  closures : m.closures = t.closures
  clock : m.clock = t.clock
  ticks : m.ticks = t.ticks

/-- What a run leaves as it was. No frame that was there gets variables or cells, except `own`. -/
structure Extends (own : Option FrameId) (β : Layout) (m : Machine) (β' : Layout) (m' : Machine) :
    Prop where
  resolution : m'.resolution = m.resolution
  grows : m.store.Grows m'.store
  kept : Kept β β'
  fresh : ∀ (cell : Cell) (place : Place), β'[cell]? = some place →
    β[cell]? = some place ∨ m.store.frames.size ≤ place.frame ∨ own = some place.frame
  slots : ∀ i, i < m.store.frames.size → own ≠ some i → m'.store.slots i = m.store.slots i

namespace Extends

theorem refl (own : Option FrameId) (β : Layout) (m : Machine) : Extends own β m β m :=
  ⟨rfl, .refl _, .refl β, fun _ _ h => Or.inl h, fun _ _ _ => rfl⟩

/-- What does not change the store changes nothing of this. -/
theorem of_store_eq (hs : m'.store = m.store) (hr : m'.resolution = m.resolution) :
    Extends own β m β m' where
  resolution := hr
  grows := hs ▸ .refl _
  kept := .refl β
  fresh := fun _ _ h => Or.inl h
  slots := fun _ _ _ => by rw [hs]

/-- Two extensions are one. -/
theorem trans (h : Extends own β m β' m') (h' : Extends own β' m' β'' m'') :
    Extends own β m β'' m'' where
  resolution := h'.resolution.trans h.resolution
  grows := h.grows.trans h'.grows
  kept := h.kept.trans h'.kept
  fresh := by
    intro cell place hc
    rcases h'.fresh cell place hc with hc | hf | ho
    · exact h.fresh cell place hc
    · exact Or.inr (Or.inl (Nat.le_trans h.grows.size_le hf))
    · exact Or.inr (Or.inr ho)
  slots := fun i hi ho =>
    (h'.slots i (Nat.lt_of_lt_of_le hi h.grows.size_le) ho).trans (h.slots i hi ho)

theorem widen {own' : Option FrameId} (h : Extends own β m β' m') (ho : ∀ i ∈ own, i ∈ own') :
    Extends own' β m β' m' where
  resolution := h.resolution
  grows := h.grows
  kept := h.kept
  fresh := fun cell place hc => (h.fresh cell place hc).imp_right fun hf => hf.imp_right (ho _)
  slots := fun i hi hne => h.slots i hi fun he => hne (ho i he)

/-- What happens in a new frame changes no other. -/
theorem leave {enclosing : Option FrameId} {values : Array Value}
    (h : Extends (some m.store.frames.size) β (m.enter enclosing values) β' m') :
    Extends none β m β' { m' with frame := m.frame } where
  resolution := h.resolution
  grows := (Store.grows_push _).trans h.grows
  kept := h.kept
  fresh := by
    intro cell place hc
    rcases h.fresh cell place hc with hc | hf | ho
    · exact Or.inl hc
    · simp only [Machine.enter, Store.size_newFrame] at hf
      exact Or.inr (Or.inl (by omega))
    · exact Or.inr (Or.inl (Nat.le_of_eq (Option.some.inj ho)))
  slots := by
    intro i hi _
    have hne : m.store.frames.size ≠ i := Nat.ne_of_gt hi
    have hlt : i < (m.enter enclosing values).store.frames.size := by
      simp only [Machine.enter, Store.size_newFrame]
      omega
    have hslots : (m.enter enclosing values).store.slots i = m.store.slots i := by
      simp [Machine.enter, Store.newFrame, Store.slots, Array.getElem?_push, hne.symm]
    exact (h.slots i hlt (by simpa using hne)).trans hslots

end Extends

/-- Scopes stay tied to their frames while frames are only added to. -/
theorem Tied.mono (h : Tied β s frame Γ scope) {s' : Store} (hk : Kept β β') (hg : s.Grows s') :
    Tied β' s' frame Γ scope where
  outside := h.outside
  unscoped := h.unscoped
  exists_frame := fun i hi => Nat.lt_of_lt_of_le (h.exists_frame i hi) hg.size_le
  global := h.global
  named := by
    intro x a ha
    obtain ⟨i, target, cell, hi, hanc, hx, hc⟩ := h.named x a ha
    exact ⟨i, target, cell, hi, hg.ancestor? hanc, hx, hk cell _ hc⟩

theorem Tied.extend (h : Tied β m.store frame Γ scope) (he : Extends own β m β' m') :
    Tied β' m'.store frame Γ scope := h.mono he.kept he.grows

variable {v v₁ v₂ : Value} {w w₁ w₂ : Value Scope}

/-- Values that are the same stay so. -/
theorem SameIn.mono (h : Same β n m v w) (hk : Kept β β') (hr : m'.resolution = m.resolution)
    (hg : m.store.Grows m'.store) : Same β' n m' v w := by
  cases h with
  | closure hp hf hn ht => exact .closure (hr ▸ hp) hf hn (ht.mono hk hg)
  | _ => constructor

theorem SameIn.extend (h : Same β n m v w) (he : Extends own β m β' m') : Same β' n m' v w :=
  h.mono he.kept he.resolution he.grows

theorem same_literal (l : Literal) : Same β n m l.value l.value := by cases l <;> constructor

/-! What programs can tell about values is the same. -/

theorem SameIn.text (h : Same β n m v w) : v.text = w.text := by cases h <;> rfl

theorem SameIn.arity? (h : Same β n m v w) : v.arity? = w.arity? := by cases h <;> rfl

/-- Comparison does not tell values that are the same apart. -/
theorem SameIn.equals (h₁ : Same β n m v₁ w₁) (h₂ : Same β n m v₂ w₂) :
    v₁.equals v₂ = w₁.equals w₂ := by
  cases h₁ <;> cases h₂ <;> rfl

/-- Computations that end with the same value or the same fault. -/
inductive SameResult (β : Layout) (n : NodeId) (m : Machine) :
    Except RuntimeFault Value → Except RuntimeFault (Value Scope) → Prop
  | ok {v : Value} {w : Value Scope} (h : Same β n m v w) : SameResult β n m (.ok v) (.ok w)
  | error (fault : RuntimeFault) : SameResult β n m (.error fault) (.error fault)

theorem SameIn.unary (h : Same β n m v w) (op : UnaryOp) :
    SameResult β n m (op.apply v) (op.apply w) := by
  cases op <;> cases h <;> first | exact .error _ | exact .ok (.number _) | exact .ok (.bool _)

theorem sameResult_divide (x y : Float) :
    SameResult β n m (BinaryOp.divide.applyNumbers x y) (BinaryOp.divide.applyNumbers x y) := by
  simp only [BinaryOp.applyNumbers]
  split
  · exact .error _
  · exact .ok (.number _)

/-- Operators give the same for the same. -/
theorem SameIn.binary (h₁ : Same β n m v₁ w₁) (h₂ : Same β n m v₂ w₂) (op : BinaryOp) :
    SameResult β n m (op.apply v₁ v₂) (op.apply w₁ w₂) := by
  have he := h₁.equals h₂
  cases op with
  | equal | notEqual =>
    simp only [BinaryOp.apply, he]
    exact .ok (.bool _)
  | divide => cases h₁ <;> cases h₂ <;> first | exact .error _ | exact sameResult_divide _ _
  | _ =>
    cases h₁ <;> cases h₂ <;>
      first | exact .error _ | exact .ok (.number _) | exact .ok (.bool _) | exact .ok (.string _)

/-! Tables of globals. -/

section Globals

variable {es : List (String × Value)} {fs : List (String × Value Scope)}

theorem sameEntries_find (h : SameEntries β n m es fs) (x : String) :
    Option.Rel (Same β n m) (NameTable.findEntry x es) (NameTable.findEntry x fs) := by
  induction h with
  | nil => exact .none
  | @cons e f es fs hef _ ih =>
    by_cases hx : e.1 = x
    · simpa [NameTable.findEntry, hx, hef.1 ▸ hx] using Option.Rel.some hef.2
    · simpa [NameTable.findEntry, hx, hef.1 ▸ hx] using ih

theorem sameEntries_put (h : SameEntries β n m es fs) (x : String) (hv : Same β n m v w) :
    SameEntries β n m (NameTable.putEntry x v es) (NameTable.putEntry x w fs) := by
  induction h with
  | nil => exact .cons ⟨rfl, hv⟩ .nil
  | @cons e f es fs hef htail ih =>
    by_cases hx : e.1 = x
    · simpa [NameTable.putEntry, hx, hef.1 ▸ hx, hv] using htail
    · simpa [NameTable.putEntry, hx, hef.1 ▸ hx, hef] using ih

end Globals

end Reference

end Lox
