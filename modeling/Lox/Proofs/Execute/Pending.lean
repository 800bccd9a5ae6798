import Lox.Proofs.Execute.Growth
import Lox.Proofs.Resolve.Scopes

/-! How the scopes of a place in a program fit the frames it is executed in: every name that a scope
has is a variable of its frame, unless the declaration of that variable is not complete. -/
namespace Lox

open Resolve (declared entered enteredAll)

/-- The declaration of a variable that has begun: the frame it will be in, its place there, its
name, and the identities within its initial value. -/
structure Pending where
  frame : FrameId
  slot : Nat
  name : String
  ids : List NodeId

/-- A declaration is that of a variable, and some code stands in its initial value. -/
structure Pending.Explains (p : Pending) (frame : FrameId) (slot : Nat) (name : String)
    (ids : List NodeId) : Prop where
  frame : p.frame = frame
  slot : p.slot = slot
  name : p.name = name
  ids : ids ⊆ p.ids

/-- The scopes of a piece of code fit the frames from one outward. `ids` are the identities in the
code: where a variable is missing, it is the next one of its frame, its declaration is among `E`,
and the code stands within that. -/
def Fits (E : Pending → Prop) (s : Store) (ids : List NodeId) :
    Option FrameId → List LocalScope → Prop
  | none, [] => True
  | some frame, scope :: outer => ∃ f, s.frames[frame]? = some f ∧
      (∀ name b, scope.get? name = some b → b.slot < f.values.size ∨
        b.slot = f.values.size ∧ ∃ p, E p ∧ p.Explains frame b.slot name ids) ∧
      Fits E s ids f.enclosing outer
  | _, _ => False

/-- The innermost frame has at least as many variables as the innermost scope has names. -/
def Roomy (s : Store) (frame : Option FrameId) (Γ : List LocalScope) : Prop :=
  ∀ i ∈ frame, ∀ scope ∈ Γ.head?, scope.size ≤ s.slots i

variable {E E' : Pending → Prop} {s t : Store} {ids ids' : List NodeId} {frame : Option FrameId}
  {Γ : List LocalScope} {name : Token}

/-- A declaration that is not complete may be dropped once its variable is there. -/
theorem Fits.mono (h : Fits E s ids frame Γ) (hg : s.Grows t) (hi : ids' ⊆ ids)
    (hE : ∀ p, E p → E' p ∨ p.slot < t.slots p.frame) : Fits E' t ids' frame Γ := by
  induction Γ generalizing frame with
  | nil => cases frame <;> exact h
  | cons scope outer ih =>
    cases frame with
    | none => exact h
    | some i =>
      obtain ⟨f, hf, hb, ho⟩ := h
      obtain ⟨g, hgf, hl, hs⟩ := hg i f hf
      refine ⟨g, hgf, fun name b hget => ?_, hl ▸ ih ho⟩
      rcases hb name b hget with hlt | ⟨heq, p, hp, hx⟩
      · exact Or.inl (Nat.lt_of_lt_of_le hlt hs)
      · rcases Nat.lt_or_eq_of_le (heq ▸ hs : b.slot ≤ g.values.size) with hlt | heq
        · exact Or.inl hlt
        · rcases hE p hp with hp | hlt
          · exact Or.inr ⟨heq, p, hp, { hx with ids := fun id hid => hx.ids (hi hid) }⟩
          · exact Or.inl (by simpa [hx.frame, hx.slot, Store.slots, hgf] using hlt)

theorem Fits.grow (h : Fits E s ids frame Γ) (hg : s.Grows t) : Fits E t ids frame Γ :=
  h.mono hg (fun _ h => h) fun _ h => Or.inl h

theorem Fits.subset (h : Fits E s ids frame Γ) (hi : ids' ⊆ ids) : Fits E s ids' frame Γ :=
  h.mono (.refl s) hi fun _ h => Or.inl h

theorem Fits.imp (h : Fits E s ids frame Γ) (hE : ∀ p, E p → E' p) : Fits E' s ids frame Γ :=
  h.mono (.refl s) (fun _ h => h) fun p hp => Or.inl (hE p hp)

/-- The innermost frame is in the store. -/
theorem Fits.exists_frame (h : Fits E s ids frame Γ) {i : FrameId} (hi : i ∈ frame) :
    ∃ f, s.frames[i]? = some f := by
  obtain rfl : frame = some i := hi
  cases Γ with
  | nil => exact h.elim
  | cons scope outer =>
    obtain ⟨f, hf, -⟩ := h
    exact ⟨f, hf⟩

theorem Roomy.grow (h : Roomy s frame Γ) (hg : s.Grows t) : Roomy t frame Γ :=
  fun i hi scope hs => Nat.le_trans (h i hi scope hs) (hg.slots i)

/-- The address of a name leads to a frame, where the variable is missing only if its declaration is
not complete. -/
theorem Fits.address (h : Fits E s ids frame Γ) {x : String} {a : Address}
    (ha : Resolve.address? x Γ = some a) :
    ∃ i target f, frame = some i ∧ s.ancestor? a.distance i = some target ∧
      s.frames[target]? = some f ∧ (a.slot < s.slots target ∨
        a.slot = s.slots target ∧ ∃ p, E p ∧ p.Explains target a.slot x ids) := by
  induction Γ generalizing frame a with
  | nil => simp [Resolve.address?] at ha
  | cons scope outer ih =>
    cases frame with
    | none => exact h.elim
    | some i =>
      obtain ⟨f, hf, hb, ho⟩ := h
      simp only [Resolve.address?] at ha
      cases hget : scope.get? x with
      | some b =>
        obtain rfl : ⟨0, b.slot⟩ = a := by simpa [hget] using ha
        refine ⟨i, i, f, rfl, rfl, hf, ?_⟩
        simpa [Store.slots, hf] using hb x b hget
      | none =>
        obtain ⟨a', ha', rfl⟩ : ∃ a', Resolve.address? x outer = some a' ∧
            { a' with distance := a'.distance + 1 } = a := by
          simpa [hget] using ha
        obtain ⟨j, target, g, hj, hanc, hg, hslot⟩ := ih ho ha'
        exact ⟨i, target, g, rfl, by simp [Store.ancestor?_succ hf, hj, hanc], hg, hslot⟩

/-- A name can be entered if its variable is there, or its declaration has begun. -/
theorem Fits.put {scope : LocalScope} {outer : List LocalScope} {i : FrameId} {ready : Bool}
    (h : Fits E s ids (some i) (scope :: outer)) (x : String)
    (hx : scope.size < s.slots i ∨
      scope.size = s.slots i ∧ ∃ p, E p ∧ p.Explains i scope.size x ids) :
    Fits E s ids (some i) (scope.put x ⟨scope.size, ready⟩ :: outer) := by
  obtain ⟨f, hf, hb, ho⟩ := h
  refine ⟨f, hf, fun y b hget => ?_, ho⟩
  rw [NameTable.get?_put] at hget
  split at hget
  · next hy =>
    obtain rfl : ⟨scope.size, ready⟩ = b := by simpa using hget
    simpa [hy, Store.slots, hf] using hx
  · exact hb y b hget

/-- A declaration begins: its variable will take the next place in the frame. -/
theorem Fits.begin (h : Fits E s ids frame Γ) (hr : Roomy s frame Γ)
    (hE : ∀ i ∈ frame, E ⟨i, s.slots i, name.lexeme, ids⟩) :
    Fits E s ids frame (declared name Γ) := by
  cases Γ with
  | nil => exact h
  | cons scope outer =>
    cases frame with
    | none => exact h.elim
    | some i =>
      refine h.put name.lexeme ?_
      rcases Nat.lt_or_ge scope.size (s.slots i) with hlt | hge
      · exact Or.inl hlt
      · have heq := Nat.le_antisymm (hr i rfl scope rfl) hge
        exact Or.inr ⟨heq, _, hE i rfl, rfl, heq.symm, rfl, fun _ h => h⟩

/-- A declaration is complete: the innermost frame has a variable more. -/
theorem Fits.complete (name : Token) (h : Fits E s ids frame Γ) (hr : Roomy s frame Γ)
    (hg : s.Grows t) (hlt : ∀ i ∈ frame, s.slots i < t.slots i) :
    Fits E t ids frame (entered name Γ) ∧ Roomy t frame (entered name Γ) := by
  cases Γ with
  | nil =>
    cases frame with
    | none => exact ⟨trivial, by simp [Roomy]⟩
    | some i => exact h.elim
  | cons scope outer =>
    cases frame with
    | none => exact h.elim
    | some i =>
      have hsize := hr i rfl scope rfl
      have hslots := hlt i rfl
      refine ⟨(h.grow hg).put name.lexeme (Or.inl (Nat.lt_of_le_of_lt hsize hslots)), ?_⟩
      intro j hj scope' hs
      obtain rfl : i = j := by simpa using hj
      obtain rfl : scope.put name.lexeme ⟨scope.size, true⟩ = scope' := by
        simpa [entered] using hs
      exact Nat.le_trans (NameTable.size_put_le _ _ _) (by omega)

theorem Fits.parameters {scope : LocalScope} {outer : List LocalScope} {i : FrameId}
    (names : List Token) (h : Fits E s ids (some i) (scope :: outer))
    (hlen : scope.size + names.length ≤ s.slots i) :
    Fits E s ids (some i) (enteredAll names (scope :: outer)) ∧
      Roomy s (some i) (enteredAll names (scope :: outer)) := by
  induction names generalizing scope with
  | nil =>
    refine ⟨h, ?_⟩
    intro j hj scope' hs
    obtain rfl : i = j := by simpa using hj
    obtain rfl : scope = scope' := by simpa [enteredAll] using hs
    simpa using hlen
  | cons name names ih =>
    simp only [List.length_cons] at hlen
    have hsize := NameTable.size_put_le scope name.lexeme ⟨scope.size, true⟩
    exact ih (h.put name.lexeme (Or.inl (by omega))) (by omega)

/-- A new frame for the scope of a block or a function, with the parameters in it. -/
theorem Fits.enter {m : Machine} {enclosing : Option FrameId} (values : Array Value)
    (names : List Token) (h : Fits E m.store ids enclosing Γ) (hlen : names.length = values.size) :
    Fits E (m.enter enclosing values).store ids (m.enter enclosing values).frame
        (enteredAll names (.empty :: Γ)) ∧
      Roomy (m.enter enclosing values).store (m.enter enclosing values).frame
        (enteredAll names (.empty :: Γ)) := by
  have hnew : (m.enter enclosing values).store.frames[m.store.frames.size]? =
      some ⟨enclosing, values⟩ := by
    simp [Machine.enter, Store.newFrame]
  have hempty : Fits E (m.enter enclosing values).store ids (some m.store.frames.size)
      (.empty :: Γ) := ⟨_, hnew, by simp, h.grow (Store.grows_push _)⟩
  refine hempty.parameters names ?_
  simp [NameTable.size, NameTable.empty, Store.slots, hnew, hlen]

end Lox
