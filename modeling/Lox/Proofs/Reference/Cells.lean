import Lox.Proofs.Reference.Relation

/-! Machines and states stay alike when frames are entered, when names are declared, and when
variables are given values. -/
namespace Lox.Reference

open Resolve (address? declared entered enteredAll after New)

variable {β β' : Layout} {n : NodeId} {m m' : Machine} {t : State} {s : Store}
  {frame : Option FrameId} {Γ outer : List LocalScope} {S : LocalScope} {scope : Scope}
  {own : Option FrameId} {v : Value} {w : Value Scope} {i : FrameId} {name : Token}
  {names : List (String × Cell)}

theorem address?_empty (x : String) :
    address? x (.empty :: Γ) =
      (address? x Γ).map fun a => { a with distance := a.distance + 1 } := rfl

theorem address?_put (x y : String) (ready : Bool) :
    address? y (S.put x ⟨S.size, ready⟩ :: outer) =
      if y = x then some ⟨0, S.size⟩ else address? y (S :: outer) := by
  by_cases h : y = x <;> simp [address?, NameTable.get?_put, h]

/-- Whether a name is ready does not matter to its address. -/
theorem address?_declared (x : String) :
    address? x (declared name Γ) = address? x (entered name Γ) := by
  cases Γ with
  | nil => rfl
  | cons S outer => simp only [declared, entered, address?_put]

theorem find?_getD (scope : Scope) (x : String) :
    Scope.find? (some (scope.getD [])) x = scope.find? x := by
  cases scope <;> rfl

/-- The last entry of a name hides those before. -/
theorem find?_cons (x y : String) (cell : Cell) :
    Scope.find? (some ((x, cell) :: names)) y =
      if y = x then some cell else Scope.find? (some names) y := by
  by_cases h : y = x
  · simp [Scope.find?, h]
  · simp [Scope.find?, List.lookup_cons, h, beq_eq_false_iff_ne.mpr h]

theorem getElem?_push_eq_some {p q : Place} {c : Cell} :
    (β.push p)[c]? = some q ↔ β[c]? = some q ∨ c = β.size ∧ q = p := by
  rw [Array.getElem?_push]
  split
  · next h => simp [h, eq_comm]
  · next h => simp [h]

namespace Tied

/-- A new frame has no names. -/
theorem enter (h : Tied β m.store frame Γ scope) (values : Array Value) :
    Tied β (m.enter frame values).store (some m.store.frames.size) (.empty :: Γ)
      (some (scope.getD [])) := by
  have hnew : (m.enter frame values).store.frames[m.store.frames.size]? = some ⟨frame, values⟩ := by
    simp [Machine.enter, Store.newFrame]
  refine ⟨by simp, by simp, by simp [Machine.enter], ?_, ?_⟩
  · intro x hx
    rw [find?_getD]
    exact h.global x (by simpa [address?_empty] using hx)
  · intro x a ha
    obtain ⟨b, hb, rfl⟩ := Option.map_eq_some_iff.mp ((address?_empty x).symm.trans ha)
    obtain ⟨i, target, cell, hi, hanc, hx, hc⟩ := h.named x b hb
    refine ⟨_, target, cell, rfl, ?_, (find?_getD scope x).trans hx, hc⟩
    subst hi
    rw [Store.ancestor?_succ hnew]
    exact (Store.grows_push ⟨some i, values⟩).ancestor? hanc

/-- A name is declared with a cell for the next variable of the innermost frame. -/
theorem put (h : Tied β s (some i) (S :: outer) (some names)) {cell : Cell}
    (hc : β[cell]? = some ⟨i, S.size⟩) (x : String) (ready : Bool) :
    Tied β s (some i) (S.put x ⟨S.size, ready⟩ :: outer) (some ((x, cell) :: names)) := by
  refine ⟨by simp, by simp, h.exists_frame, ?_, ?_⟩
  · intro y hy
    rw [address?_put] at hy
    split at hy
    · cases hy
    · next hne => exact (find?_cons x y cell).trans ((if_neg hne).trans (h.global y hy))
  · intro y a ha
    rw [address?_put] at ha
    split at ha
    · next heq =>
      cases ha
      exact ⟨i, i, cell, rfl, rfl, (find?_cons x y cell).trans (if_pos heq), hc⟩
    · next hne =>
      obtain ⟨j, target, d, hj, hanc, hd, hcell⟩ := h.named y a ha
      exact ⟨j, target, d, hj, hanc, (find?_cons x y cell).trans ((if_neg hne).trans hd), hcell⟩

/-- A variable becomes ready without moving. -/
theorem ready (h : Tied β s frame (declared name Γ) scope) :
    Tied β s frame (entered name Γ) scope := by
  have hΓ : declared name Γ = [] ↔ entered name Γ = [] := by cases Γ <;> simp [declared, entered]
  exact ⟨h.outside.trans hΓ, fun hs => hΓ.mp (h.unscoped hs), h.exists_frame,
    fun x hx => h.global x ((address?_declared x).trans hx),
    fun x a ha => h.named x a ((address?_declared x).trans ha)⟩

end Tied

/-- The innermost frame has the variables of the innermost scope, and cells for no others. -/
structure Level (β : Layout) (s : Store) (frame : Option FrameId) (Γ : List LocalScope) : Prop where
  slots : ∀ i ∈ frame, ∀ S ∈ Γ.head?, s.slots i = S.size
  cells : ∀ i ∈ frame, ∀ (cell : Cell) (slot : Nat), β[cell]? = some ⟨i, slot⟩ → slot < s.slots i

/-- There is nothing to know outside of all local scopes. -/
theorem level_outside {s : Store} : Level β s none [] := ⟨by simp, by simp⟩

/-- A run that leaves the innermost frame alone. -/
theorem Level.extend (h : Level β m.store frame Γ) (he : Extends none β m β' m')
    (hf : ∀ i ∈ frame, i < m.store.frames.size) : Level β' m'.store frame Γ := by
  constructor
  · intro i hi S hS
    rw [he.slots i (hf i hi) nofun]
    exact h.slots i hi S hS
  · intro i hi cell slot hc
    rw [he.slots i (hf i hi) nofun]
    rcases he.fresh cell _ hc with hc | hlt | ho
    · exact h.cells i hi cell slot hc
    · exact absurd (hf i hi) (Nat.not_lt.mpr hlt)
    · cases ho

/-- A cell that is not yet filled holds nothing. -/
theorem value?_push_none (t : State) (c : Cell) :
    State.value? { t with cells := t.cells.push none } c = t.value? c := by
  simp only [State.value?, Array.getElem?_push]
  split
  · next h => simp [h]
  · rfl

theorem value?_set {c : Cell} (hc : c < t.cells.size) (d : Cell) (w : Value Scope) :
    State.value? { t with cells := t.cells.set! c (some w) } d =
      if d = c then some w else t.value? d := by
  simp only [State.value?]
  by_cases h : d = c
  · simp [h, hc]
  · simp [h, Array.getElem?_setIfInBounds_ne (Ne.symm h)]

namespace Simulates

/-- A new cell, for the next variable of a frame. -/
theorem newCell (h : Simulates β n m t) (hi : i < m.store.frames.size)
    (hcells : ∀ (cell : Cell) (slot : Nat), β[cell]? = some ⟨i, slot⟩ → slot < m.store.slots i) :
    Simulates (β.push ⟨i, m.store.slots i⟩) n m { t with cells := t.cells.push none } ∧
      Extends (some i) β m (β.push ⟨i, m.store.slots i⟩) m := by
  have hkept : Kept β (β.push ⟨i, m.store.slots i⟩) :=
    fun cell place hc => getElem?_push_eq_some.mpr (Or.inl hc)
  have hmono {v : Value} {w : Value Scope} (hv : Same β n m v w) :
      Same (β.push ⟨i, m.store.slots i⟩) n m v w := hv.mono hkept rfl (.refl _)
  refine ⟨⟨by simp [h.size], ?_, ?_, ?_, ?_, h.out, h.closures, h.clock, h.ticks⟩, rfl, .refl _,
    hkept, ?_, fun _ _ _ => rfl⟩
  · intro cell place hc
    rcases getElem?_push_eq_some.mp hc with hc | ⟨-, rfl⟩
    · exact h.frames cell place hc
    · exact hi
  · intro c d place hc hd
    rcases getElem?_push_eq_some.mp hc with hc | ⟨hsize, hp⟩ <;>
      rcases getElem?_push_eq_some.mp hd with hd | ⟨hsize', hp'⟩
    · exact h.injective c d place hc hd
    · exact absurd (hcells c _ (hp' ▸ hc)) (Nat.lt_irrefl _)
    · exact absurd (hcells d _ (hp ▸ hd)) (Nat.lt_irrefl _)
    · exact hsize.trans hsize'.symm
  · intro cell place hc
    rw [value?_push_none]
    rcases getElem?_push_eq_some.mp hc with hc | ⟨rfl, rfl⟩
    · exact rel_imp (h.cells cell place hc) fun _ _ => hmono
    · rw [Store.value?_eq_none.mpr (Nat.le_refl _), State.value?, ← h.size]
      simp
  · exact h.globals.imp fun _ _ hef => ⟨hef.1, hmono hef.2⟩
  · intro cell place hc
    rcases getElem?_push_eq_some.mp hc with hc | ⟨-, rfl⟩
    · exact Or.inl hc
    · exact Or.inr (Or.inr rfl)

/-- A variable and its cell are given a value. -/
theorem fill (h : Simulates β n m t) {cell : Cell} {place : Place} (hc : β[cell]? = some place)
    (hg : m.store.Grows s) (hs : ∀ j k, s.value? j k =
      if j = place.frame ∧ k = place.slot then some v else m.store.value? j k)
    (hv : Same β n m v w) :
    Simulates β n { m with store := s } { t with cells := t.cells.set! cell (some w) } := by
  have hlt : cell < t.cells.size := h.size ▸ (Array.getElem?_eq_some_iff.mp hc).1
  have hmono {v : Value} {w : Value Scope} (hv : Same β n m v w) :
      Same β n { m with store := s } v w := hv.mono (.refl β) rfl hg
  refine ⟨by simp [h.size], ?_, h.injective, ?_, ?_, h.out, h.closures, h.clock, h.ticks⟩
  · exact fun c p hp => Nat.lt_of_lt_of_le (h.frames c p hp) hg.size_le
  · intro c p hp
    rw [value?_set hlt, hs]
    by_cases hcell : c = cell
    · obtain rfl : p = place := by simpa [hcell, hc, eq_comm] using hp
      simpa [hcell] using Option.Rel.some (hmono hv)
    · have hne : ¬(p.frame = place.frame ∧ p.slot = place.slot) := by
        rintro ⟨hf, hk⟩
        have : p = place := by
          cases p; cases place; simp_all
        exact hcell (h.injective c cell place (this ▸ hp) hc)
      rw [if_neg hne, if_neg hcell]
      exact rel_imp (h.cells c p hp) fun _ _ => hmono
  · exact h.globals.imp fun _ _ hef => ⟨hef.1, hmono hef.2⟩

theorem putGlobal (h : Simulates β n m t) (x : String) (hv : Same β n m v w) :
    Simulates β n { m with globals := m.globals.put x v } { t with globals := t.globals.put x w } :=
  { h with globals := sameEntries_put h.globals x hv }

theorem get? (h : Simulates β n m t) (x : String) :
    Option.Rel (Same β n m) (m.globals.get? x) (t.globals.get? x) := sameEntries_find h.globals x

/-- A new frame has no cells. -/
theorem enter (h : Simulates β n m t) (enclosing : Option FrameId) :
    Simulates β n (m.enter enclosing #[]) t := by
  have hmono {v : Value} {w : Value Scope} (hv : Same β n m v w) :
      Same β n (m.enter enclosing #[]) v w := hv.mono (.refl β) rfl (Store.grows_push _)
  refine ⟨h.size, ?_, h.injective, ?_, ?_, h.out, h.closures, h.clock, h.ticks⟩
  · intro cell place hc
    simpa [Machine.enter] using Nat.lt_succ_of_lt (h.frames cell place hc)
  · intro cell place hc
    have hne : place.frame ≠ m.store.frames.size := Nat.ne_of_lt (h.frames cell place hc)
    have hvalue : (m.enter enclosing #[]).store.value? place.frame place.slot =
        m.store.value? place.frame place.slot := by
      simp [Machine.enter, Store.newFrame, Store.value?, Array.getElem?_push, hne]
    rw [hvalue]
    exact rel_imp (h.cells cell place hc) fun _ _ => hmono
  · exact h.globals.imp fun _ _ hef => ⟨hef.1, hmono hef.2⟩

end Simulates

/-- A new frame is as wide as the scope that it opens. -/
theorem Level.enter (h : Simulates β n m t) (enclosing : Option FrameId) :
    Level β (m.enter enclosing #[]).store (some m.store.frames.size) (.empty :: Γ) := by
  constructor
  · rintro i ⟨⟩ S ⟨⟩
    simp [Machine.enter, Store.newFrame, Store.slots, NameTable.size, NameTable.empty]
  · rintro i ⟨⟩ cell slot hc
    exact absurd (h.frames cell _ hc) (Nat.lt_irrefl _)

theorem size_put_new {x : String} {ready : Bool} (h : S.get? x = none) :
    (S.put x ⟨S.size, ready⟩).size = S.size + 1 := by
  simp [NameTable.size_put, NameTable.contains, h]

/-- The declaration of the next variable of a frame has begun: the variable has a cell. -/
structure Begun (β : Layout) (s : Store) (i : FrameId) (S : LocalScope) (cell : Cell) : Prop where
  slots : s.slots i = S.size
  cell : β[cell]? = some ⟨i, S.size⟩
  cells : ∀ (c : Cell) (slot : Nat), β[c]? = some ⟨i, slot⟩ → slot ≤ S.size

/-- A declaration begins. -/
theorem Simulates.begin (h : Simulates β n m t)
    (ht : Tied β m.store (some i) (S :: outer) (some names))
    (hl : Level β m.store (some i) (S :: outer)) (x : String) :
    ∃ β', Simulates β' n m { t with cells := t.cells.push none } ∧ Extends (some i) β m β' m ∧
      Tied β' m.store (some i) (S.put x ⟨S.size, false⟩ :: outer)
        (some ((x, t.cells.size) :: names)) ∧ Begun β' m.store i S t.cells.size := by
  have hslots := hl.slots i rfl S rfl
  obtain ⟨hsim, hext⟩ := h.newCell (ht.exists_frame i rfl) (hl.cells i rfl)
  have hcell : (β.push ⟨i, m.store.slots i⟩)[t.cells.size]? = some ⟨i, S.size⟩ :=
    getElem?_push_eq_some.mpr (Or.inr ⟨h.size, by rw [hslots]⟩)
  refine ⟨_, hsim, hext, (ht.extend hext).put hcell x false, hslots, hcell, ?_⟩
  intro c slot hc
  rcases getElem?_push_eq_some.mp hc with hc | ⟨-, hp⟩
  · exact Nat.le_of_lt (hslots ▸ hl.cells i rfl c slot hc)
  · exact Nat.le_of_eq ((Place.mk.inj hp).2.trans hslots)

namespace Begun

variable {cell : Cell}

/-- A run that leaves the frame alone. -/
theorem extend (h : Begun β m.store i S cell) (he : Extends none β m β' m')
    (hi : i < m.store.frames.size) : Begun β' m'.store i S cell := by
  refine ⟨(he.slots i hi nofun).trans h.slots, he.kept _ _ h.cell, fun c slot hc => ?_⟩
  rcases he.fresh c _ hc with hc | hlt | ho
  · exact h.cells c slot hc
  · exact absurd hi (Nat.not_lt.mpr hlt)
  · cases ho

/-- A declaration is complete: the variable has a value. -/
theorem complete (h : Begun β m.store i S cell) (hs : Simulates β n m t)
    (hi : i < m.store.frames.size) {x : String} (hx : S.get? x = none) (hv : Same β n m v w) :
    Simulates β n { m with store := m.store.define i v }
        { t with cells := t.cells.set! cell (some w) } ∧
      Extends (some i) β m β { m with store := m.store.define i v } ∧
      Level β (m.store.define i v) (some i) (S.put x ⟨S.size, true⟩ :: outer) := by
  have hg := Store.grows_define (s := m.store) i v
  have hslots := Store.slots_define_self hi v
  refine ⟨hs.fill h.cell hg ?_ hv, ⟨rfl, hg, .refl β, fun _ _ h => Or.inl h, ?_⟩, ?_, ?_⟩
  · intro j k
    rw [Store.value?_define hi, h.slots]
  · exact fun j _ hne => Store.slots_define_of_ne (fun he => hne (congrArg some he)) v
  · rintro j ⟨⟩ S' ⟨⟩
    rw [hslots, h.slots, size_put_new hx]
  · rintro j ⟨⟩ c slot hc
    have := h.cells c slot hc
    rw [hslots, h.slots]
    omega

end Begun

end Lox.Reference
