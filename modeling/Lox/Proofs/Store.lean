import Lox.Store

/-! What a store holds after each of its operations. It only grows: no frame is ever linked anew or
loses a variable. -/
namespace Lox.Store

/-- Every frame is still there, with its link and at least as many variables. -/
def Grows (s t : Store) : Prop :=
  ∀ (i : FrameId) (f : Frame), s.frames[i]? = some f →
    ∃ g, t.frames[i]? = some g ∧ g.enclosing = f.enclosing ∧ f.values.size ≤ g.values.size

variable {s t u : Store}

theorem Grows.refl (s : Store) : s.Grows s := fun _ f hf => ⟨f, hf, rfl, Nat.le_refl _⟩

theorem Grows.trans (h : s.Grows t) (h' : t.Grows u) : s.Grows u := by
  intro i f hf
  obtain ⟨g, hg, hl, hs⟩ := h i f hf
  obtain ⟨k, hk, hl', hs'⟩ := h' i g hg
  exact ⟨k, hk, hl'.trans hl, Nat.le_trans hs hs'⟩

theorem grows_modify (frame : FrameId) (f : Array Value → Array Value)
    (hf : ∀ values, values.size ≤ (f values).size) :
    s.Grows ⟨s.frames.modify frame fun g => { g with values := f g.values }⟩ := by
  intro i g hg
  simp only [Array.getElem?_modify, hg]
  split
  · exact ⟨_, rfl, rfl, hf g.values⟩
  · exact ⟨g, rfl, rfl, Nat.le_refl _⟩

theorem grows_define (frame : FrameId) (v : Value) : s.Grows (s.define frame v) :=
  grows_modify frame (·.push v) fun values => by simp

theorem grows_set (frame : FrameId) (slot : Nat) (v : Value) : s.Grows (s.set frame slot v) :=
  grows_modify frame (·.set! slot v) fun values => by simp

theorem grows_push (frame : Frame) : s.Grows ⟨s.frames.push frame⟩ := by
  intro i f hf
  obtain ⟨hi, -⟩ := Array.getElem?_eq_some_iff.mp hf
  exact ⟨f, by simpa [Array.getElem?_push_lt hi] using (Array.getElem?_eq_some_iff.mp hf).2, rfl,
    Nat.le_refl _⟩

theorem Grows.size_le (h : s.Grows t) : s.frames.size ≤ t.frames.size := by
  refine Nat.not_lt.mp fun hlt => ?_
  obtain ⟨g, hg, -⟩ := h t.frames.size _ (Array.getElem?_eq_getElem hlt)
  simp at hg

section Slots

theorem Grows.slots (h : s.Grows t) (i : FrameId) : s.slots i ≤ t.slots i := by
  unfold Store.slots
  cases hf : s.frames[i]? with
  | none => simp
  | some f =>
    obtain ⟨g, hg, -, hs⟩ := h i f hf
    simpa [hg] using hs

theorem slots_define {frame : FrameId} {f : Frame} (hf : s.frames[frame]? = some f) (v : Value) :
    (s.define frame v).slots frame = s.slots frame + 1 := by
  simp [Store.slots, getElem?_define, hf]

theorem slots_define_self {i : FrameId} (hi : i < s.frames.size) (v : Value) :
    (s.define i v).slots i = s.slots i + 1 :=
  slots_define (Array.getElem?_eq_getElem hi) v

/-- A definition widens no frame but its own. -/
theorem slots_define_of_ne {i j : FrameId} (h : i ≠ j) (v : Value) :
    (s.define i v).slots j = s.slots j := by
  simp [Store.slots, getElem?_define, h]

/-- Assigning widens no frame. -/
theorem slots_set (frame : FrameId) (slot : Nat) (v : Value) (i : FrameId) :
    (s.set frame slot v).slots i = s.slots i := by
  simp only [Store.slots, getElem?_set]
  split
  · cases s.frames[i]? <;> simp
  · rfl

end Slots

section Values

/-- A definition fills the next slot of its frame, and no other. -/
theorem value?_define {i : FrameId} (hi : i < s.frames.size) (v : Value) (j : FrameId)
    (slot : Nat) : (s.define i v).value? j slot =
      if j = i ∧ slot = s.slots i then some v else s.value? j slot := by
  simp only [value?, getElem?_define, Store.slots]
  by_cases hj : j = i
  · subst hj
    simp [Array.getElem?_eq_getElem hi, Array.getElem?_push]
  · simp [hj, Ne.symm hj]

/-- Assigning changes one slot. -/
theorem value?_set {i : FrameId} {slot : Nat} (hs : slot < s.slots i) (v : Value) (j : FrameId)
    (k : Nat) : (s.set i slot v).value? j k =
      if j = i ∧ k = slot then some v else s.value? j k := by
  simp only [value?, getElem?_set]
  by_cases hj : j = i
  · subst hj
    cases hf : s.frames[j]? with
    | none => simp [Store.slots, hf] at hs
    | some f =>
      have hs : slot < f.values.size := by simpa [Store.slots, hf] using hs
      by_cases hk : k = slot
      · simp [hk, hs]
      · simp [hk, Array.getElem?_setIfInBounds_ne (Ne.symm hk)]
  · simp [hj, Ne.symm hj]

theorem value?_eq_none {i : FrameId} {slot : Nat} :
    s.value? i slot = none ↔ s.slots i ≤ slot := by
  cases hf : s.frames[i]? with
  | none => simp [value?, Store.slots, hf]
  | some f => simp [value?, Store.slots, hf]

end Values

section Ancestors

/-- The frame some links out, if there is one. -/
theorem ancestor?_succ {frame : FrameId} {f : Frame} (hf : s.frames[frame]? = some f)
    (distance : Nat) :
    s.ancestor? (distance + 1) frame = f.enclosing.bind (s.ancestor? distance) := by
  simp [Store.ancestor?, hf]

/-- A store that grows keeps its chains. -/
theorem Grows.ancestor? (h : s.Grows t) {distance : Nat} {i j : FrameId}
    (ha : s.ancestor? distance i = some j) : t.ancestor? distance i = some j := by
  induction distance generalizing i with
  | zero => exact ha
  | succ distance ih =>
    cases hf : s.frames[i]? with
    | none => simp [Store.ancestor?, hf] at ha
    | some f =>
      obtain ⟨g, hg, hl, -⟩ := h i f hf
      rw [ancestor?_succ hf, Option.bind_eq_some_iff] at ha
      rw [ancestor?_succ hg, hl, Option.bind_eq_some_iff]
      obtain ⟨k, hk, ha⟩ := ha
      exact ⟨k, hk, ih ha⟩

variable {frame target : FrameId} {distance slot : Nat}

/-- Only a variable that is not there yet is missed. -/
theorem locate_of_ancestor? {f : Frame} (ha : s.ancestor? distance frame = some target)
    (hf : s.frames[target]? = some f) (slot : Nat) :
    s.locate frame distance slot =
      if slot < s.slots target then .ok target else .error .noSlot := by
  simp [locate, ha, hf, Store.slots]

/-- The variable at a place is read if it is there. -/
theorem read_eq (ha : s.ancestor? distance frame = some target) (ht : target < s.frames.size)
    (slot : Nat) : s.read frame distance slot =
      (s.value? target slot).elim (.error .noSlot) .ok := by
  have hl := locate_of_ancestor? ha (Array.getElem?_eq_getElem ht) slot
  simp only [read, hl, Bind.bind, Except.bind]
  split
  · next h =>
    split at h
    · cases h
    · next hlt =>
      cases h
      rw [value?_eq_none.mpr (Nat.not_lt.mp hlt)]
      rfl
  · next h =>
    split at h
    · cases h
      rfl
    · cases h

theorem read_ne_noFrame {f : Frame} (ha : s.ancestor? distance frame = some target)
    (hf : s.frames[target]? = some f) : s.read frame distance slot ≠ .error .noFrame := by
  rw [read_eq ha (Array.getElem?_eq_some_iff.mp hf).1]
  cases s.value? target slot <;> simp

/-- A variable that is found has a value. -/
theorem exists_read (h : s.locate frame distance slot = .ok target) :
    ∃ v, s.read frame distance slot = .ok v := by
  have hlt := slot_lt_of_locate h
  cases hf : s.frames[target]? with
  | none => simp [Store.slots, hf] at hlt
  | some f =>
    have hlt : slot < f.values.size := by simpa [Store.slots, hf] using hlt
    exact ⟨f.values[slot], by simp [read, h, value?, hf, hlt, Bind.bind, Except.bind]⟩

end Ancestors

end Lox.Store
