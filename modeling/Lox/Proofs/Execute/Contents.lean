import Lox.Proofs.Execute.Reach

/-! The values that a machine holds. -/
namespace Lox

variable {P Q : Value → Prop} {m : Machine} {v : Value}

namespace NameTable

variable {α : Type} {table : NameTable α} {name : String} {a : α}

theorem mem_of_get? (h : table.get? name = some a) : (name, a) ∈ table.entries := by
  obtain ⟨es⟩ := table
  induction es with
  | nil => simp [get?, findEntry] at h
  | cons e es ih =>
    by_cases he : e.1 = name
    · obtain rfl : e.2 = a := by simpa [get?, findEntry, he] using h
      simp [← he]
    · exact List.mem_cons_of_mem _ (ih (by simpa [get?, findEntry, he] using h))

theorem mem_put {e : String × α} (h : e ∈ (table.put name a).entries) :
    e ∈ table.entries ∨ e = (name, a) := by
  obtain ⟨es⟩ := table
  simp only [put] at h ⊢
  induction es with
  | nil => simpa [putEntry] using h
  | cons f es ih =>
    by_cases hf : f.1 = name
    · simp only [putEntry, hf, if_true, List.mem_cons] at h
      rcases h with rfl | h
      · exact Or.inr rfl
      · exact Or.inl (List.mem_cons_of_mem _ h)
    · simp only [putEntry, hf, if_false, List.mem_cons] at h
      rcases h with rfl | h
      · exact Or.inl List.mem_cons_self
      · exact (ih h).imp (List.mem_cons_of_mem _) fun h => h

end NameTable

/-- Every value that a variable has satisfies `P`. -/
structure Machine.Holds (P : Value → Prop) (m : Machine) : Prop where
  locals : ∀ frame ∈ m.store.frames, ∀ v ∈ frame.values, P v
  globals : ∀ entry ∈ m.globals.entries, P entry.2

namespace Machine.Holds

theorem mono (h : m.Holds P) (hPQ : ∀ v, P v → Q v) : m.Holds Q :=
  ⟨fun f hf v hv => hPQ v (h.locals f hf v hv), fun e he => hPQ _ (h.globals e he)⟩

theorem start (clock : Nat → Float) (h : ∀ n, P (.native n)) : (Machine.start clock).Holds P := by
  refine ⟨by simp [Machine.start, Store.empty], ?_⟩
  rintro ⟨name, v⟩ he
  obtain ⟨-, rfl⟩ : name = "clock" ∧ v = .native .clock := by
    simpa [Machine.start, natives, Native.all, NameTable.put, NameTable.empty, NameTable.putEntry,
      Native.name] using he
  exact h _

theorem global (h : m.Holds P) {name : String} (hv : m.globals.get? name = some v) : P v :=
  h.globals _ (NameTable.mem_of_get? hv)

theorem putGlobal (h : m.Holds P) (name : String) (hv : P v) :
    { m with globals := m.globals.put name v }.Holds P := by
  refine ⟨h.locals, fun e he => ?_⟩
  rcases NameTable.mem_put he with he | rfl
  · exact h.globals e he
  · exact hv

theorem value? (h : m.Holds P) {frame slot : Nat} (hv : m.store.value? frame slot = some v) :
    P v := by
  obtain ⟨f, hf, hv⟩ : ∃ f, m.store.frames[frame]? = some f ∧ f.values[slot]? = some v := by
    simpa [Store.value?, Option.bind_eq_some_iff] using hv
  exact h.locals f (Array.mem_of_getElem? hf) v (Array.mem_of_getElem? hv)

/-- What is read from a frame was stored in it. -/
theorem read (h : m.Holds P) {frame distance slot : Nat}
    (hv : m.store.read frame distance slot = .ok v) : P v := by
  simp only [Store.read, Bind.bind, Except.bind] at hv
  split at hv
  · cases hv
  · next target _ =>
    cases hs : m.store.value? target slot with
    | none => simp [hs] at hv
    | some u =>
      obtain rfl : u = v := by simpa [hs] using hv
      exact h.value? hs

/-- Frames are changed one at a time. -/
theorem modify (h : m.Holds P) (frame : FrameId) (f : Array Value → Array Value)
    (hf : ∀ values : Array Value, (∀ v ∈ values, P v) → ∀ v ∈ f values, P v) :
    { m with store := ⟨m.store.frames.modify frame fun g => { g with values := f g.values }⟩ }.Holds
      P := by
  refine ⟨fun g hg v hv => ?_, h.globals⟩
  obtain ⟨i, hi⟩ := Array.getElem?_of_mem hg
  simp only [Array.getElem?_modify] at hi
  split at hi
  · obtain ⟨g', hg', rfl⟩ := Option.map_eq_some_iff.mp hi
    exact hf _ (h.locals g' (Array.mem_of_getElem? hg')) v hv
  · exact h.locals g (Array.mem_of_getElem? hi) v hv

theorem define (h : m.Holds P) (frame : FrameId) (hv : P v) :
    { m with store := m.store.define frame v }.Holds P := by
  refine h.modify frame (·.push v) fun values hvs u hu => ?_
  rcases Array.mem_push.mp hu with hu | rfl
  · exact hvs u hu
  · exact hv

theorem set (h : m.Holds P) (frame : FrameId) (slot : Nat) (hv : P v) :
    { m with store := m.store.set frame slot v }.Holds P := by
  refine h.modify frame (·.set! slot v) fun values hvs u hu => ?_
  rcases Array.mem_or_eq_of_mem_setIfInBounds (by simpa using hu) with hu | rfl
  · exact hvs u hu
  · exact hv

/-- A new frame holds what its values are. -/
theorem enter (h : m.Holds P) (enclosing : Option FrameId) {values : Array Value}
    (hvs : ∀ v ∈ values, P v) : (m.enter enclosing values).Holds P := by
  refine ⟨fun g hg v hv => ?_, h.globals⟩
  rcases Array.mem_push.mp hg with hg | rfl
  · exact h.locals g hg v hv
  · exact hvs v hv

end Machine.Holds

/-! Operators make no functions. -/

theorem UnaryOp.apply_ne {op : UnaryOp} {v w : Value} (h : op.apply v = .ok w) (c : Closure) :
    w ≠ .closure c := by
  cases op <;> cases v <;> simp_all [UnaryOp.apply] <;> (subst h; simp)

/-- No operator makes a function. -/
theorem BinaryOp.apply_ne {op : BinaryOp} {v w u : Value} (h : op.apply v w = .ok u)
    (c : Closure) : u ≠ .closure c := by
  unfold BinaryOp.apply BinaryOp.applyNumbers at h
  split at h <;> (try split at h) <;> (try split at h) <;> simp_all <;> (subst h; simp)

end Lox
