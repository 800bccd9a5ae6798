import Mathlib.Data.List.Induction
import Lox.Machine
import Lox.Proofs.Store

/-! Histories of a store: what its variables hold after any operations on any number of frames. A
variable is reached along a route, from a frame outward. Chains of frames share their outer parts,
so that many routes lead to one variable; whichever is taken, there is the value that was last
stored. -/
namespace Lox

/-- A route to a variable: the frame it starts from, how many frames it goes out, and the place in
the frame it comes to. -/
structure Route where
  frame : FrameId
  distance : Nat
  slot : Nat

inductive Operation where
  | newFrame (enclosing : Option FrameId)
  | define (frame : FrameId) (value : Value)
  | read (r : Route)
  | write (r : Route) (value : Value)

/-- Whether an operation adds a variable to a frame. -/
def Operation.defines (frame : FrameId) : Operation → Bool
  | define f _ => f == frame
  | _ => false

namespace Store

def readAt (s : Store) (r : Route) : Except StoreFault Value := s.read r.frame r.distance r.slot

def writeAt (s : Store) (r : Route) (value : Value) : Except StoreFault Store :=
  s.write r.frame r.distance r.slot value

def after (s : Store) : Operation → Store
  | .newFrame enclosing => (s.newFrame enclosing #[]).2
  | .define frame value => s.define frame value
  | .read _ => s
  | .write r value =>
    match s.writeAt r value with
    | .ok t => t
    | .error _ => s

def afterAll (s : Store) (ops : List Operation) : Store := ops.foldl after s

/-- A route stays within the chain of frames, and comes to one of them. -/
def Leads (s : Store) (r : Route) (target : FrameId) : Prop :=
  r.frame < s.frames.size ∧ s.ancestor? r.distance r.frame = some target

/-- Operations are about frames that are there, and their routes stay within the chain. -/
def Allows (s : Store) : Operation → Prop
  | .newFrame enclosing => ∀ i ∈ enclosing, i < s.frames.size
  | .define frame _ => frame < s.frames.size
  | .read r | .write r _ => ∃ target, s.Leads r target

def AllowsAll (s : Store) : List Operation → Prop
  | [] => True
  | op :: ops => s.Allows op ∧ (s.after op).AllowsAll ops

/-- Two routes lead to the same variable: whatever is done, there is the same to be read. -/
def SameVariable (s : Store) (a b : Route) : Prop :=
  ∀ ops, s.AllowsAll ops → (s.afterAll ops).readAt a = (s.afterAll ops).readAt b

/-- The number of variables that operations have added to a frame. -/
def defined (frame : FrameId) (ops : List Operation) : Nat := ops.countP (·.defines frame)

/-- What an operation stores that comes after some others: a value in a new variable of a frame, or
in one that is there, whatever the route. -/
inductive Stores (before : List Operation) : Operation → FrameId → Nat → Value → Prop
  | define {frame value} :
    Stores before (.define frame value) frame (defined frame before) value
  | write {r value target} (hr : (empty.afterAll before).Leads r target)
    (hs : r.slot < defined target before) : Stores before (.write r value) target r.slot value

/-- The value that was last stored in a variable. -/
inductive LastStored : List Operation → FrameId → Nat → Value → Prop
  | now {ops op frame slot value} (h : Stores ops op frame slot value) :
    LastStored (ops ++ [op]) frame slot value
  | earlier {ops op frame slot value} (h : LastStored ops frame slot value)
    (hn : ∀ other, ¬ Stores ops op frame slot other) : LastStored (ops ++ [op]) frame slot value

variable {s t : Store} {r a b : Route} {target i : FrameId} {ops more : List Operation}
  {op : Operation} {v : Value}

section Sequences

theorem afterAll_append : s.afterAll (ops ++ more) = (s.afterAll ops).afterAll more :=
  List.foldl_append

theorem afterAll_concat : s.afterAll (ops ++ [op]) = (s.afterAll ops).after op :=
  afterAll_append

theorem allowsAll_append :
    s.AllowsAll (ops ++ more) ↔ s.AllowsAll ops ∧ (s.afterAll ops).AllowsAll more := by
  induction ops generalizing s with
  | nil => simp [AllowsAll, afterAll]
  | cons op ops ih => simp [AllowsAll, afterAll, ih, and_assoc]

theorem allowsAll_concat :
    s.AllowsAll (ops ++ [op]) ↔ s.AllowsAll ops ∧ (s.afterAll ops).Allows op := by
  simp [allowsAll_append, AllowsAll]

theorem defined_concat :
    defined i (ops ++ [op]) = defined i ops + if op.defines i then 1 else 0 := by
  simp [defined, List.countP_append, List.countP_cons]

end Sequences

section Links

/-- The link of a frame, if the frame is there. -/
def link? (s : Store) (i : FrameId) : Option (Option FrameId) := s.frames[i]?.map (·.enclosing)

/-- Links lead to frames that are there. -/
def Linked (s : Store) : Prop := ∀ i j, s.link? i = some (some j) → j < s.frames.size

theorem linked_empty : empty.Linked := by simp [Linked, link?, empty]

theorem link?_define (frame : FrameId) (v : Value) (i : FrameId) :
    (s.define frame v).link? i = s.link? i := by
  simp only [link?, getElem?_define]
  split
  · cases s.frames[i]? <;> rfl
  · rfl

theorem link?_set (frame : FrameId) (slot : Nat) (v : Value) (i : FrameId) :
    (s.set frame slot v).link? i = s.link? i := by
  simp only [link?, getElem?_set]
  split
  · cases s.frames[i]? <;> rfl
  · rfl

/-- Within the chain no route leaves the store. -/
theorem Leads.target_lt (h : s.Leads r target) (hs : s.Linked) : target < s.frames.size := by
  obtain ⟨hframe, ha⟩ := h
  generalize r.frame = i at hframe ha
  induction hd : r.distance generalizing r i with
  | zero =>
    rw [hd] at ha
    exact Option.some.inj ha ▸ hframe
  | succ distance ih =>
    have hf := Array.getElem?_eq_getElem hframe
    rw [hd, ancestor?_succ hf, Option.bind_eq_some_iff] at ha
    obtain ⟨j, hj, ha⟩ := ha
    have hlink : s.link? i = some (some j) := by simp [link?, hf, hj]
    exact ih (r := { r with distance }) j (hs i j hlink) ha rfl

end Links

section Steps

/-- The value of the variable that a route leads to, if it is there. -/
theorem readAt_eq (h : s.Leads r target) (hs : s.Linked) :
    s.readAt r = (s.value? target r.slot).elim (.error .noSlot) .ok :=
  read_eq h.2 (h.target_lt hs) r.slot

/-- A write by a route is a write to the frame the route leads to. -/
theorem writeAt_eq (h : s.Leads r target) (hs : s.Linked) (v : Value) :
    s.writeAt r v =
      if r.slot < s.slots target then .ok (s.set target r.slot v) else .error .noSlot := by
  have hl := locate_of_ancestor? h.2 (Array.getElem?_eq_getElem (h.target_lt hs)) r.slot
  simp only [writeAt, write, hl]
  split <;> rfl

theorem after_write (h : s.Leads r target) (hs : s.Linked) (v : Value) :
    s.after (.write r v) = if r.slot < s.slots target then s.set target r.slot v else s := by
  rw [after, writeAt_eq h hs]
  by_cases hlt : r.slot < s.slots target <;> simp [hlt]

theorem readAt_eq_ok_iff (h : s.Leads r target) (hs : s.Linked) :
    s.readAt r = .ok v ↔ s.value? target r.slot = some v := by
  rw [readAt_eq h hs]
  cases s.value? target r.slot <;> simp

theorem slots_newFrame (enclosing : Option FrameId) (i : FrameId) :
    (s.newFrame enclosing #[]).2.slots i = s.slots i := by
  simp only [newFrame, Store.slots, Array.getElem?_push]
  split
  · next h => simp [h]
  · rfl

theorem value?_newFrame (enclosing : Option FrameId) (i : FrameId) (slot : Nat) :
    (s.newFrame enclosing #[]).2.value? i slot = s.value? i slot := by
  simp only [newFrame, value?, Array.getElem?_push]
  split
  · next h => simp [h]
  · rfl

theorem grows_after (hs : s.Linked) (ha : s.Allows op) : s.Grows (s.after op) := by
  cases op with
  | newFrame enclosing => exact grows_push _
  | define frame value => exact grows_define frame value
  | read r => exact .refl s
  | write r value =>
    obtain ⟨target, hr⟩ := ha
    rw [after_write hr hs]
    split
    · exact grows_set target r.slot value
    · exact .refl s

theorem linked_after (hs : s.Linked) (ha : s.Allows op) : (s.after op).Linked := by
  cases op with
  | newFrame enclosing =>
    intro i j hlink
    simp only [after, newFrame, link?, Array.getElem?_push, Array.size_push] at hlink ⊢
    split at hlink
    · exact Nat.lt_succ_of_lt (ha j (by simpa using hlink))
    · exact Nat.lt_succ_of_lt (hs i j hlink)
  | define frame value =>
    intro i j hlink
    rw [after, link?_define] at hlink
    simpa [after] using hs i j hlink
  | read r => exact hs
  | write r value =>
    obtain ⟨target, hr⟩ := ha
    rw [after_write hr hs]
    split
    · intro i j hlink
      rw [link?_set] at hlink
      simpa using hs i j hlink
    · exact hs

theorem slots_after (hs : s.Linked) (ha : s.Allows op) (i : FrameId) :
    (s.after op).slots i = s.slots i + if op.defines i then 1 else 0 := by
  cases op with
  | newFrame enclosing => simp [after, Operation.defines, slots_newFrame]
  | define frame value =>
    by_cases h : frame = i
    · subst h
      simp [after, Operation.defines, slots_define_self ha]
    · simp [after, Operation.defines, slots_define_of_ne h, h]
  | read r => simp [after, Operation.defines]
  | write r value =>
    obtain ⟨target, hr⟩ := ha
    rw [after_write hr hs]
    split <;> simp [Operation.defines, slots_set]

end Steps

section Histories

theorem linked_afterAll (hs : s.Linked) (ha : s.AllowsAll ops) : (s.afterAll ops).Linked := by
  induction ops generalizing s with
  | nil => exact hs
  | cons op ops ih => exact ih (linked_after hs ha.1) ha.2

theorem grows_afterAll (hs : s.Linked) (ha : s.AllowsAll ops) : s.Grows (s.afterAll ops) := by
  induction ops generalizing s with
  | nil => exact .refl s
  | cons op ops ih => exact (grows_after hs ha.1).trans (ih (linked_after hs ha.1) ha.2)

/-- A route goes on leading to the same frame. -/
theorem Leads.grow (h : s.Leads r target) (hg : s.Grows t) : t.Leads r target :=
  ⟨Nat.lt_of_lt_of_le h.1 hg.size_le, hg.ancestor? h.2⟩

/-- A frame has as many slots as definitions were made in it. -/
theorem slots_afterAll (ha : empty.AllowsAll ops) (i : FrameId) :
    (empty.afterAll ops).slots i = defined i ops := by
  induction ops using List.reverseRecOn with
  | nil => rfl
  | append_singleton ops op ih =>
    obtain ⟨hops, hop⟩ := allowsAll_concat.mp ha
    rw [afterAll_concat, slots_after (linked_afterAll linked_empty hops) hop, ih hops,
      defined_concat]

@[simp] theorem not_stores_newFrame {enclosing : Option FrameId} {slot : Nat} :
    ¬ Stores ops (.newFrame enclosing) i slot v := nofun

@[simp] theorem not_stores_read {slot : Nat} : ¬ Stores ops (.read r) i slot v := nofun

theorem stores_define {frame : FrameId} {slot : Nat} {w : Value} :
    Stores ops (.define frame w) i slot v ↔
      (i = frame ∧ slot = defined frame ops) ∧ v = w := by
  constructor
  · rintro ⟨⟩
    exact ⟨⟨rfl, rfl⟩, rfl⟩
  · rintro ⟨⟨rfl, rfl⟩, rfl⟩
    exact .define

theorem stores_write (hr : (empty.afterAll ops).Leads r target)
    (hs : r.slot < defined target ops) {slot : Nat} {w : Value} :
    Stores ops (.write r w) i slot v ↔ (i = target ∧ slot = r.slot) ∧ v = w := by
  constructor
  · intro h
    cases h with
    | write hr' => exact ⟨⟨Option.some.inj (hr'.2.symm.trans hr.2), rfl⟩, rfl⟩
  · rintro ⟨⟨rfl, rfl⟩, rfl⟩
    exact .write hr hs

/-- Nothing is stored in a variable that is not there. -/
theorem not_stores_write (hr : (empty.afterAll ops).Leads r target)
    (hs : defined target ops ≤ r.slot) {slot : Nat} {w : Value} :
    ¬ Stores ops (.write r w) i slot v := by
  intro h
  cases h with
  | write hr' hs' =>
    obtain rfl := Option.some.inj (hr'.2.symm.trans hr.2)
    exact Nat.not_lt.mpr hs hs'

/-- The last store to a slot is this one, or the one before if this one is to another slot. -/
theorem lastStored_concat {frame : FrameId} {slot : Nat} :
    LastStored (ops ++ [op]) frame slot v ↔ Stores ops op frame slot v ∨
      LastStored ops frame slot v ∧ ∀ other, ¬ Stores ops op frame slot other := by
  constructor
  · generalize hall : ops ++ [op] = all
    intro h
    cases h with
    | now h =>
      obtain ⟨rfl, hop⟩ := List.append_inj' hall rfl
      obtain rfl := List.singleton_inj.mp hop
      exact .inl h
    | earlier h hn =>
      obtain ⟨rfl, hop⟩ := List.append_inj' hall rfl
      obtain rfl := List.singleton_inj.mp hop
      exact .inr ⟨h, hn⟩
  · rintro (h | ⟨h, hn⟩)
    · exact .now h
    · exact .earlier h hn

/-- An operation gives a variable the value that it stores there, and leaves the others alone. -/
theorem value?_after (ha : empty.AllowsAll (ops ++ [op])) (i : FrameId) (slot : Nat) :
    ((empty.afterAll ops).after op).value? i slot = some v ↔ Stores ops op i slot v ∨
      (empty.afterAll ops).value? i slot = some v ∧ ∀ other, ¬ Stores ops op i slot other := by
  obtain ⟨hops, hop⟩ := allowsAll_concat.mp ha
  have hslots := slots_afterAll hops
  cases op with
  | newFrame enclosing => simp [after, value?_newFrame]
  | define frame w =>
    rw [after, value?_define hop, hslots]
    simp only [stores_define]
    by_cases h : i = frame ∧ slot = defined frame ops <;> simp [h, eq_comm]
  | read r => simp [after]
  | write r w =>
    obtain ⟨target, hr⟩ := hop
    rw [after_write hr (linked_afterAll linked_empty hops), hslots]
    by_cases hlt : r.slot < defined target ops
    · rw [if_pos hlt, value?_set (by rwa [hslots])]
      simp only [stores_write hr hlt]
      by_cases h : i = target ∧ slot = r.slot <;> simp [h, eq_comm]
    · simp [hlt, not_stores_write hr (Nat.not_lt.mp hlt)]

/-- A variable has the value that was last stored in it. -/
theorem value?_afterAll (ha : empty.AllowsAll ops) (i : FrameId) (slot : Nat) :
    (empty.afterAll ops).value? i slot = some v ↔ LastStored ops i slot v := by
  -- From the end: the value of a variable is that of the last operation that stores there.
  induction ops using List.reverseRecOn generalizing v with
  | nil =>
    refine iff_of_false (by simp [afterAll, empty, value?]) ?_
    generalize hall : ([] : List Operation) = all
    intro h
    cases h <;> simp at hall
  | append_singleton ops op ih =>
    rw [afterAll_concat, value?_after ha, ih (allowsAll_concat.mp ha).1, lastStored_concat]

end Histories

section Variables

variable {u : FrameId}

/-- A frame can be given any number of variables. -/
theorem exists_slots (hs : s.Linked) (hi : i < s.frames.size) (count : Nat) :
    ∃ ops, s.AllowsAll ops ∧ count ≤ (s.afterAll ops).slots i := by
  induction count with
  | zero => exact ⟨[], trivial, Nat.zero_le _⟩
  | succ count ih =>
    obtain ⟨ops, hops, hcount⟩ := ih
    have hi' := Nat.lt_of_lt_of_le hi (grows_afterAll hs hops).size_le
    refine ⟨ops ++ [.define i .nil], ?_, ?_⟩
    · exact allowsAll_concat.mpr ⟨hops, hi'⟩
    · rw [afterAll_concat, after, slots_define_self hi']
      exact Nat.succ_le_succ hcount

/-- What is written along a route is read along every route to the same variable, and along no
other. -/
theorem readAt_after_write (hs : s.Linked) (ha : s.Leads a target)
    (hslot : a.slot < s.slots target) (hb : s.Leads b u) (v : Value) :
    (s.after (.write a v)).readAt b =
      if u = target ∧ b.slot = a.slot then .ok v else s.readAt b := by
  have hallows : s.Allows (.write a v) := ⟨target, ha⟩
  rw [readAt_eq (hb.grow (grows_after hs hallows)) (linked_after hs hallows), readAt_eq hb hs,
    after_write ha hs, if_pos hslot, value?_set hslot]
  split <;> rfl

theorem exists_slots_both (hs : s.Linked) (ha : s.Leads a target) (hb : s.Leads b u) :
    ∃ ops, s.AllowsAll ops ∧ a.slot < (s.afterAll ops).slots target ∧
      b.slot < (s.afterAll ops).slots u := by
  obtain ⟨first, hfirst, hslot⟩ := exists_slots hs (ha.target_lt hs) (a.slot + 1)
  have hs' := linked_afterAll hs hfirst
  have hb' := hb.grow (grows_afterAll hs hfirst)
  obtain ⟨second, hsecond, hslot'⟩ := exists_slots hs' (hb'.target_lt hs') (b.slot + 1)
  refine ⟨first ++ second, allowsAll_append.mpr ⟨hfirst, hsecond⟩, ?_⟩
  rw [afterAll_append]
  exact ⟨Nat.lt_of_lt_of_le hslot ((grows_afterAll hs' hsecond).slots target), hslot'⟩

/-- Values that are written to different variables are both there afterwards. -/
theorem readAt_after_writes (hs : s.Linked) (ha : s.Leads a target) (hb : s.Leads b u)
    (hslot : a.slot < s.slots target) (hslot' : b.slot < s.slots u)
    (hne : ¬ (target = u ∧ a.slot = b.slot)) (v w : Value) :
    s.AllowsAll [.write a v, .write b w] ∧
      (s.afterAll [.write a v, .write b w]).readAt a = .ok v ∧
      (s.afterAll [.write a v, .write b w]).readAt b = .ok w := by
  have hallows : s.Allows (.write a v) := ⟨target, ha⟩
  have hgrows := grows_after hs hallows
  have hs' := linked_after hs hallows
  have hb' := hb.grow hgrows
  have hslot'' := Nat.lt_of_lt_of_le hslot' (hgrows.slots u)
  refine ⟨⟨hallows, ⟨u, hb'⟩, trivial⟩, ?_, ?_⟩
  · calc ((s.after (.write a v)).after (.write b w)).readAt a
        = (s.after (.write a v)).readAt a := by
          rw [readAt_after_write hs' hb' hslot'' (ha.grow hgrows), if_neg hne]
      _ = .ok v := by rw [readAt_after_write hs ha hslot ha, if_pos ⟨rfl, rfl⟩]
  · exact (readAt_after_write hs' hb' hslot'' hb' w).trans (if_pos ⟨rfl, rfl⟩)

/-- Routes to different variables can be told apart. -/
theorem exists_readAt_ne (hs : s.Linked) (ha : s.Leads a target) (hb : s.Leads b u)
    (hne : ¬ (target = u ∧ a.slot = b.slot)) :
    ∃ ops, s.AllowsAll ops ∧ (s.afterAll ops).readAt a ≠ (s.afterAll ops).readAt b := by
  obtain ⟨ops, hops, hslot, hslot'⟩ := exists_slots_both hs ha hb
  have hgrows := grows_afterAll hs hops
  obtain ⟨hwrites, hread, hread'⟩ := readAt_after_writes (linked_afterAll hs hops) (ha.grow hgrows)
    (hb.grow hgrows) hslot hslot' hne (.bool true) (.bool false)
  refine ⟨ops ++ [.write a (.bool true), .write b (.bool false)], ?_, ?_⟩
  · exact allowsAll_append.mpr ⟨hops, hwrites⟩
  · rw [afterAll_append, hread, hread']
    simp

/-- Two routes lead to the same variable exactly if they come to the same place of one frame. -/
theorem sameVariable_iff (hs : s.Linked) (ha : s.Leads a target) (hb : s.Leads b u) :
    s.SameVariable a b ↔ target = u ∧ a.slot = b.slot := by
  constructor
  · intro hsame
    by_contra hne
    obtain ⟨ops, hops, hread⟩ := exists_readAt_ne hs ha hb hne
    exact hread (hsame ops hops)
  · rintro ⟨rfl, hslot⟩ ops hops
    have hgrows := grows_afterAll hs hops
    have hlinked := linked_afterAll hs hops
    rw [readAt_eq (ha.grow hgrows) hlinked, readAt_eq (hb.grow hgrows) hlinked, hslot]

/-- A write changes one value, and neither another one nor the number of variables of any frame. -/
theorem changes_of_writeAt (hs : s.Linked) (h : s.Leads r target) (hw : s.writeAt r v = .ok t) :
    t.frames.size = s.frames.size ∧ ∀ i, t.link? i = s.link? i ∧ t.slots i = s.slots i ∧
      ∀ slot, t.value? i slot =
        if i = target ∧ slot = r.slot then some v else s.value? i slot := by
  rw [writeAt_eq h hs] at hw
  split at hw
  · next hslot =>
    obtain rfl := Except.ok.inj hw
    exact ⟨size_set .., fun i =>
      ⟨link?_set .., slots_set .., fun slot => value?_set hslot v i slot⟩⟩
  · cases hw

/-- A read fails exactly where the slot is not yet defined. -/
theorem exists_readAt_error_iff (hs : s.Linked) (h : s.Leads r target) :
    (∃ fault, s.readAt r = .error fault) ↔ s.slots target ≤ r.slot := by
  rw [readAt_eq h hs, ← value?_eq_none]
  cases s.value? target r.slot <;> simp

theorem exists_writeAt_error_iff (hs : s.Linked) (h : s.Leads r target) :
    (∃ fault, s.writeAt r v = .error fault) ↔ s.slots target ≤ r.slot := by
  rw [writeAt_eq h hs, ← Nat.not_lt]
  by_cases hslot : r.slot < s.slots target <;> simp [hslot]

/-- A variable that is there can be read forever. -/
theorem exists_readAt_afterAll (hs : s.Linked) (h : s.Leads r target)
    (hslot : r.slot < s.slots target) (hops : s.AllowsAll ops) :
    ∃ v, (s.afterAll ops).readAt r = .ok v := by
  have hgrows := grows_afterAll hs hops
  cases hread : (s.afterAll ops).readAt r with
  | ok v => exact ⟨v, rfl⟩
  | error fault =>
    have hle := (exists_readAt_error_iff (linked_afterAll hs hops) (h.grow hgrows)).mp
      ⟨fault, hread⟩
    exact absurd (Nat.lt_of_lt_of_le hslot (hgrows.slots target)) (Nat.not_lt.mpr hle)

end Variables

section Runs

/-- A run takes a route for the variable that an expression refers to. -/
def TakesRoute (m : Machine) (id : NodeId) (r : Route) : Prop :=
  m.frame = some r.frame ∧ m.resolution.find? id = some ⟨r.distance, r.slot⟩

/-- Where a variable is not there yet, a run stops, and its machine is as it was. -/
def missing (name : Token) {α : Type} (m : Machine) : EStateM.Result Halt Machine α :=
  .error (.error ⟨.undefinedVariable name.lexeme, name⟩) m

variable {m : Machine} {id : NodeId}

/-- Reading a variable is reading by the route of its address. -/
theorem readVariable_eq (hm : TakesRoute m id r) (hs : m.store.Linked)
    (h : m.store.Leads r target) (name : Token) :
    Run.readVariable id name m =
      match m.store.readAt r with
      | .ok v => .ok v m
      | .error _ => missing name m := by
  have hread : m.store.read r.frame r.distance r.slot = _ := readAt_eq h hs
  simp only [Run.readVariable, hm.1, hm.2, hread, readAt_eq h hs]
  cases m.store.value? target r.slot <;> rfl

/-- Assigning to a variable is writing by the route of its address. -/
theorem writeVariable_eq (hm : TakesRoute m id r) (hs : m.store.Linked)
    (h : m.store.Leads r target) (name : Token) (v : Value) :
    Run.writeVariable id name v m =
      match m.store.writeAt r v with
      | .ok s => .ok () { m with store := s }
      | .error _ => missing name m := by
  have hl := locate_of_ancestor? h.2 (Array.getElem?_eq_getElem (h.target_lt hs)) r.slot
  simp only [Run.writeVariable, hm.1, hm.2, hl, writeAt_eq h hs]
  by_cases hslot : r.slot < m.store.slots target <;> simp [hslot, Run.storeHalt, missing]

end Runs

/-- The variable that a route leads to, after some operations. It is there from when it was added
on, and has the value that was last stored in it; a write changes nothing else. -/
structure Remembered (ops : List Operation) (r : Route) (target : FrameId) : Prop where
  reads : ∀ v, (empty.afterAll ops).readAt r = .ok v ↔ LastStored ops target r.slot v
  writes : ∀ v t, (empty.afterAll ops).writeAt r v = .ok t →
    t.frames.size = (empty.afterAll ops).frames.size ∧ ∀ i,
      t.link? i = (empty.afterAll ops).link? i ∧ t.slots i = (empty.afterAll ops).slots i ∧
        ∀ slot, t.value? i slot =
          if i = target ∧ slot = r.slot then some v else (empty.afterAll ops).value? i slot
  fails : ((∃ fault, (empty.afterAll ops).readAt r = .error fault) ↔
      defined target ops ≤ r.slot) ∧
    ∀ v, (∃ fault, (empty.afterAll ops).writeAt r v = .error fault) ↔ defined target ops ≤ r.slot
  runs : ∀ m id name, m.store = empty.afterAll ops → TakesRoute m id r →
    (Run.readVariable id name m =
      match (empty.afterAll ops).readAt r with
      | .ok v => .ok v m
      | .error _ => missing name m) ∧
    ∀ v, Run.writeVariable id name v m =
      match (empty.afterAll ops).writeAt r v with
      | .ok t => .ok () { m with store := t }
      | .error _ => missing name m
  lasts : r.slot < defined target ops → ∀ more, (empty.afterAll ops).AllowsAll more →
    ∃ v, ((empty.afterAll ops).afterAll more).readAt r = .ok v

/-- A read by a route yields what was last stored by any route that leads to the same slot. -/
theorem remembered (hops : empty.AllowsAll ops) (h : (empty.afterAll ops).Leads r target) :
    Remembered ops r target := by
  have hs := linked_afterAll linked_empty hops
  have hslots := slots_afterAll hops target
  refine ⟨fun v => ?_, fun v t => changes_of_writeAt hs h, ⟨?_, fun v => ?_⟩, ?_, ?_⟩
  · rw [readAt_eq_ok_iff h hs, value?_afterAll hops]
  · rw [exists_readAt_error_iff hs h, hslots]
  · rw [exists_writeAt_error_iff hs h, hslots]
  · intro m id name hm hroute
    rw [← hm] at h hs ⊢
    exact ⟨readVariable_eq hroute hs h name, writeVariable_eq hroute hs h name⟩
  · rintro hlt more hmore
    rw [← hslots] at hlt
    exact exists_readAt_afterAll hs h hlt hmore

/-- After any operations on any number of frames, routes lead to the same variable exactly if they
come to the same place of one frame, and every variable remembers what was stored in it. -/
theorem variables_remember (hops : empty.AllowsAll ops) :
    (∀ a b t u, (empty.afterAll ops).Leads a t → (empty.afterAll ops).Leads b u →
      ((empty.afterAll ops).SameVariable a b ↔ t = u ∧ a.slot = b.slot)) ∧
    ∀ r target, (empty.afterAll ops).Leads r target → Remembered ops r target :=
  ⟨fun _ _ _ _ => sameVariable_iff (linked_afterAll linked_empty hops), fun _ _ => remembered hops⟩

/-- Two frames within one, and a value written from the first of them. -/
def siblings : List Operation :=
  [.newFrame none, .define 0 .nil, .newFrame (some 0), .newFrame (some 0),
    .write ⟨1, 1, 0⟩ (.bool true)]

theorem variables_remember_siblings :
    empty.AllowsAll siblings ∧ (empty.afterAll siblings).SameVariable ⟨1, 1, 0⟩ ⟨2, 1, 0⟩ ∧
      (empty.afterAll siblings).readAt ⟨2, 1, 0⟩ = .ok (.bool true) := by
  have hops : empty.AllowsAll siblings :=
    ⟨nofun, Nat.one_pos, by rintro _ ⟨⟩; decide, by rintro _ ⟨⟩; decide, ⟨0, by decide, rfl⟩,
      trivial⟩
  have hfirst : (empty.afterAll siblings).Leads ⟨1, 1, 0⟩ 0 := ⟨by decide, rfl⟩
  have hsecond : (empty.afterAll siblings).Leads ⟨2, 1, 0⟩ 0 := ⟨by decide, rfl⟩
  have hstored : LastStored (siblings.dropLast ++ [.write ⟨1, 1, 0⟩ (.bool true)]) 0 0
      (.bool true) := .now (.write ⟨by decide, rfl⟩ (by decide))
  exact ⟨hops, ((variables_remember hops).1 _ _ 0 0 hfirst hsecond).mpr ⟨rfl, rfl⟩,
    (((variables_remember hops).2 _ 0 hsecond).reads _).mpr hstored⟩

end Store

end Lox
