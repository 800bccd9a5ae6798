import Lox.Value

/-!
The store of local variables.

A frame holds the variables of one entered scope, in order of declaration, and names the frame of
the scope around it. Frames are only added and frames only grow, so a frame's number stays good; two
chains of frames may share their outer part. A variable is addressed from a frame by how many frames
to go out, and by its place.
-/

namespace Lox

/-- The variables of one scope. Without an enclosing frame the scope around it is global. -/
structure Frame where
  enclosing : Option FrameId
  values : Array Value

/-- All frames, in order of creation. -/
structure Store where
  frames : Array Frame

/-- Why a variable cannot be read or written: the chain of frames is too short, or the frame has no
variable at that place yet. -/
inductive StoreFault where
  | noFrame
  | noSlot
  deriving DecidableEq, Repr

namespace Store

def empty : Store := ⟨#[]⟩

/-- Adds a frame that holds some values already, and gives its number. -/
def newFrame (s : Store) (enclosing : Option FrameId) (values : Array Value) : FrameId × Store :=
  (s.frames.size, ⟨s.frames.push ⟨enclosing, values⟩⟩)

def define (s : Store) (frame : FrameId) (value : Value) : Store :=
  ⟨s.frames.modify frame fun f => { f with values := f.values.push value }⟩

def slots (s : Store) (frame : FrameId) : Nat :=
  s.frames[frame]?.elim 0 (·.values.size)

/-- The frame `distance` links out from a frame. -/
def ancestor? (s : Store) : Nat → FrameId → Option FrameId
  | 0, frame => some frame
  | distance + 1, frame => do
    let enclosing ← (← s.frames[frame]?).enclosing
    s.ancestor? distance enclosing

/-- The frame that holds the variable at a place. -/
def locate (s : Store) (frame : FrameId) (distance slot : Nat) : Except StoreFault FrameId :=
  match s.ancestor? distance frame with
  | none => .error .noFrame
  | some target =>
    match s.frames[target]? with
    | none => .error .noFrame
    | some f => if slot < f.values.size then .ok target else .error .noSlot

def value? (s : Store) (frame : FrameId) (slot : Nat) : Option Value := do
  (← s.frames[frame]?).values[slot]?

/-- Gives a variable of a frame another value. -/
def set (s : Store) (frame : FrameId) (slot : Nat) (value : Value) : Store :=
  ⟨s.frames.modify frame fun f => { f with values := f.values.set! slot value }⟩

def read (s : Store) (frame : FrameId) (distance slot : Nat) : Except StoreFault Value := do
  let target ← s.locate frame distance slot
  (s.value? target slot).elim (.error .noSlot) .ok

def write (s : Store) (frame : FrameId) (distance slot : Nat) (value : Value) :
    Except StoreFault Store := do
  let target ← s.locate frame distance slot
  return s.set target slot value

/-- A frame as dumps show it, with the frames around it. No more than `depth` frames are shown. -/
def inspect (s : Store) : Nat → Option FrameId → String
  | _, none => "None"
  | 0, some _ => "..."
  | depth + 1, some frame =>
    match s.frames[frame]? with
    | none => "None"
    | some f =>
      "Environment(values=[" ++ ", ".intercalate (f.values.toList.map Value.inspect) ++
        "], enclosing=" ++ s.inspect depth f.enclosing ++ ")"

@[simp] theorem size_newFrame (s : Store) (enclosing : Option FrameId) (values : Array Value) :
    (s.newFrame enclosing values).2.frames.size = s.frames.size + 1 := by
  simp [newFrame]

@[simp] theorem size_define (s : Store) (frame : FrameId) (value : Value) :
    (s.define frame value).frames.size = s.frames.size := by
  simp [define]

@[simp] theorem size_set (s : Store) (frame : FrameId) (slot : Nat) (value : Value) :
    (s.set frame slot value).frames.size = s.frames.size := by
  simp [set]

theorem getElem?_define (s : Store) (frame other : FrameId) (value : Value) :
    (s.define frame value).frames[other]? =
      if frame = other then s.frames[other]?.map fun f => { f with values := f.values.push value }
      else s.frames[other]? := by
  simp [define, Array.getElem?_modify]

theorem getElem?_set (s : Store) (frame other : FrameId) (slot : Nat) (value : Value) :
    (s.set frame slot value).frames[other]? =
      if frame = other then
        s.frames[other]?.map fun f => { f with values := f.values.set! slot value }
      else s.frames[other]? := by
  simp [set, Array.getElem?_modify]

/-- The frame found has the place asked for. -/
theorem slot_lt_of_locate {s : Store} {frame target : FrameId} {distance slot : Nat}
    (h : s.locate frame distance slot = .ok target) : slot < s.slots target := by
  unfold locate at h
  split at h
  · contradiction
  · split at h
    · contradiction
    · next f hf =>
      split at h
      · cases h
        simpa [slots, hf]
      · contradiction

end Store

end Lox
