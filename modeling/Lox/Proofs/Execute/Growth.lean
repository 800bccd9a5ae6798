import Lox.Proofs.Execute.Reach
import Lox.Proofs.Store

/-! What every run leaves as it was, whatever it does. -/
namespace Lox

/-- The innermost frame is the same, and so are the addresses; the store has what it had. -/
structure Machine.Keeps (m t : Machine) : Prop where
  frame : t.frame = m.frame
  resolution : t.resolution = m.resolution
  grows : m.store.Grows t.store

namespace Machine.Keeps

variable {m t u : Machine}

theorem refl (m : Machine) : m.Keeps m := ⟨rfl, rfl, .refl _⟩

theorem trans (h : m.Keeps t) (h' : t.Keeps u) : m.Keeps u :=
  ⟨h'.frame.trans h.frame, h'.resolution.trans h.resolution, h.grows.trans h'.grows⟩

/-- A run in a new frame, once the former one is put back. -/
theorem leave {enclosing : Option FrameId} {values : Array Value}
    (h : (m.enter enclosing values).Keeps t) : m.Keeps { t with frame := m.frame } :=
  ⟨rfl, h.resolution, (Store.grows_push _).trans h.grows⟩

end Machine.Keeps

end Lox
