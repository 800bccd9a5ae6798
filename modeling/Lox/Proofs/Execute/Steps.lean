import Lox.Proofs.Ends
import Lox.Proofs.Execute.Reach

/-! How the single steps of a run end: what holds after each is what holds in every case of it. -/
namespace Lox.Run

variable {α : Type} {m : Machine} {stop : Halt → Machine → Prop}

theorem ends_lift {ok : Value → Machine → Prop} {token : Token}
    {result : Except RuntimeFault Value} (hok : ∀ v, result = .ok v → ok v m)
    (hstop : ∀ fault, stop (.error ⟨fault, token⟩) m) : Ends (lift token result) m ok stop := by
  cases result with
  | ok v => exact hok v rfl
  | error fault => exact hstop fault

/-- Only a boolean is gone on with. -/
theorem ends_bind_truth {ok : α → Machine → Prop} {f : Bool → Run α} {value : Value}
    {fault : RuntimeFault} {token : Token} (hf : ∀ b, value = .bool b → Ends (f b) m ok stop)
    (hstop : stop (.error ⟨fault, token⟩) m) : Ends (truth value fault token >>= f) m ok stop := by
  cases value with
  | bool b => exact hf b rfl
  | _ => exact hstop

theorem ends_define {ok : Unit → Machine → Prop} {name : Token} {v : Value}
    (hglobal : m.frame = none → ok () { m with globals := m.globals.put name.lexeme v })
    (hlocal : ∀ f, m.frame = some f → ok () { m with store := m.store.define f v }) :
    Ends (define name v) m ok stop := by
  simp only [Ends, define]
  cases hf : m.frame with
  | none =>
    have h := hglobal hf
    rw [hf] at h
    exact h
  | some f =>
    have h := hlocal f hf
    rw [hf] at h
    exact h

/-- A run within a new frame comes back to the frame outside, whether it completes or stops. -/
theorem newFrame_within {x : Run α} {enclosing : Option FrameId} {values : Array Value} :
    (do let frame ← newFrame enclosing values; within frame x) m =
      match x (m.enter enclosing values) with
      | .ok a t => .ok a { t with frame := m.frame }
      | .error halt t => .error halt { t with frame := m.frame } := rfl

/-- What a run in a new frame leaves, once the frame around it is put back. -/
theorem ends_within {ok : α → Machine → Prop} {x : Run α} {enclosing : Option FrameId}
    {values : Array Value}
    (h : Ends x (m.enter enclosing values) (fun a t => ok a { t with frame := m.frame })
      fun halt t => stop halt { t with frame := m.frame }) :
    Ends (do let frame ← newFrame enclosing values; within frame x) m ok stop := by
  simp only [Ends] at h
  simp only [Ends, newFrame_within]
  split at h
  · next a t hx => simpa only [hx] using h
  · next halt t hx => simpa only [hx] using h

/-- All that reading a variable can come to. -/
theorem ends_readVariable {ok : Value → Machine → Prop} {id : NodeId} {name : Token}
    (hglobal : ∀ v, m.resolution.find? id = none → m.globals.get? name.lexeme = some v → ok v m)
    (hlocal : ∀ a f v, m.resolution.find? id = some a → m.frame = some f →
      m.store.read f a.distance a.slot = .ok v → ok v m)
    (hundefined : stop (.error ⟨.undefinedVariable name.lexeme, name⟩) m)
    (hdangling : ∀ a, m.resolution.find? id = some a → (∀ f, m.frame = some f →
      m.store.read f a.distance a.slot = .error .noFrame) → stop .dangling m) :
    Ends (readVariable id name) m ok stop := by
  simp only [Ends, readVariable]
  cases ha : m.resolution.find? id with
  | none =>
    simp only [readGlobal]
    cases hv : m.globals.get? name.lexeme with
    | none => exact hundefined
    | some v => exact hglobal v ha hv
  | some a =>
    cases hf : m.frame with
    | none => exact hdangling a ha fun f h => by simp [hf] at h
    | some f =>
      cases hr : m.store.read f a.distance a.slot with
      | ok v => simpa only [hr] using hlocal a f v ha hf hr
      | error fault =>
        cases fault with
        | noFrame =>
          simpa [hr, storeHalt] using hdangling a ha fun g hg => by
            obtain rfl : f = g := by simpa [hf] using hg
            exact hr
        | noSlot => simpa [hr, storeHalt] using hundefined

/-- All that assigning to a variable can come to. -/
theorem ends_writeVariable {ok : Unit → Machine → Prop} {id : NodeId} {name : Token} {v : Value}
    (hglobal : m.resolution.find? id = none → m.globals.contains name.lexeme = true →
      ok () { m with globals := m.globals.put name.lexeme v })
    (hlocal : ∀ a f target, m.resolution.find? id = some a → m.frame = some f →
      m.store.locate f a.distance a.slot = .ok target →
      ok () { m with store := m.store.set target a.slot v })
    (hundefined : stop (.error ⟨.undefinedVariable name.lexeme, name⟩) m)
    (hdangling : ∀ a, m.resolution.find? id = some a → (∀ f, m.frame = some f →
      m.store.locate f a.distance a.slot = .error .noFrame) → stop .dangling m) :
    Ends (writeVariable id name v) m ok stop := by
  simp only [Ends, writeVariable]
  cases ha : m.resolution.find? id with
  | none =>
    simp only [writeGlobal]
    cases hv : m.globals.contains name.lexeme with
    | false => exact hundefined
    | true => exact hglobal ha hv
  | some a =>
    cases hf : m.frame with
    | none => exact hdangling a ha fun f h => by simp [hf] at h
    | some f =>
      cases hr : m.store.locate f a.distance a.slot with
      | ok target =>
        have h := hlocal a f target ha hf hr
        rw [hf] at h
        simpa only [hr] using h
      | error fault =>
        cases fault with
        | noFrame =>
          simpa [hr, storeHalt] using hdangling a ha fun g hg => by
            obtain rfl : f = g := by simpa [hf] using hg
            exact hr
        | noSlot => simpa [hr, storeHalt] using hundefined

/-- The value of a call whose body has completed. -/
def result {S : Type} : Completion S → Value S
  | .returned value => value
  | _ => .nil

/-- Calling a function of the program with as many arguments as it takes. -/
theorem apply_closure {c : Closure} {paren : Token} {arguments : List Value}
    {room inner : Option Nat} (ha : arguments.length = c.fn.arity)
    (hr : callRoom? room = some inner) (body : Option Nat → List Stmt → Run Completion) :
    apply (.closure c) paren arguments room body = (do
      let frame ← newFrame c.scope arguments.toArray
      let completion ← within frame (body inner c.fn.body)
      return result completion) := by
  simp only [apply, Value.arity?, ha, ne_eq, not_true_eq_false, if_false, hr]
  congr 1
  funext frame
  congr 1
  funext completion
  cases completion <;> rfl

/-- All that a call can come to. -/
theorem ends_apply {ok : Value → Machine → Prop} {callee : Value} {paren : Token}
    {arguments : List Value} {room : Option Nat} {body : Option Nat → List Stmt → Run Completion}
    (hfail : ∀ fault, stop (.error ⟨fault, paren⟩) m)
    (hdeep : callRoom? room = none → stop .tooDeep m)
    (hclock : ok (.number (m.clock m.ticks)) { m with ticks := m.ticks + 1 })
    (hcall : ∀ c inner, callee = .closure c → arguments.length = c.fn.arity →
      callRoom? room = some inner →
      Ends (body inner c.fn.body) (m.enter c.scope arguments.toArray)
        (fun completion t => ok (result completion) { t with frame := m.frame })
        fun halt t => stop halt { t with frame := m.frame }) :
    Ends (apply callee paren arguments room body) m ok stop := by
  cases callee with
  | closure c =>
    by_cases ha : arguments.length = c.fn.arity
    · cases hr : callRoom? room with
      | none =>
        simp only [apply, Value.arity?, ha, ne_eq, not_true_eq_false, if_false, hr]
        exact Ends.throw (hdeep hr)
      | some inner =>
        rw [apply_closure ha hr, ← bind_assoc]
        exact Ends.bind (ends_within (hcall c inner rfl ha hr)) fun completion t ht => ht
    · simp only [apply, Value.arity?, ha, ne_eq, not_false_eq_true, if_true]
      exact hfail _
  | native n =>
    simp only [apply, Value.arity?]
    by_cases ha : arguments.length = n.arity
    · simp only [ha, ne_eq, not_true_eq_false, if_false]
      exact hclock
    · simp only [ha, ne_eq, not_false_eq_true, if_true]
      exact hfail _
  | _ => exact hfail _

end Lox.Run
