import Lox.Tree

/-!
Where local variables live. An address counts scopes outward from the point of use, and declarations
within the scope. A resolution files addresses under the identities of expressions.
-/

namespace Lox

/-- How many scopes up a variable lives, and its place there. -/
structure Address where
  distance : Nat
  slot : Nat
  deriving DecidableEq, Repr

/-- The addresses found so far. Expressions without one refer to globals. -/
structure Resolution where
  entries : Array (Option Address)
  deriving Repr

namespace Resolution

def empty : Resolution := ⟨#[]⟩

def find? (r : Resolution) (id : NodeId) : Option Address := r.entries[id]?.join

/-- Files an address, in place of an earlier one. -/
def record (r : Resolution) (id : NodeId) (address : Address) : Resolution :=
  if id < r.entries.size then ⟨r.entries.set! id (some address)⟩
  else ⟨(r.entries ++ Array.replicate (id - r.entries.size) none).push (some address)⟩

@[simp] theorem find?_empty (id : NodeId) : empty.find? id = none := by simp [find?, empty]

theorem find?_record (r : Resolution) (id other : NodeId) (address : Address) :
    (r.record id address).find? other = if other = id then some address else r.find? other := by
  unfold record find?
  split
  · next h =>
    by_cases ho : other = id
    · subst ho; simp [h]
    · simp [ho, Array.getElem?_setIfInBounds_ne (Ne.symm ho)]
  · next h =>
    have size : (r.entries ++ Array.replicate (id - r.entries.size) none).size = id := by
      rw [Array.size_append, Array.size_replicate, Nat.add_sub_of_le (Nat.le_of_not_lt h)]
    rw [Array.getElem?_push, size]
    by_cases ho : other = id
    · simp [ho]
    · simp only [if_neg ho, Array.getElem?_append, Array.getElem?_replicate]
      split
      · rfl
      · next hs => split <;> simp [Array.getElem?_eq_none (Nat.le_of_not_lt hs)]

end Resolution

end Lox
