/-!
Where a text first occurs in another.
-/

namespace Lox.Text

/-- The position of the first occurrence of `part` in a text. -/
def indexOf? (part : List Char) : List Char → Option Nat
  | [] => if part.isEmpty then some 0 else none
  | c :: cs => if part.isPrefixOf (c :: cs) then some 0 else (indexOf? part cs).map (· + 1)

/-- At the position found, the part does occur. -/
theorem isPrefix_of_indexOf? {part cs : List Char} {n : Nat} (h : indexOf? part cs = some n) :
    part <+: cs.drop n := by
  induction cs generalizing n with
  | nil => simp_all [indexOf?]
  | cons c cs ih =>
    unfold indexOf? at h
    split at h
    · next hp => obtain rfl := Option.some.inj h; exact List.isPrefixOf_iff_prefix.1 hp
    · obtain ⟨m, hm, rfl⟩ := Option.map_eq_some_iff.1 h
      simpa using ih hm

end Lox.Text
