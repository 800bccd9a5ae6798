/-!
Text without the characters of a sort at its ends.
-/

namespace Lox.Text

variable (p : Char → Bool)

/-- The text without the characters in `p` at its end. -/
def trimEnd (cs : List Char) : List Char := (cs.reverse.dropWhile p).reverse

/-- The text without the characters in `p` at its two ends. -/
def trim (cs : List Char) : List Char := trimEnd p (cs.dropWhile p)

/-- What is cut off the end is in `p`. -/
theorem exists_trimEnd_append (cs : List Char) :
    ∃ cut, trimEnd p cs ++ cut = cs ∧ ∀ c ∈ cut, p c := by
  refine ⟨(cs.reverse.takeWhile p).reverse, ?_, ?_⟩
  · rw [trimEnd, ← List.reverse_append, List.takeWhile_append_dropWhile, List.reverse_reverse]
  · intro c hc
    exact List.all_eq_true.1 List.all_takeWhile c (List.mem_reverse.1 hc)

end Lox.Text
