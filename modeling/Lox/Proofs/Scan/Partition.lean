import Lox.Proofs.Scan.Munch

/-! Scanning cuts a text into lexemes, what lies between them and the places of errors. -/
namespace Lox.Lexical

open Scan (munch piece pieces)

/-- The line on which the character after a text stands. -/
def lineAfter (text : List Char) : Nat := 1 + text.count '\n'

/-- How the text that stands behind `before` is cut: the tokens that its lexemes are, and one error
for each character that begins nothing of the language and for a string that never ends. -/
inductive Cuts : List Char → List Char → List Token → List ScanError → Prop
  | done {before} : Cuts before [] [] []
  | token {before text after kind literal tokens errors} (h : Lexeme text kind literal)
      (hlongest : Longest text after) (hrest : Cuts (before ++ text) after tokens errors) :
      Cuts before (text ++ after)
        (⟨kind, String.ofList text, literal, lineAfter (before ++ text)⟩ :: tokens) errors
  | blank {before c after tokens errors} (h : c = ' ' ∨ c = '\t' ∨ c = '\r' ∨ c = '\n')
      (hrest : Cuts (before ++ [c]) after tokens errors) : Cuts before (c :: after) tokens errors
  | comment {before text after tokens errors} (h : IsComment text) (hlongest : Longest text after)
      (hrest : Cuts (before ++ text) after tokens errors) :
      Cuts before (text ++ after) tokens errors
  | stray {before c after tokens errors} (hblank : c ≠ ' ' ∧ c ≠ '\t' ∧ c ≠ '\r' ∧ c ≠ '\n')
      (hquote : c ≠ '"') (h : ∀ text, Element text → ¬ text <+: c :: after)
      (hrest : Cuts (before ++ [c]) after tokens errors) :
      Cuts before (c :: after) tokens
        (⟨.unexpectedCharacter c, lineAfter (before ++ [c])⟩ :: errors)
  | openString {before body} (h : '"' ∉ body) :
      Cuts before ('"' :: body) [] [⟨.unterminatedString, lineAfter (before ++ '"' :: body)⟩]

variable {before text after : List Char}

/-- The line behind a text counts the line feeds in it. -/
theorem lineAfter_append (before text : List Char) :
    lineAfter (before ++ text) = lineAfter before + text.count '\n' := by
  simp only [lineAfter, List.count_append]
  omega

/-- What `munch` takes is as long as anything that stands at the place. -/
theorem longest_munch (c : Char) (cs : List Char) :
    Longest (c :: cs.take (munch c cs).2) (cs.drop (munch c cs).2) := by
  intro other h hpre
  rw [List.cons_append, List.take_append_drop] at hpre
  obtain hle | hle := Nat.le_total cs.length (munch c cs).2
  · rw [List.take_of_length_le hle]
    exact hpre.length_le
  · rw [List.length_cons, List.length_take, Nat.min_eq_left hle]
    exact length_le_munch h hpre

/-- One step of the cutting: what `munch` takes, then the rest. -/
theorem cuts_step {sort : Scan.Class} {tokens : List Token} {errors : List ScanError}
    (h : Stands sort text after) (hlongest : Longest text after)
    (hrest : Cuts (before ++ text) after tokens errors)
    (hend : after = [] → tokens = [] ∧ errors = []) :
    let p : Scan.Piece := ⟨sort, text, lineAfter (before ++ text)⟩
    Cuts before (text ++ after) (p.token?.toList ++ tokens) (p.error?.toList ++ errors) := by
  intro p
  cases h with
  | token h => exact .token h hlongest hrest
  | blank h => exact .blank h hrest
  | comment h => exact .comment h hlongest hrest
  | stray h hd hn =>
    refine .stray ?_ ?_ (fun text htext hpre => ?_) hrest
    · refine ⟨?_, ?_, ?_, ?_⟩ <;> rintro rfl <;> exact h (by decide)
    · rintro rfl
      exact h (by decide)
    · rcases head_of_element htext hpre with hmark | hdigit | hstart
      · exact h hmark
      · simp [hd] at hdigit
      · exact hn hstart
  | openString h =>
    obtain ⟨rfl, rfl⟩ := hend rfl
    rw [List.append_nil]
    exact .openString h

theorem filterMap_cons_toList {α β : Type} (f : α → Option β) (a : α) (as : List α) :
    (a :: as).filterMap f = (f a).toList ++ as.filterMap f := by
  cases h : f a <;> simp [h]

/-- The pieces of a text cut it into lexemes, separators and errors. -/
theorem cuts_pieces (before cs : List Char) :
    Cuts before cs ((pieces (lineAfter before) cs).filterMap (·.token?))
      ((pieces (lineAfter before) cs).filterMap (·.error?)) := by
  match cs with
  | [] => simpa using Cuts.done
  | c :: cs =>
    have hline : (piece (lineAfter before) c cs).line =
        lineAfter (before ++ c :: cs.take (munch c cs).2) := (lineAfter_append _ _).symm
    have hpiece : piece (lineAfter before) c cs =
        ⟨(munch c cs).1, c :: cs.take (munch c cs).2,
          lineAfter (before ++ c :: cs.take (munch c cs).2)⟩ := by
      rw [← hline]
      rfl
    have hstep := cuts_step (stands_munch c cs) (longest_munch c cs)
      (cuts_pieces (before ++ c :: cs.take (munch c cs).2) (cs.drop (munch c cs).2))
      (fun hnil => by simp [hnil])
    rw [List.cons_append, List.take_append_drop, ← hpiece] at hstep
    rw [Scan.pieces_cons, hline, filterMap_cons_toList, filterMap_cons_toList]
    exact hstep
termination_by cs.length
decreasing_by simp only [List.length_drop, List.length_cons]; omega

/-- Scanning cuts every text, from its first character to its last. The token that ends the program
stands on the last line. -/
theorem scan_cuts (source : String) :
    Cuts [] source.toList (scan source).tokens (scan source).errors ∧
      (scan source).finish = ⟨.eof, "", .nil, lineAfter source.toList⟩ :=
  ⟨cuts_pieces [] source.toList, rfl⟩

end Lox.Lexical
