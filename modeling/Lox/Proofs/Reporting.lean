import Lox.Reporter

/-! What a reporter records and prints, and which source line it quotes. -/
namespace Lox

def unlines (lines : List String) : String := String.join (lines.map (· ++ "\n"))

theorem unlines_append (as bs : List String) : unlines (as ++ bs) = unlines as ++ unlines bs := by
  simp [unlines]

namespace Reporter

variable (r : Reporter) (d : Diagnostic) (color : Color)

/-- Reporting adds to what was recorded and printed; how errors are shown stays the same. -/
theorem reportAll_eq (ds : List Diagnostic) : r.reportAll ds =
    { r with
      errors := r.errors ++ ds
      hadError := r.hadError || !ds.isEmpty
      printed := r.printed ++ unlines (ds.map (r.format · false)) } := by
  induction ds generalizing r with
  | nil => simp [reportAll, unlines, String.join]
  | cons d ds ih =>
    have hformat : (r.error d).format = r.format := rfl
    have hcons : r.reportAll (d :: ds) = (r.error d).reportAll ds := rfl
    rw [hcons, ih, hformat]
    simp [error, print, unlines, String.append_assoc]

/-- The source line that the diagnosis of an error quotes. -/
def quoted? : Option String :=
  (r.sourceLine? d.line).filter fun line =>
    let part := (d.lexeme?.getD "").toList
    !part.isEmpty && (Text.indexOf? part line.toList).isSome

/-- Without a line to quote there is no diagnosis. -/
theorem diagnose_of_none (h : r.quoted? d = none) : r.diagnose d color = none := by
  unfold quoted? at h
  simp only [diagnose, Option.bind_eq_bind]
  cases hline : r.sourceLine? d.line with
  | none => rfl
  | some line =>
    simp only [hline, Option.filter_eq_none_iff, Option.some.injEq, forall_eq', Bool.and_eq_true,
      Bool.not_eq_true', not_and] at h
    cases hpart : (d.lexeme?.getD "").toList.isEmpty with
    | true => rfl
    | false => simp [Option.not_isSome_iff_eq_none.mp (h hpart)]

/-- A diagnosis is the line it quotes, in which the offending text is emphasized, with another line
under it. -/
theorem diagnose_of_some {line : String} (h : r.quoted? d = some line) :
    ∃ before part after underline, before ++ part ++ after = line ∧
      r.diagnose d color =
        some ("  " ++ before ++ r.emphasis color part ++ after ++ "\n" ++ underline) := by
  unfold quoted? at h
  obtain ⟨hline, hfound⟩ := Option.filter_eq_some_iff.mp h
  simp only [Bool.and_eq_true, Bool.not_eq_true', Option.isSome_iff_exists] at hfound
  obtain ⟨hpart, start, hstart⟩ := hfound
  obtain ⟨after, hafter⟩ := Text.isPrefix_of_indexOf? hstart
  have hdrop : line.toList.drop (start + (d.lexeme?.getD "").toList.length) = after := by
    rw [← List.drop_drop, ← hafter, List.drop_left]
  let underline := String.ofList ('^' :: List.replicate ((d.lexeme?.getD "").toList.length - 1) '~')
  refine ⟨String.ofList (line.toList.take start), d.lexeme?.getD "", String.ofList after,
    "  " ++ String.ofList (List.replicate start ' ') ++ r.emphasis color underline, ?_, ?_⟩
  · rw [← String.toList_inj]
    simp [List.append_assoc, hafter]
  · simp only [diagnose, Option.bind_eq_bind, hline, hpart, hstart, Option.bind_some, hdrop,
      Bool.false_eq_true, if_false, String.ofList_toList, String.append_assoc]
    rfl

end Reporter

end Lox
