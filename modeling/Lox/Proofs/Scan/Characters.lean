import Lox.Proofs.Scan.Partition

/-! Where the characters of tokens and errors come from: all are of the text that is scanned. -/
namespace Lox

namespace Lexical

variable {before cs : List Char} {tokens : List Token} {errors : List ScanError}

/-- Lexemes are parts of the text. -/
theorem Cuts.lexeme_subset (h : Cuts before cs tokens errors) :
    ∀ t ∈ tokens, t.lexeme.toList ⊆ cs := by
  induction h with
  | done | openString => simp
  | @token _ text _ _ _ _ _ _ _ _ ih =>
    intro t ht
    rcases List.mem_cons.mp ht with rfl | ht
    · simp
    · exact List.subset_append_of_subset_right text (ih t ht)
  | blank _ _ ih | stray _ _ _ _ ih => exact fun t ht => List.subset_cons_of_subset _ (ih t ht)
  | comment _ _ _ ih => exact fun t ht => List.subset_append_of_subset_right _ (ih t ht)

/-- So are the texts that errors point at. -/
theorem Cuts.excerpt_subset (h : Cuts before cs tokens errors) :
    ∀ e ∈ errors, e.fault.excerpt.toList ⊆ cs := by
  induction h with
  | done => simp
  | token _ _ _ ih | comment _ _ _ ih =>
    exact fun e he => List.subset_append_of_subset_right _ (ih e he)
  | blank _ _ ih => exact fun e he => List.subset_cons_of_subset _ (ih e he)
  | stray _ _ _ _ ih =>
    intro e he
    rcases List.mem_cons.mp he with rfl | he
    · simp [ScanFault.excerpt]
    · exact List.subset_cons_of_subset _ (ih e he)
  | openString => simp [ScanFault.excerpt]

end Lexical

variable {source : String}

/-- Tokens have no characters but those of the text. -/
theorem lexeme_subset_of_scan {t : Token} (ht : t ∈ (scan source).tokens) :
    t.lexeme.toList ⊆ source.toList :=
  (Lexical.cuts_pieces [] source.toList).lexeme_subset t ht

theorem excerpt_subset_of_scan {e : ScanError} (he : e ∈ (scan source).errors) :
    e.fault.excerpt.toList ⊆ source.toList :=
  (Lexical.cuts_pieces [] source.toList).excerpt_subset e he

end Lox
