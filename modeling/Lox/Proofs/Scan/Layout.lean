import Lox.Proofs.Recast
import Lox.Proofs.Scan.Fuel
import Lox.Proofs.Scan.Partition

/-! What stands between the lexemes of a text has no part in its tokens, the lines apart. -/
namespace Lox.Lexical

open Scan (munch piece pieces run numeralRun isGap isNamePart single? double?)

/-- Blanks, and comments with the line feeds that end them. -/
inductive Filling : List Char → Prop
  | nil : Filling []
  | blank {c rest} (h : c = ' ' ∨ c = '\t' ∨ c = '\r' ∨ c = '\n') (hrest : Filling rest) :
      Filling (c :: rest)
  | comment {text rest} (h : IsComment text) (hrest : Filling rest) :
      Filling (text ++ '\n' :: rest)

/-- A blank and what else may stand between two lexemes. -/
def IsSeparator (gap : List Char) : Prop :=
  ∃ c rest, gap = c :: rest ∧ (c = ' ' ∨ c = '\t' ∨ c = '\r' ∨ c = '\n') ∧ Filling rest

/-- The lexemes of the tokens in order, each with a separator behind it. The last may do without. -/
inductive LaidOut : List Token → List Char → Prop
  | done : LaidOut [] []
  | token {t tokens gap rest} (hgap : IsSeparator gap ∨ gap = [] ∧ tokens = [])
      (hrest : LaidOut tokens rest) : LaidOut (t :: tokens) (t.lexeme.toList ++ (gap ++ rest))

/-- The characters, if there are any, begin with a blank. -/
def Gapped (after : List Char) : Prop := ∀ d ∈ after.head?, isGap d

variable {c : Char} {cs ds es text gap rest after : List Char} {kind : TokenKind}
  {literal : Literal} {tokens : List Token}

theorem IsSeparator.filling (h : IsSeparator gap) : Filling gap := by
  obtain ⟨c, rest, rfl, hc, hrest⟩ := h
  exact .blank hc hrest

theorem LaidOut.gapped (hrest : LaidOut tokens rest)
    (hgap : IsSeparator gap ∨ gap = [] ∧ tokens = []) : Gapped (gap ++ rest) := by
  intro d hd
  rcases hgap with ⟨c, more, rfl, hc, -⟩ | ⟨rfl, rfl⟩
  · obtain rfl : c = d := by simpa using hd
    rcases hc with rfl | rfl | rfl | rfl <;> rfl
  · cases hrest
    simp at hd

/-! A lexeme ends where a blank follows. -/

theorem Gapped.ne (h : Gapped after) {d : Char} (hd : isGap d = false) : after.head? ≠ some d := by
  intro he
  simp [h d he] at hd

/-- Characters of one sort end where a blank follows, if no blank is of the sort. -/
theorem Gapped.run_eq {p : Char → Bool} (h : Gapped after) (hp : ∀ d, isGap d → p d = false)
    (hcs : ∀ d ∈ cs, p d) : run p (cs ++ after) = cs.length := by
  cases after with
  | nil => rw [run, List.takeWhile_append_of_pos hcs, List.takeWhile_nil, List.append_nil]
  | cons d after => exact run_append hcs (hp d (h d rfl))

theorem gap_cases (h : isGap c) : c = ' ' ∨ c = '\r' ∨ c = '\t' ∨ c = '\n' := by
  simpa [isGap, or_assoc] using h

theorem isDigit_of_isGap (h : isGap c) : c.isDigit = false := by
  rcases gap_cases h with rfl | rfl | rfl | rfl <;> rfl

theorem isNamePart_of_isGap (h : isGap c) : isNamePart c = false := by
  rcases gap_cases h with rfl | rfl | rfl | rfl <;> rfl

/-- Before a gap a symbol is not read as a longer one. -/
theorem Gapped.symbol (h : Gapped after) (hmem : (c :: cs, kind) ∈ symbols) :
    munch c (cs ++ after) = (.token kind .nil, cs.length) := by
  have hequal := h.ne (d := '=') rfl
  have hslash := h.ne (d := '/') rfl
  have hall : ∀ e ∈ symbols, ∀ d ds, e.1 = d :: ds →
      munch d (ds ++ after) = (.token e.2 .nil, ds.length) := by
    simp [symbols, munch, single?, double?, hequal, hslash]
  exact hall _ hmem c cs rfl

theorem munch_string (h : '"' ∉ ds) (after : List Char) :
    munch '"' (ds ++ ['"'] ++ after) =
      (.token .string (.string (String.ofList ds)), (ds ++ ['"']).length) := by
  have hrun : run (· ≠ '"') (ds ++ ['"'] ++ after) = ds.length := by
    rw [List.append_assoc]
    refine run_append (fun d hd => ?_) (by simp)
    rw [decide_eq_true_eq]
    rintro rfl
    exact h hd
  rw [munch_quote, hrun, if_pos (by simp only [List.length_append, List.length_cons]; omega),
    List.append_assoc, List.take_left]
  simp

theorem Gapped.whole (h : Gapped after) (hds : IsDigits (c :: cs)) :
    munch c (cs ++ after) = (.token .number (.number (decimal (c :: cs) [])), cs.length) := by
  have hcs : ∀ d ∈ cs, d.isDigit := fun d hd => hds.2 d (by simp [hd])
  have hrun : numeralRun (cs ++ after) = cs.length := by
    refine numeralRun_whole hcs (fun d hd => isDigit_of_isGap (h d hd)) ?_
    rintro d more rfl
    exact absurd rfl (h.ne (d := '.') rfl)
  rw [munch_digit (hds.2 c (by simp)), hrun, List.take_left, Scan.numeral, read?_whole hds]

/-- Before a gap a number ends with its last digit. -/
theorem Gapped.fraction (h : Gapped after) (hds : IsDigits (c :: cs)) (hes : IsDigits es) :
    munch c (cs ++ '.' :: es ++ after) =
      (.token .number (.number (decimal (c :: cs) es)), (cs ++ '.' :: es).length) := by
  have hcs : ∀ d ∈ cs, d.isDigit := fun d hd => hds.2 d (by simp [hd])
  have hrun : numeralRun (cs ++ '.' :: es ++ after) = (cs ++ '.' :: es).length := by
    obtain ⟨hne, hdigits⟩ := hes
    obtain ⟨e, es, rfl⟩ := List.exists_cons_of_ne_nil hne
    rw [List.append_assoc, List.cons_append, List.cons_append,
      numeralRun_fraction hcs (hdigits e (by simp)), ← List.cons_append,
      run_digits hdigits fun d hd => isDigit_of_isGap (h d hd)]
    simp only [List.length_append, List.length_cons]
    omega
  rw [munch_digit (hds.2 c (by simp)), hrun, List.take_left, Scan.numeral, ← List.cons_append,
    read?_fraction hds hes]

/-- Before a gap a word ends with its last letter. -/
theorem Gapped.word (h : Gapped after) (hw : IsWord (c :: cs)) :
    munch c (cs ++ after) =
      (.token (TokenKind.ofWord (String.ofList (c :: cs))) .nil, cs.length) := by
  obtain ⟨_, _, he, hc, hcs⟩ := hw
  obtain ⟨rfl, rfl⟩ := List.cons.inj he
  have hpart : ∀ d ∈ cs, isNamePart d := fun d hd => isNamePart_iff.mpr (hcs d hd)
  rw [munch_letter hc, h.run_eq (fun d => isNamePart_of_isGap) hpart, List.take_left]

theorem ofWord_keyword {word : String} (h : (word, kind) ∈ reserved) :
    TokenKind.ofWord word = kind := by
  have hall : ∀ e ∈ reserved, TokenKind.ofWord e.1 = e.2 := by decide
  exact hall _ h

theorem ofWord_identifier {word : String} (h : ∀ kind, (word, kind) ∉ reserved) :
    TokenKind.ofWord word = .identifier := by
  have hlookup : TokenKind.keyword? word = none := by
    refine List.lookup_eq_none_iff.mpr fun e he => ?_
    rw [bne_iff_ne]
    rintro rfl
    exact h e.2 he
  rw [TokenKind.ofWord, hlookup]
  rfl

/-- A lexeme with a blank or nothing behind it is taken whole, and nothing else. -/
theorem munch_lexeme (hlexeme : Lexeme text kind literal) (htext : text = c :: cs)
    (h : Gapped after) : munch c (cs ++ after) = (.token kind literal, cs.length) := by
  cases hlexeme with
  | symbol hmem => exact h.symbol (htext ▸ hmem)
  | string hbody =>
    obtain ⟨rfl, rfl⟩ := List.cons.inj htext
    exact munch_string hbody after
  | whole hds =>
    subst htext
    exact h.whole hds
  | @fraction ds es hds hes =>
    obtain ⟨d, ds, rfl⟩ := List.exists_cons_of_ne_nil hds.1
    obtain ⟨rfl, rfl⟩ := List.cons.inj htext
    exact h.fraction hds hes
  | keyword hw hmem =>
    subst htext
    rw [h.word hw, ofWord_keyword hmem]
  | identifier hw hnone =>
    subst htext
    rw [h.word hw, ofWord_identifier hnone]

theorem Lexeme.ne_nil (h : Lexeme text kind literal) : text ≠ [] := by
  rintro rfl
  generalize htext : [] = text at h
  cases h with
  | symbol h =>
    subst htext
    have hall : ∀ e ∈ symbols, e.1 ≠ [] := by decide
    exact hall _ h rfl
  | string => cases htext
  | whole h => exact h.1 htext.symm
  | fraction h => simp at htext
  | keyword h | identifier h =>
    obtain ⟨c, cs, rfl, -⟩ := h
    cases htext

/-! What separators are cut into, and what lexemes. -/

theorem pieces_munch {sort : Scan.Class} (h : munch c (cs ++ rest) = (sort, cs.length))
    (line : Nat) : pieces line (c :: (cs ++ rest)) =
      ⟨sort, c :: cs, line + (c :: cs).count '\n'⟩ ::
        pieces (line + (c :: cs).count '\n') rest := by
  have hpiece : piece line c (cs ++ rest) = ⟨sort, c :: cs, line + (c :: cs).count '\n'⟩ := by
    simp [piece, h]
  rw [Scan.pieces_cons, hpiece, h, List.drop_left]

theorem pieces_blank (h : c = ' ' ∨ c = '\t' ∨ c = '\r' ∨ c = '\n') (line : Nat)
    (rest : List Char) : pieces line (c :: rest) =
      ⟨.gap, [c], line + [c].count '\n'⟩ :: pieces (line + [c].count '\n') rest := by
  have hmunch : munch c ([] ++ rest) = (.gap, ([] : List Char).length) := by
    rcases h with rfl | rfl | rfl | rfl <;> rfl
  exact pieces_munch hmunch line

theorem munch_comment (h : '\n' ∉ ds) (rest : List Char) :
    munch '/' ('/' :: ds ++ '\n' :: rest) = (.gap, ('/' :: ds).length) := by
  have hslash : munch '/' ('/' :: ds ++ '\n' :: rest) =
      (.gap, run (· ≠ '\n') ('/' :: ds ++ '\n' :: rest)) := rfl
  rw [hslash, run_append (fun d hd => ?_) (by simp)]
  rw [decide_eq_true_eq]
  rintro rfl
  simp [h] at hd

/-- What lies between lexemes leaves the tokens and the errors to the rest. -/
theorem Filling.exists_line (h : Filling gap) (line : Nat) (rest : List Char) :
    ∃ after,
      (pieces line (gap ++ rest)).filterMap (·.token?) =
        (pieces after rest).filterMap (·.token?) ∧
      (pieces line (gap ++ rest)).filterMap (·.error?) =
        (pieces after rest).filterMap (·.error?) := by
  induction h generalizing line with
  | nil => exact ⟨line, rfl, rfl⟩
  | blank hc _ ih =>
    rw [List.cons_append, pieces_blank hc]
    exact ih _
  | @comment _ more hc _ ih =>
    obtain ⟨body, rfl, hbody⟩ := hc
    have hcomment := pieces_munch (munch_comment hbody (more ++ rest)) line
    rw [pieces_blank (c := '\n') (by simp)] at hcomment
    rw [List.append_assoc, List.cons_append, List.cons_append, List.cons_append]
    rw [List.cons_append] at hcomment
    rw [hcomment]
    exact ih _

/-- Tokens laid out with separators are scanned as themselves, whatever the separators are. -/
theorem LaidOut.scan (h : LaidOut tokens text)
    (hlexeme : ∀ t ∈ tokens, Lexeme t.lexeme.toList t.kind t.literal) (line : Nat) :
    ((pieces line text).filterMap (·.token?)).map (·.reline fun _ => 0) =
        tokens.map (·.reline fun _ => 0) ∧
      (pieces line text).filterMap (·.error?) = [] := by
  induction h generalizing line with
  | done => simp
  | @token t tokens gap rest hgap hrest ih =>
    have ht := hlexeme t List.mem_cons_self
    obtain ⟨c, cs, hcs⟩ := List.exists_cons_of_ne_nil ht.ne_nil
    have hfilling : Filling gap := by
      rcases hgap with hgap | ⟨rfl, -⟩
      · exact hgap.filling
      · exact .nil
    have hmunch := munch_lexeme ht hcs (hrest.gapped hgap)
    let below := line + (c :: cs).count '\n'
    obtain ⟨after, htokens, herrors⟩ := hfilling.exists_line below rest
    obtain ⟨ihTokens, ihErrors⟩ := ih (fun u hu => hlexeme u (List.mem_cons_of_mem _ hu)) after
    have hpieces := pieces_munch hmunch line
    have hself : String.ofList (c :: cs) = t.lexeme := by rw [← hcs, String.ofList_toList]
    rw [hcs, List.cons_append, hpieces]
    refine ⟨?_, ?_⟩
    · rw [filterMap_cons_toList, htokens, List.map_append, ihTokens]
      simp [Scan.Piece.token?, Token.reline, hself]
    · rw [filterMap_cons_toList, herrors, ihErrors]
      rfl

/-- Every token of a cut is a lexeme. -/
theorem Cuts.lexemes {before : List Char} {errors : List ScanError}
    (h : Cuts before cs tokens errors) : ∀ t ∈ tokens, Lexeme t.lexeme.toList t.kind t.literal := by
  induction h with
  | done | openString => simp
  | token h _ _ ih => simpa using ⟨h, ih⟩
  | blank _ _ ih | comment _ _ _ ih | stray _ _ _ _ ih => exact ih

/-- The lexemes of a text, laid out anew with any separators around them, are scanned without error
to the same tokens on other lines. This goes for the lexemes of a text with errors too. -/
theorem scan_layout {source : String} {lead body : List Char}
    (hlead : lead = [] ∨ IsSeparator lead) (hbody : LaidOut (scan source).tokens body) :
    (scan (String.ofList (lead ++ body))).errors = [] ∧
      (scan (String.ofList (lead ++ body))).listing.map (·.reline fun _ => 0) =
        (scan source).listing.map (·.reline fun _ => 0) := by
  have hlexeme := (cuts_pieces [] source.toList).lexemes
  have hlead : Filling lead := by
    rcases hlead with rfl | hlead
    · exact .nil
    · exact hlead.filling
  obtain ⟨after, htokens, herrors⟩ := hlead.exists_line 1 body
  obtain ⟨hbodyTokens, hbodyErrors⟩ := hbody.scan hlexeme after
  simp only [scan, Scan.listing, String.toList_ofList, List.map_append] at *
  refine ⟨by rw [herrors, hbodyErrors], ?_⟩
  rw [htokens, hbodyTokens]
  rfl

/-- A slash and the comment behind it stay apart. -/
theorem scan_layout_slash :
    let lead : List Char := []
    let body := ['/', ' ', '/', '/', '\n', '=']
    LaidOut (scan "/=").tokens body ∧
      (scan (String.ofList (lead ++ body))).errors = [] ∧
      (scan (String.ofList (lead ++ body))).listing.map (·.reline fun _ => 0) =
        (scan "/=").listing.map (·.reline fun _ => 0) := by
  intro lead body
  have hcomment : IsComment ['/', '/'] := ⟨[], rfl, by simp⟩
  have hgap : IsSeparator [' ', '/', '/', '\n'] := ⟨' ', _, rfl, Or.inl rfl, .comment hcomment .nil⟩
  have hscan : (scan "/=").tokens = [⟨.slash, "/", .nil, 1⟩, ⟨.equal, "=", .nil, 1⟩] := by
    rw [scan_eq]
    rfl
  have hbody : LaidOut (scan "/=").tokens body := by
    rw [hscan]
    exact .token (Or.inl hgap) (.token (Or.inr ⟨rfl, rfl⟩) .done)
  exact ⟨hbody, scan_layout (Or.inl rfl) hbody⟩

end Lox.Lexical
