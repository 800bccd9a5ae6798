import Lox.Proofs.Scan.Numeral

/-! What stands at a character: the longest lexeme or comment, a blank, or nothing of the
language. -/
namespace Lox.Lexical

open Scan (munch run numeralRun single? double? isGap isNameStart isNamePart)

variable {p : Char → Bool} {c d : Char} {cs ds es : List Char}

theorem take_run (p : Char → Bool) (cs : List Char) : cs.take (run p cs) = cs.takeWhile p :=
  (List.prefix_iff_eq_take.mp (List.takeWhile_prefix p)).symm

theorem of_mem_take_run (h : d ∈ cs.take (run p cs)) : p d :=
  List.all_eq_true.mp List.all_takeWhile d (take_run p cs ▸ h)

theorem le_run (hd : ∀ d ∈ ds, p d) (h : ds <+: cs) : ds.length ≤ run p cs := by
  obtain ⟨es, rfl⟩ := h
  rw [run, List.takeWhile_append_of_pos hd, List.length_append]
  omega

theorem run_append (hd : ∀ d ∈ ds, p d) (hc : p c = false) :
    run p (ds ++ c :: cs) = ds.length := by
  rw [run, List.takeWhile_append_of_pos hd, List.takeWhile_cons_of_neg (by simp [hc]),
    List.append_nil]

/-- The character after a run, if there is one, is none of it. -/
theorem head?_drop_run (p : Char → Bool) (cs : List Char) :
    ∀ d ∈ (cs.drop (run p cs)).head?, p d = false := by
  induction cs with
  | nil => simp
  | cons c cs ih =>
    by_cases hc : p c
    · simpa [run, hc] using ih
    · simp [run, hc]

/-- The characters that decide by themselves what stands at them. -/
def marks : List Char :=
  ['(', ')', '{', '}', ',', '.', '-', '+', ';', '*', '!', '=', '<', '>', '/', ' ', '\r', '\t',
    '\n', '"']

theorem munch_of_not_mem_marks (h : c ∉ marks) (cs : List Char) :
    munch c cs =
      if c.isDigit then
        (Scan.numeral (String.ofList (c :: cs.take (numeralRun cs))), numeralRun cs)
      else if isNameStart c then
        (.token (TokenKind.ofWord (String.ofList (c :: cs.take (run isNamePart cs)))) .nil,
          run isNamePart cs)
      else (.fault (.unexpectedCharacter c), 0) := by
  simp only [marks, List.mem_cons, List.not_mem_nil, or_false, not_or] at h
  simp [munch, single?, double?, isGap, h]

theorem not_mem_marks_of_isDigit (h : c.isDigit) : c ∉ marks := by
  have hmarks : ∀ d ∈ marks, d.isDigit = false := by simp [marks]
  intro hc
  simp [hmarks c hc] at h

/-- The scanner's letters are those of the grammar. -/
theorem isNameStart_iff : isNameStart c ↔ IsLetter c := by
  have halpha : c.isAlpha = (decide (c.val ≥ 'A'.val ∧ c.val ≤ 'Z'.val) ||
      (decide (c.val ≥ 'a'.val) && decide (c.val ≤ 'z'.val))) := rfl
  simp only [isNameStart, IsLetter, halpha, Char.le_def, Bool.or_eq_true, Bool.and_eq_true,
    decide_eq_true_eq, or_assoc, ge_iff_le]

theorem isNamePart_iff : isNamePart c ↔ IsLetter c ∨ c.isDigit := by
  rw [← isNameStart_iff]
  simp only [isNamePart, isNameStart, Char.isAlphanum, Bool.or_eq_true, or_right_comm]

theorem not_mem_marks_of_isLetter (h : IsLetter c) : c ∉ marks := by
  have hmarks : ∀ d ∈ marks, isNameStart d = false := by simp [marks, isNameStart]
  intro hc
  simp [← isNameStart_iff, hmarks c hc] at h

theorem isDigit_of_isLetter (h : IsLetter c) : c.isDigit = false := by
  rw [Bool.eq_false_iff]
  intro hd
  have hc := (Number.IsFigure.bounds (Or.inl hd)).2
  have hle {d : Char} (h : d ≤ c) : d.toNat ≤ 0x39 :=
    Nat.le_trans (UInt32.le_iff_toNat_le.mp h) hc
  rcases h with h | h | rfl
  · exact absurd (hle h.1) (by decide)
  · exact absurd (hle h.1) (by decide)
  · exact absurd hc (by decide)

theorem munch_digit (h : c.isDigit) (cs : List Char) :
    munch c cs = (Scan.numeral (String.ofList (c :: cs.take (numeralRun cs))), numeralRun cs) := by
  rw [munch_of_not_mem_marks (not_mem_marks_of_isDigit h), if_pos h]

/-- A letter begins a word, which goes on as far as letters and digits do. -/
theorem munch_letter (h : IsLetter c) (cs : List Char) :
    munch c cs = (.token (TokenKind.ofWord (String.ofList (c :: cs.take (run isNamePart cs)))) .nil,
      run isNamePart cs) := by
  rw [munch_of_not_mem_marks (not_mem_marks_of_isLetter h), isDigit_of_isLetter h,
    isNameStart_iff.mpr h]
  rfl

/-! The numeral at a digit. -/

/-- The digits that a text begins with, and the rest. -/
theorem exists_digits (cs : List Char) : ∃ ds rest, cs = ds ++ rest ∧ (∀ d ∈ ds, d.isDigit) ∧
    ∀ d ∈ rest.head?, d.isDigit = false :=
  ⟨cs.take (run Char.isDigit cs), cs.drop (run Char.isDigit cs),
    (List.take_append_drop _ cs).symm, fun _ hd => of_mem_take_run hd, head?_drop_run _ cs⟩

theorem run_digits (hd : ∀ d ∈ ds, d.isDigit) (hc : ∀ d ∈ cs.head?, d.isDigit = false) :
    run Char.isDigit (ds ++ cs) = ds.length := by
  cases cs with
  | nil => simp [run, takeWhile_isDigit hd]
  | cons c cs => exact run_append hd (hc c rfl)

/-- A point with a digit behind it is part of the number. -/
theorem numeralRun_fraction (hd : ∀ d ∈ ds, d.isDigit) (he : c.isDigit) :
    numeralRun (ds ++ '.' :: c :: cs) = ds.length + 1 + run Char.isDigit (c :: cs) := by
  have hrun : run Char.isDigit (ds ++ '.' :: c :: cs) = ds.length := run_append hd (by decide)
  simp [numeralRun, hrun, he]

/-- A point without a digit behind it is not part of the number. -/
theorem numeralRun_whole (hd : ∀ d ∈ ds, d.isDigit) (hc : ∀ d ∈ cs.head?, d.isDigit = false)
    (hpoint : ∀ d rest, cs = '.' :: d :: rest → d.isDigit = false) :
    numeralRun (ds ++ cs) = ds.length := by
  simp only [numeralRun, run_digits hd hc, List.drop_left]
  split
  · next d rest => simp [hpoint d rest rfl]
  · rfl

/-- A numeral is digits, and a point with more digits where a digit follows the point. -/
theorem numeralRun_cases (cs : List Char) :
    (∃ ds rest, cs = ds ++ rest ∧ numeralRun cs = ds.length ∧ ∀ d ∈ ds, d.isDigit) ∨
      ∃ ds es rest, cs = ds ++ '.' :: (es ++ rest) ∧ numeralRun cs = ds.length + 1 + es.length ∧
        (∀ d ∈ ds, d.isDigit) ∧ IsDigits es := by
  obtain ⟨ds, rest, rfl, hd, hrest⟩ := exists_digits cs
  by_cases hpoint : ∃ c more, rest = '.' :: c :: more ∧ c.isDigit
  · obtain ⟨c, more, rfl, hc⟩ := hpoint
    obtain ⟨es, after, hes, he, hafter⟩ := exists_digits (c :: more)
    refine Or.inr ⟨ds, es, after, by rw [← hes], ?_, hd, ?_, he⟩
    · rw [numeralRun_fraction hd hc, hes, run_digits he hafter]
    · rintro rfl
      rw [List.nil_append] at hes
      simp [hafter c (by simp [← hes])] at hc
  · refine Or.inl ⟨ds, rest, rfl, numeralRun_whole hd hrest ?_, hd⟩
    rintro d more rfl
    simpa using fun hd => hpoint ⟨d, more, rfl, hd⟩

/-- Digits are read as a number, and as the one they write. -/
theorem exists_numeral (hc : c.isDigit) (cs : List Char) :
    ∃ x, Scan.numeral (String.ofList (c :: cs.take (numeralRun cs))) = .token .number (.number x) ∧
      Lexeme (c :: cs.take (numeralRun cs)) .number (.number x) := by
  rcases numeralRun_cases cs with ⟨ds, rest, rfl, hn, hd⟩ | ⟨ds, es, rest, rfl, hn, hd, he⟩
  · have hds : IsDigits (c :: ds) := ⟨by simp, by simpa [hc] using hd⟩
    refine ⟨decimal (c :: ds) [], ?_, ?_⟩
    · rw [hn, List.take_left, Scan.numeral, read?_whole hds]
    · rw [hn, List.take_left]
      exact .whole hds
  · have hds : IsDigits (c :: ds) := ⟨by simp, by simpa [hc] using hd⟩
    have htake : (ds ++ '.' :: (es ++ rest)).take (numeralRun (ds ++ '.' :: (es ++ rest))) =
        ds ++ '.' :: es := by
      have hlen : ds.length + 1 + es.length = (ds ++ '.' :: es).length := by
        simp only [List.length_append, List.length_cons]
        omega
      rw [hn, hlen, show ds ++ '.' :: (es ++ rest) = (ds ++ '.' :: es) ++ rest by simp,
        List.take_left]
    refine ⟨decimal (c :: ds) es, ?_, ?_⟩
    · rw [htake, Scan.numeral, ← List.cons_append, read?_fraction hds he]
    · rw [htake]
      exact .fraction hds he

/-! The word at a letter. -/

/-- The scanner's table of words is that of the grammar. -/
theorem keywords_eq : TokenKind.keywords = reserved := rfl

/-- A word is a keyword if it is reserved, and a name if not. -/
theorem lexeme_ofWord {text : List Char} (h : IsWord text) :
    Lexeme text (TokenKind.ofWord (String.ofList text)) .nil := by
  unfold TokenKind.ofWord TokenKind.keyword?
  cases hk : TokenKind.keywords.lookup (String.ofList text) with
  | some kind =>
    obtain ⟨before, after, he, -⟩ := List.lookup_eq_some_iff.mp hk
    exact .keyword h (by simp [← keywords_eq, he])
  | none =>
    refine .identifier h fun kind hmem => ?_
    rw [← keywords_eq] at hmem
    simpa using List.lookup_eq_none_iff.mp hk _ hmem

/-! What `munch` says is so. -/

/-- What a piece of text is, given the text after it. -/
inductive Stands : Scan.Class → List Char → List Char → Prop
  | token {kind literal text after} (h : Lexeme text kind literal) :
      Stands (.token kind literal) text after
  | blank {c after} (h : c = ' ' ∨ c = '\t' ∨ c = '\r' ∨ c = '\n') : Stands .gap [c] after
  | comment {text after} (h : IsComment text) : Stands .gap text after
  | stray {c after} (h : c ∉ marks) (hd : c.isDigit = false) (hn : ¬ IsLetter c) :
      Stands (.fault (.unexpectedCharacter c)) [c] after
  | openString {body} (h : '"' ∉ body) : Stands (.fault .unterminatedString) ('"' :: body) []

theorem stands_single {kind : TokenKind} (h : single? c = some kind) (cs : List Char) :
    Stands (munch c cs).1 (c :: cs.take (munch c cs).2) (cs.drop (munch c cs).2) := by
  have hmem : ([c], kind) ∈ symbols := by
    unfold single? at h
    split at h <;> cases h <;> decide
  simpa [munch, h] using Stands.token (.symbol hmem)

theorem stands_double {joined alone : TokenKind} (h : double? c = some (joined, alone))
    (cs : List Char) :
    Stands (munch c cs).1 (c :: cs.take (munch c cs).2) (cs.drop (munch c cs).2) := by
  have hmem : ([c, '='], joined) ∈ symbols ∧ ([c], alone) ∈ symbols ∧ single? c = none := by
    unfold double? at h
    split at h <;> cases h <;> decide
  by_cases hcs : cs.head? = some '='
  · obtain ⟨ds, rfl⟩ := List.head?_eq_some_iff.mp hcs
    simpa [munch, h, hmem.2.2] using Stands.token (.symbol hmem.1)
  · simpa [munch, h, hmem.2.2, hcs] using Stands.token (.symbol hmem.2.1)

theorem stands_slash (cs : List Char) :
    Stands (munch '/' cs).1 ('/' :: cs.take (munch '/' cs).2) (cs.drop (munch '/' cs).2) := by
  by_cases hcs : cs.head? = some '/'
  · obtain ⟨ds, rfl⟩ := List.head?_eq_some_iff.mp hcs
    have hmunch : munch '/' ('/' :: ds) = (.gap, run (· ≠ '\n') ('/' :: ds)) := rfl
    rw [hmunch]
    refine .comment ⟨ds.takeWhile (· ≠ '\n'), ?_, ?_⟩
    · simp [take_run]
    · intro hmem
      simpa using List.all_eq_true.mp List.all_takeWhile _ hmem
  · have hmunch : munch '/' cs = (.token .slash .nil, 0) := by simp [munch, single?, double?, hcs]
    rw [hmunch]
    simpa using Stands.token (.symbol (by decide : (['/'], TokenKind.slash) ∈ symbols))

theorem munch_quote (cs : List Char) :
    munch '"' cs =
      if run (· ≠ '"') cs < cs.length then
        (.token .string (.string (String.ofList (cs.take (run (· ≠ '"') cs)))),
          run (· ≠ '"') cs + 1)
      else (.fault .unterminatedString, run (· ≠ '"') cs) := rfl

/-- A string ends at the next quote, over line feeds, or not at all. -/
theorem stands_quote (cs : List Char) :
    Stands (munch '"' cs).1 ('"' :: cs.take (munch '"' cs).2) (cs.drop (munch '"' cs).2) := by
  have hbody : '"' ∉ cs.take (run (· ≠ '"') cs) := by
    intro hmem
    simpa using of_mem_take_run hmem
  rw [munch_quote]
  by_cases h : run (· ≠ '"') cs < cs.length
  · have hquote : cs[run (· ≠ '"') cs] = '"' := by
      have hhead := head?_drop_run (· ≠ '"') cs
      rw [List.head?_drop, List.getElem?_eq_getElem h] at hhead
      simpa using hhead _ rfl
    rw [if_pos h]
    simp only [List.take_add_one, List.getElem?_eq_getElem h, hquote]
    exact .token (.string hbody)
  · rw [if_neg h, List.drop_eq_nil_of_le (by omega)]
    exact .openString hbody

/-- Whatever the scanner takes stands there as what it is taken for. -/
theorem stands_munch (c : Char) (cs : List Char) :
    Stands (munch c cs).1 (c :: cs.take (munch c cs).2) (cs.drop (munch c cs).2) := by
  by_cases hc : c ∈ marks
  · have hcases : ∀ d ∈ marks, (single? d).isSome ∨ (double? d).isSome ∨ d = '/' ∨ d = '"' ∨
        d = ' ' ∨ d = '\t' ∨ d = '\r' ∨ d = '\n' := by
      simp [marks, single?, double?]
    rcases hcases c hc with h | h | rfl | rfl | h
    · exact stands_single (Option.eq_some_of_isSome h) cs
    · exact stands_double (Option.eq_some_of_isSome h) cs
    · exact stands_slash cs
    · exact stands_quote cs
    · have hmunch : munch c cs = (.gap, 0) := by rcases h with rfl | rfl | rfl | rfl <;> rfl
      rw [hmunch]
      exact .blank h
  · by_cases hd : c.isDigit
    · rw [munch_digit hd]
      obtain ⟨x, hx, hlexeme⟩ := exists_numeral hd cs
      simp only [hx]
      exact .token hlexeme
    · by_cases hn : IsLetter c
      · rw [munch_letter hn]
        exact .token (lexeme_ofWord
          ⟨c, _, rfl, hn, fun d hd => isNamePart_iff.mp (of_mem_take_run hd)⟩)
      · simp only [munch_of_not_mem_marks hc, hd, isNameStart_iff, hn]
        simpa using Stands.stray hc (by simpa using hd) hn

/-! Nothing longer stands there. -/

theorem run_le_numeralRun (cs : List Char) : run Char.isDigit cs ≤ numeralRun cs := by
  simp only [numeralRun]
  split
  · split <;> omega
  · exact Nat.le_refl _

variable {kind : TokenKind} {literal : Literal} {text body : List Char}

/-- No symbol that stands there is longer than what the scanner takes. -/
theorem length_le_of_symbol (h : (text, kind) ∈ symbols) (hpre : text <+: c :: cs) :
    text.length ≤ (munch c cs).2 + 1 := by
  have hshape : ∀ e ∈ symbols, e.1.length = 1 ∨ e.1.tail = ['='] ∧
      (e.1.head?.bind double?).isSome ∧ e.1.head?.bind single? = none := by decide
  rcases hshape _ h with hone | ⟨htail, hdouble, hsingle⟩
  · simp only at hone
    omega
  · cases text with
    | nil => simp
    | cons d ds =>
      simp only [List.tail_cons, List.head?_cons, Option.bind_some] at htail hdouble hsingle
      subst htail
      obtain ⟨rfl, es, rfl⟩ := List.cons_prefix_cons.mp hpre
      obtain ⟨⟨joined, alone⟩, hd⟩ := Option.isSome_iff_exists.mp hdouble
      simp [munch, hsingle, hd]

theorem length_le_of_string (h : '"' ∉ body) (hpre : '"' :: (body ++ ['"']) <+: c :: cs) :
    (body ++ ['"']).length ≤ (munch c cs).2 := by
  obtain ⟨rfl, es, rfl⟩ := List.cons_prefix_cons.mp hpre
  have hrun : run (· ≠ '"') (body ++ ['"'] ++ es) = body.length := by
    rw [List.append_assoc]
    refine run_append (fun d hd => ?_) (by simp)
    rw [decide_eq_true_eq]
    rintro rfl
    exact h hd
  rw [munch_quote, hrun, if_pos (by simp only [List.length_append, List.length_cons]; omega)]
  simp

theorem length_le_of_whole (h : IsDigits ds) (hpre : ds <+: c :: cs) :
    ds.length ≤ (munch c cs).2 + 1 := by
  obtain ⟨hne, hds⟩ := h
  obtain ⟨d, ds, rfl⟩ := List.exists_cons_of_ne_nil hne
  obtain ⟨rfl, htail⟩ := List.cons_prefix_cons.mp hpre
  rw [munch_digit (hds d (by simp))]
  have hrun := le_run (fun e he => hds e (by simp [he])) htail
  have hnumeral := run_le_numeralRun cs
  simp only [List.length_cons]
  omega

theorem length_le_of_fraction (hd : IsDigits ds) (he : IsDigits es)
    (hpre : ds ++ '.' :: es <+: c :: cs) : (ds ++ '.' :: es).length ≤ (munch c cs).2 + 1 := by
  obtain ⟨hne, hds⟩ := hd
  obtain ⟨d, ds, rfl⟩ := List.exists_cons_of_ne_nil hne
  rw [List.cons_append] at hpre
  obtain ⟨rfl, rest, rfl⟩ := List.cons_prefix_cons.mp hpre
  obtain ⟨hne, hes⟩ := he
  obtain ⟨e, es, rfl⟩ := List.exists_cons_of_ne_nil hne
  simp only [munch_digit (hds d (by simp)), List.append_assoc, List.cons_append]
  rw [numeralRun_fraction (fun x hx => hds x (by simp [hx])) (hes e (by simp))]
  have hrun : (e :: es).length ≤ run Char.isDigit (e :: (es ++ rest)) :=
    le_run hes ⟨rest, rfl⟩
  simp only [List.length_cons, List.length_append] at hrun ⊢
  omega

/-- No word that stands there is longer than what the scanner takes. -/
theorem length_le_of_word (h : IsWord text) (hpre : text <+: c :: cs) :
    text.length ≤ (munch c cs).2 + 1 := by
  obtain ⟨d, ds, rfl, hd, hds⟩ := h
  obtain ⟨rfl, htail⟩ := List.cons_prefix_cons.mp hpre
  rw [munch_letter hd]
  exact Nat.succ_le_succ (le_run (fun e he => isNamePart_iff.mpr (hds e he)) htail)

theorem length_le_of_comment (h : '\n' ∉ body) (hpre : '/' :: '/' :: body <+: c :: cs) :
    ('/' :: body).length ≤ (munch c cs).2 := by
  obtain ⟨rfl, ds, rfl⟩ := List.cons_prefix_cons.mp hpre
  have hmunch : munch '/' ('/' :: body ++ ds) = (.gap, run (· ≠ '\n') ('/' :: body ++ ds)) := rfl
  rw [hmunch]
  refine le_run (fun e he => ?_) ⟨ds, rfl⟩
  rw [decide_eq_true_eq]
  rintro rfl
  simp [h] at he

/-- No lexeme or comment that stands at a character is longer than what `munch` takes. -/
theorem length_le_munch (h : Element text) (hpre : text <+: c :: cs) :
    text.length ≤ (munch c cs).2 + 1 := by
  rcases h with ⟨kind, literal, h⟩ | ⟨body, rfl, h⟩
  · cases h with
    | symbol h => exact length_le_of_symbol h hpre
    | string h => exact Nat.succ_le_succ (length_le_of_string h hpre)
    | whole h => exact length_le_of_whole h hpre
    | fraction hd he => exact length_le_of_fraction hd he hpre
    | keyword hw => exact length_le_of_word hw hpre
    | identifier hw => exact length_le_of_word hw hpre
  · exact Nat.succ_le_succ (length_le_of_comment h hpre)

/-- A lexeme or a comment begins with a mark, a digit or a letter. -/
theorem head_of_element (h : Element text) (hpre : text <+: c :: cs) :
    c ∈ marks ∨ c.isDigit ∨ IsLetter c := by
  rcases h with ⟨kind, literal, h⟩ | ⟨body, rfl, h⟩
  · cases h with
    | symbol h =>
      have hheads : ∀ e ∈ symbols, ∃ d ∈ marks, e.1.head? = some d := by
        simp [symbols, marks]
      obtain ⟨d, hd, hhead⟩ := hheads _ h
      obtain ⟨ds, rfl⟩ := List.head?_eq_some_iff.mp hhead
      obtain ⟨rfl, -⟩ := List.cons_prefix_cons.mp hpre
      exact Or.inl hd
    | string h =>
      obtain ⟨rfl, -⟩ := List.cons_prefix_cons.mp hpre
      exact Or.inl (by decide)
    | whole h =>
      obtain ⟨hne, hds⟩ := h
      obtain ⟨d, ds, rfl⟩ := List.exists_cons_of_ne_nil hne
      obtain ⟨rfl, -⟩ := List.cons_prefix_cons.mp hpre
      exact Or.inr (Or.inl (hds d (by simp)))
    | fraction hd he =>
      obtain ⟨hne, hds⟩ := hd
      obtain ⟨d, ds, rfl⟩ := List.exists_cons_of_ne_nil hne
      obtain ⟨rfl, -⟩ := List.cons_prefix_cons.mp hpre
      exact Or.inr (Or.inl (hds d (by simp)))
    | keyword hw | identifier hw =>
      obtain ⟨d, ds, rfl, hd, -⟩ := hw
      obtain ⟨rfl, -⟩ := List.cons_prefix_cons.mp hpre
      exact Or.inr (Or.inr hd)
  · obtain ⟨rfl, -⟩ := List.cons_prefix_cons.mp hpre
    exact Or.inl (by decide)

end Lox.Lexical
