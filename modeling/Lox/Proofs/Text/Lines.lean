import Mathlib.Data.List.TakeWhile
import Lox.Text.Lines

/-! Two ways to count lines: as `lines` cuts a text, and by line feeds alone. They agree up to a
line as long as nothing but line feeds ends a line before it. -/
namespace Lox.Text

variable {closed : List String} {line cs a rest : List Char} {c : Char}

theorem linesFrom_append (more closed : List String) (line cs : List Char) :
    linesFrom (closed ++ more) line cs = more.reverse ++ linesFrom closed line cs := by
  fun_induction linesFrom closed line cs with
  | case1 closed line => cases line <;> simp [linesFrom]
  | case2 closed line cs ih => simpa [linesFrom] using ih
  | case3 closed line c cs hpair hc ih => simpa [linesFrom, hc] using ih
  | case4 closed line c cs hpair hc ih => simpa [linesFrom, hc] using ih

/-- Lines closed already come first. -/
theorem linesFrom_eq (closed : List String) (line cs : List Char) :
    linesFrom closed line cs = closed.reverse ++ linesFrom [] line cs :=
  linesFrom_append closed [] line cs

/-- A character that ends no line goes on the open one. -/
theorem linesFrom_inner (hc : isBreak c = false) :
    linesFrom closed line (c :: cs) = linesFrom closed (c :: line) cs := by
  have hreturn : c ≠ '\r' := by
    rintro rfl
    exact absurd hc (by decide)
  rw [linesFrom, if_neg (by simp [hc])]
  exact fun _ hr _ => hreturn hr

theorem linesFrom_inner_append (ha : ∀ c ∈ a, isBreak c = false) :
    linesFrom closed line (a ++ rest) = linesFrom closed (a.reverse ++ line) rest := by
  induction a generalizing line with
  | nil => rfl
  | cons c a ih =>
    rw [List.cons_append, linesFrom_inner (ha c (by simp)), ih fun d hd => ha d (by simp [hd])]
    simp

/-- A character that ends a line closes the open one. -/
theorem linesFrom_break (line cs : List Char) (hc : isBreak c = true) :
    ∃ rest, linesFrom [] line (c :: cs) = String.ofList line.reverse :: linesFrom [] [] rest := by
  by_cases hpair : ∃ rest, c = '\r' ∧ cs = '\n' :: rest
  · obtain ⟨rest, rfl, rfl⟩ := hpair
    refine ⟨rest, ?_⟩
    rw [linesFrom, linesFrom_eq]
    rfl
  · refine ⟨cs, ?_⟩
    rw [linesFrom, if_pos hc, linesFrom_eq]
    · rfl
    · rintro rest rfl rfl
      exact hpair ⟨rest, rfl, rfl⟩

/-- The first line is all that comes before the first character that ends one. -/
theorem head?_linesFrom : (linesFrom [] line cs).head? =
    if line = [] ∧ cs = [] then none
    else some (String.ofList (line.reverse ++ cs.takeWhile (!isBreak ·))) := by
  induction cs generalizing line with
  | nil => cases line <;> simp [linesFrom]
  | cons c cs ih =>
    cases hc : isBreak c with
    | false => simp [linesFrom_inner hc, ih, hc]
    | true =>
      obtain ⟨rest, hrest⟩ := linesFrom_break line cs hc
      simp [hrest, hc]

/-- A line in which nothing ends a line, but for a carriage return at its end. -/
def isPlain (l : List Char) : Bool :=
  (if l.getLast? = some '\r' then l.dropLast else l).all (!isBreak ·)

theorem exists_of_isPlain (h : isPlain a = true) :
    ∃ b, (∀ c ∈ b, isBreak c = false) ∧ (a = b ∨ a = b ++ ['\r']) := by
  unfold isPlain at h
  split at h
  · next hlast =>
    refine ⟨a.dropLast, by simpa using h, .inr ?_⟩
    obtain ⟨b, rfl⟩ := List.getLast?_eq_some_iff.mp hlast
    simp
  · exact ⟨a, by simpa using h, .inl rfl⟩

/-- A plain line before a line feed is a line. -/
theorem linesFrom_plain (rest : List Char) (h : isPlain a = true) : ∃ line,
    linesFrom [] [] (a ++ '\n' :: rest) = line :: linesFrom [] [] rest := by
  have hfeed : isBreak '\n' = true := by decide
  obtain ⟨b, hb, hab⟩ := exists_of_isPlain h
  refine ⟨String.ofList b, ?_⟩
  rcases hab with rfl | rfl
  · rw [linesFrom_inner_append hb, linesFrom, if_pos hfeed, linesFrom_eq]
    · simp
    · simp
  · rw [List.append_assoc, linesFrom_inner_append hb, List.singleton_append, linesFrom,
      linesFrom_eq]
    simp

/-- A text without a line feed that is plain has no second line. -/
theorem length_linesFrom_plain (h : isPlain a = true) : (linesFrom [] [] a).length ≤ 1 := by
  have hreturn : isBreak '\r' = true := by decide
  obtain ⟨b, hb, hab⟩ := exists_of_isPlain h
  rcases hab with rfl | rfl
  · have hopen : linesFrom [] [] (a ++ []) = linesFrom [] (a.reverse ++ []) [] :=
      linesFrom_inner_append hb
    rw [List.append_nil] at hopen
    rw [hopen, linesFrom]
    split <;> simp
  · rw [linesFrom_inner_append hb, linesFrom, if_pos hreturn, linesFrom]
    · simp
    · simp

/-- A text is one line as far as line feeds go, or goes on after its first. -/
theorem splitOn_cases (cs : List Char) :
    ('\n' ∉ cs ∧ cs.splitOn '\n' = [cs]) ∨
      ∃ a rest, '\n' ∉ a ∧ cs = a ++ '\n' :: rest ∧
        cs.splitOn '\n' = a :: rest.splitOn '\n' := by
  by_cases h : '\n' ∈ cs
  · obtain ⟨a, rest, rfl, ha⟩ := List.eq_append_cons_of_mem h
    refine .inr ⟨a, rest, ha, rfl, ?_⟩
    have hfirst := List.splitOn_eq_singleton ha
    unfold List.splitOn at hfirst ⊢
    rw [List.splitOnP_append_cons a rest (by simp), hfirst]
    rfl
  · exact .inl ⟨h, List.splitOn_eq_singleton h⟩

/-- A line ends at a line feed at the latest. -/
theorem takeWhile_lineFeed (a rest : List Char) :
    (a ++ '\n' :: rest).takeWhile (!isBreak ·) = a.takeWhile (!isBreak ·) := by
  have hfeed : isBreak '\n' = true := by decide
  rw [List.takeWhile_append]
  split
  · next hall =>
    simp [hfeed, List.takeWhile_prefix _ |>.eq_of_length hall]
  · rfl

/-- As long as the lines before it are plain, a line lies in the one of the same number that ends at
a line feed: it is what comes before the first character that ends a line. -/
theorem getElem?_lines {text : String} {k : Nat} {line : String}
    (hplain : ∀ l ∈ (text.toList.splitOn '\n').take k, isPlain l = true)
    (h : (lines text)[k]? = some line) :
    ∃ l, (text.toList.splitOn '\n')[k]? = some l ∧ line.toList = l.takeWhile (!isBreak ·) := by
  unfold lines at h
  generalize text.toList = cs at hplain h
  induction k generalizing cs with
  | zero =>
    have hfirst : line.toList = cs.takeWhile (!isBreak ·) := by
      rw [← List.head?_eq_getElem?, head?_linesFrom] at h
      split at h
      · cases h
      · obtain rfl := Option.some.inj h
        simp
    rcases splitOn_cases cs with ⟨-, hsplit⟩ | ⟨a, rest, -, rfl, hsplit⟩
    · exact ⟨cs, by simp [hsplit], hfirst⟩
    · exact ⟨a, by simp [hsplit], hfirst.trans (takeWhile_lineFeed a rest)⟩
  | succ k ih =>
    rcases splitOn_cases cs with ⟨-, hsplit⟩ | ⟨a, rest, -, rfl, hsplit⟩
    · -- the only line is plain, so that there is no other
      have hlength := length_linesFrom_plain (hplain cs (by simp [hsplit]))
      have hk := (List.getElem?_eq_some_iff.mp h).1
      omega
    · rw [hsplit] at hplain ⊢
      obtain ⟨first, hlines⟩ := linesFrom_plain rest (hplain a (by simp))
      rw [hlines, List.getElem?_cons_succ] at h
      exact ih rest (fun l hl => hplain l (by simp [hl])) h

/-- In a text in which only line feeds end lines, none of them has such a character in it. -/
theorem not_isBreak_of_mem_splitOn (cs : List Char) (h : ∀ c ∈ cs, isBreak c = true → c = '\n') :
    ∀ l ∈ cs.splitOn '\n', ∀ c ∈ l, isBreak c = false := by
  intro l hl c hc
  have inner {a : List Char} (ha : '\n' ∉ a) (hsub : a ⊆ cs) (hc : c ∈ a) : isBreak c = false := by
    cases hb : isBreak c with
    | false => rfl
    | true => exact absurd (h c (hsub hc) hb ▸ hc) ha
  rcases splitOn_cases cs with ⟨hcs, hsplit⟩ | ⟨a, rest, ha, heq, hsplit⟩
  · obtain rfl : l = cs := by simpa [hsplit] using hl
    exact inner hcs (fun _ hd => hd) hc
  · subst heq
    rw [hsplit] at hl
    rcases List.mem_cons.mp hl with rfl | hl
    · exact inner ha (fun d hd => by simp [hd]) hc
    · exact not_isBreak_of_mem_splitOn rest (fun d hd => h d (by simp [hd])) l hl c hc
termination_by cs.length
decreasing_by simp [heq]; omega

/-- In a text in which only line feeds end lines, the two ways to count agree. -/
theorem getElem?_lines_of_lineFeeds {text : String} {k : Nat} {line : String}
    (hfeeds : ∀ c ∈ text.toList, isBreak c = true → c = '\n') (h : (lines text)[k]? = some line) :
    (text.toList.splitOn '\n')[k]? = some line.toList := by
  have hinner := not_isBreak_of_mem_splitOn text.toList hfeeds
  have hplain : ∀ l ∈ (text.toList.splitOn '\n').take k, isPlain l = true := by
    intro l hl
    have hl := hinner l (List.mem_of_mem_take hl)
    unfold isPlain
    split
    · simpa using fun c hc => hl c (List.dropLast_subset l hc)
    · simpa using hl
  obtain ⟨l, hk, hcut⟩ := getElem?_lines hplain h
  have hwhole : l.takeWhile (!isBreak ·) = l :=
    List.takeWhile_eq_self_iff.mpr fun c hc => by simp [hinner l (List.mem_of_getElem? hk) c hc]
  rw [hk, hcut, hwhole]

end Lox.Text
