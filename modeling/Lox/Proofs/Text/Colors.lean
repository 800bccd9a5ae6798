import Lox.Proofs.Text.Lines
import Lox.Reporter

/-! Texts with the color sequences of a terminal in them, and what is left of them without. -/
namespace Lox.Text

/-- The characters of the numbers in a color sequence. -/
def isColorCode (c : Char) : Bool := c.isDigit || c = ';'

/-- How many characters belong to the color sequence that a text begins with, if it begins with one:
an escape character and `[`, then numbers and `m`. -/
def colorRun : List Char → Nat
  | '\x1b' :: '[' :: cs =>
    let n := (cs.takeWhile isColorCode).length
    if cs[n]? = some 'm' then n + 3 else 0
  | _ => 0

/-- The characters that are part of no color sequence. -/
def uncoloredFrom : List Char → List Char
  | [] => []
  | c :: cs =>
    match colorRun (c :: cs) with
    | 0 => c :: uncoloredFrom cs
    | n + 1 => uncoloredFrom (cs.drop n)
termination_by cs => cs.length
decreasing_by
  · simp
  · simp only [List.length_drop, List.length_cons]
    omega

/-- A text without its color sequences. -/
def uncolored (text : String) : String := String.ofList (uncoloredFrom text.toList)

/-- In a text without escape characters there are no color sequences. -/
def Colorless (text : String) : Prop := '\x1b' ∉ text.toList

/-- Wherever the colored text stands, the plain one is left of it. -/
def Fades (colored plain : String) : Prop :=
  ∀ rest, uncolored (colored ++ rest) = plain ++ uncolored rest

section Colorless

variable {s t source : String} {cs : List Char}

theorem Colorless.append (hs : Colorless s) (ht : Colorless t) : Colorless (s ++ t) := by
  simpa [Colorless] using ⟨hs, ht⟩

/-- A literal, too, is a list of characters. -/
theorem Colorless.ofList (h : '\x1b' ∉ cs) : Colorless (String.ofList cs) := by
  simpa [Colorless] using h

theorem Colorless.of_subset (h : Colorless t) (hs : s.toList ⊆ t.toList) : Colorless s :=
  fun hmem => h (hs hmem)

theorem colorless_nat (n : Nat) : Colorless (toString n) := by
  intro hmem
  have hdigits : '\x1b' ∈ Nat.toDigits 10 n := by
    simpa [← Nat.toList_repr] using hmem
  exact absurd (Nat.isDigit_of_mem_toDigits (by omega) (by omega) hdigits) (by decide)

theorem colorless_int (n : Int) : Colorless (toString n) := by
  cases n with
  | ofNat n => exact colorless_nat n
  | negSucc n => exact .append (.ofList (by decide)) (colorless_nat (n + 1))

/-- The characters of the lines of a text are its own. -/
theorem colorless_linesFrom {closed : List String} {line : List Char}
    (hclosed : ∀ l ∈ closed, Colorless l) (hline : '\x1b' ∉ line) (hcs : '\x1b' ∉ cs) :
    ∀ l ∈ linesFrom closed line cs, Colorless l := by
  fun_induction linesFrom closed line cs with
  | case1 closed line =>
    split
    · simpa using hclosed
    · simpa [or_imp, forall_and, Colorless, hline] using hclosed
  | case2 closed line cs ih =>
    rw [List.mem_cons, List.mem_cons, not_or, not_or] at hcs
    exact ih (List.forall_mem_cons.mpr ⟨.ofList (by simpa using hline), hclosed⟩) (by simp) hcs.2.2
  | case3 closed line c cs hpair hc ih =>
    rw [List.mem_cons, not_or] at hcs
    exact ih (List.forall_mem_cons.mpr ⟨.ofList (by simpa using hline), hclosed⟩) (by simp) hcs.2
  | case4 closed line c cs hpair hc ih =>
    rw [List.mem_cons, not_or] at hcs
    exact ih hclosed (by simp [hline, hcs.1]) hcs.2

theorem colorless_lines (h : Colorless source) : ∀ l ∈ lines source, Colorless l :=
  colorless_linesFrom (by simp) (by simp) h

end Colorless

section Sequences

variable {c : Char} {codes cs rest : List Char}

theorem colorRun_of_ne (hc : c ≠ '\x1b') : colorRun (c :: cs) = 0 := by
  unfold colorRun
  split
  · next heq => exact absurd (List.cons.inj heq).1 hc
  · rfl

theorem uncoloredFrom_of_ne (hc : c ≠ '\x1b') :
    uncoloredFrom (c :: cs) = c :: uncoloredFrom cs := by
  rw [uncoloredFrom, colorRun_of_ne hc]

/-- A text without escapes is left as it is. -/
theorem uncoloredFrom_append (h : '\x1b' ∉ cs) :
    uncoloredFrom (cs ++ rest) = cs ++ uncoloredFrom rest := by
  induction cs with
  | nil => rfl
  | cons c cs ih =>
    rw [List.mem_cons, not_or] at h
    rw [List.cons_append, uncoloredFrom_of_ne (Ne.symm h.1), ih h.2, List.cons_append]

/-- A color sequence is left out. -/
theorem uncoloredFrom_sequence (h : ∀ c ∈ codes, isColorCode c = true) :
    uncoloredFrom ('\x1b' :: '[' :: (codes ++ 'm' :: rest)) = uncoloredFrom rest := by
  have hcodes : (codes ++ 'm' :: rest).takeWhile isColorCode = codes := by
    rw [List.takeWhile_append_of_pos h]
    simp [isColorCode]
  have hrun : colorRun ('\x1b' :: '[' :: (codes ++ 'm' :: rest)) = codes.length + 3 := by
    simp [colorRun, hcodes]
  have hdrop : ('[' :: (codes ++ 'm' :: rest)).drop (codes.length + 2) = rest := by
    simp [List.drop_append, List.drop_of_length_le]
  rw [uncoloredFrom, hrun]
  exact congrArg uncoloredFrom hdrop

end Sequences

variable {colored plain colored' plain' text : String}

theorem Fades.uncolored (h : Fades colored plain) : uncolored colored = plain := by
  simpa [Text.uncolored, uncoloredFrom] using h ""

theorem fades_colorless (h : Colorless text) : Fades text text := by
  intro rest
  rw [← String.toList_inj]
  simpa [Text.uncolored] using uncoloredFrom_append h

theorem Fades.append (h : Fades colored plain) (h' : Fades colored' plain') :
    Fades (colored ++ colored') (plain ++ plain') := by
  intro rest
  rw [String.append_assoc, h, h', String.append_assoc]

/-- A color sequence fades to nothing. -/
theorem fades_sequence {codes : List Char} (h : ∀ c ∈ codes, isColorCode c = true) :
    Fades ("\x1b[" ++ String.ofList codes ++ "m") "" := by
  intro rest
  rw [← String.toList_inj]
  simpa [Text.uncolored] using uncoloredFrom_sequence h

/-- Bold text fades to the text. -/
theorem fades_bold (color : Option Color) (h : Colorless text) : Fades (bold color text) text := by
  have hcolor : Fades (color.elim "" fun c => "\x1b[" ++ c.code ++ "m") "" := by
    cases color with
    | none => exact fades_colorless (.ofList (by decide))
    | some c => cases c <;> exact fades_sequence (by simp [isColorCode])
  have hstart : Fades "\x1b[1m" "" := @fades_sequence ['1'] (by simp [isColorCode])
  have hend : Fades "\x1b[0m" "" := @fades_sequence ['0'] (by simp [isColorCode])
  simpa [bold] using ((hstart.append hcolor).append (fades_colorless h)).append hend

end Lox.Text
