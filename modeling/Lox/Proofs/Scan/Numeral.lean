import Lox.Proofs.Scan.Lexemes

/-! The numerals of the lexical grammar are read as numbers. -/
namespace Lox.Number

variable {c : Char} {cs ds es : List Char}

/-- The characters of a numeral. -/
def IsFigure (c : Char) : Prop := c.isDigit ∨ c = '.'

theorem IsFigure.bounds (h : IsFigure c) : 0x2E ≤ c.toNat ∧ c.toNat ≤ 0x39 := by
  rcases h with h | rfl
  · simp only [Char.isDigit, Bool.and_eq_true, decide_eq_true_eq] at h
    have h₁ := UInt32.le_iff_toNat_le.mp h.1
    have h₂ := UInt32.le_iff_toNat_le.mp h.2
    simp only [Char.toNat]
    exact ⟨Nat.le_trans (by decide) h₁, h₂⟩
  · decide

theorem mapM_plain? (h : ∀ c ∈ cs, IsFigure c) : cs.mapM plain? = some cs := by
  induction cs with
  | nil => rfl
  | cons c cs ih =>
    have hc := (h c (by simp)).bounds
    have hplain : plain? c = some c := by rw [plain?, if_pos (by omega)]
    simp [List.mapM_cons, hplain, ih fun d hd => h d (by simp [hd])]

theorem dropWhile_isPadding (h : ∀ c ∈ cs, IsFigure c) : cs.dropWhile isPadding = cs := by
  cases cs with
  | nil => rfl
  | cons c cs =>
    have hc := (h c (by simp)).bounds
    refine List.dropWhile_cons_of_neg ?_
    have hne : c ≠ ' ' := by rintro rfl; simp at hc
    simp only [isPadding, Bool.or_eq_true, Bool.and_eq_true, decide_eq_true_eq, hne, false_or]
    omega

theorem unpad_eq (h : ∀ c ∈ cs, IsFigure c) : unpad cs = cs := by
  rw [unpad, Text.trim, Text.trimEnd, dropWhile_isPadding h,
    dropWhile_isPadding fun c hc => h c (List.mem_reverse.mp hc), List.reverse_reverse]

theorem unmark?_eq (h : ∀ c ∈ cs, IsFigure c) (afterDigit : Bool) :
    unmark? afterDigit cs = some cs := by
  induction cs generalizing afterDigit with
  | nil => rfl
  | cons c cs ih =>
    have hc := (h c (by simp)).bounds
    have hne : c ≠ '_' := by rintro rfl; simp at hc
    simp [unmark?, ih fun d hd => h d (by simp [hd])]

theorem splitSign_eq (h : IsFigure c) : splitSign (c :: cs) = (false, c :: cs) := by
  unfold splitSign
  split
  · next heq => cases heq; simp [IsFigure] at h
  · next heq => cases heq; simp [IsFigure] at h
  · rfl

theorem unsigned?_eq (h : c.isDigit) : unsigned? (c :: cs) = magnitude? (c :: cs) := by
  have hlower : c.toLower = c := by
    have := (IsFigure.bounds (Or.inl h)).2
    refine dif_neg ?_
    rintro ⟨hle, -⟩
    have hle := Nat.le_trans (show 0x41 ≤ _ from UInt32.le_iff_toNat_le.mp hle) this
    omega
  have hne (d : Char) (s : List Char) (hd : d.isDigit = false) :
      String.ofList ((c :: cs).map Char.toLower) ≠ String.ofList (d :: s) := by
    intro he
    have he := String.ofList_injective he
    simp only [List.map_cons, hlower, List.cons.injEq] at he
    rw [he.1, hd] at h
    cases h
  unfold unsigned?
  split
  · next heq => exact absurd heq (hne 'i' ['n', 'f'] rfl)
  · next heq => exact absurd heq (hne 'i' ['n', 'f', 'i', 'n', 'i', 't', 'y'] rfl)
  · next heq => exact absurd heq (hne 'n' ['a', 'n'] rfl)
  · rfl

theorem read?_eq (hc : c.isDigit) (h : ∀ d ∈ c :: cs, IsFigure d) :
    read? (String.ofList (c :: cs)) = (magnitude? (c :: cs)).map (ofMagnitude false) := by
  simp only [read?, String.toList_ofList, mapM_plain? h, unpad_eq h, Option.bind_eq_bind,
    Option.bind_some, unmark?_eq h, splitSign_eq (Or.inl hc), unsigned?_eq hc]

end Lox.Number

namespace Lox.Lexical

open Lox.Number

variable {ds es : List Char}

theorem takeWhile_isDigit (h : ∀ d ∈ ds, d.isDigit) : ds.takeWhile Char.isDigit = ds := by
  have happend : (ds ++ []).takeWhile Char.isDigit = ds ++ [].takeWhile Char.isDigit :=
    List.takeWhile_append_of_pos h
  simpa using happend

theorem dropWhile_isDigit (h : ∀ d ∈ ds, d.isDigit) : ds.dropWhile Char.isDigit = [] := by
  have happend : (ds ++ []).dropWhile Char.isDigit = [].dropWhile Char.isDigit :=
    List.dropWhile_append_of_pos h
  simpa using happend

theorem read?_whole (h : IsDigits ds) : read? (String.ofList ds) = some (decimal ds []) := by
  obtain ⟨hne, hds⟩ := h
  obtain ⟨c, cs, rfl⟩ := List.exists_cons_of_ne_nil hne
  rw [read?_eq (hds c (by simp)) fun d hd => Or.inl (hds d hd)]
  simp [magnitude?, takeWhile_isDigit hds, dropWhile_isDigit hds, exponent?, decimal]

/-- Digits around a point are read as the decimal they write. -/
theorem read?_fraction (hd : IsDigits ds) (he : IsDigits es) :
    read? (String.ofList (ds ++ '.' :: es)) = some (decimal ds es) := by
  obtain ⟨hne, hds⟩ := hd
  obtain ⟨-, hes⟩ := he
  obtain ⟨c, cs, rfl⟩ := List.exists_cons_of_ne_nil hne
  have hfigure : ∀ d ∈ c :: (cs ++ '.' :: es), IsFigure d := by
    intro d hd
    simp only [List.mem_cons, List.mem_append] at hd
    rcases hd with rfl | hd | rfl | hd
    · exact Or.inl (hds d (by simp))
    · exact Or.inl (hds d (by simp [hd]))
    · exact Or.inr rfl
    · exact Or.inl (hes d hd)
  rw [List.cons_append, read?_eq (hds c (by simp)) hfigure]
  have htake : (c :: (cs ++ '.' :: es)).takeWhile Char.isDigit = c :: cs := by
    rw [← List.cons_append, List.takeWhile_append_of_pos hds]
    simp
  have hdrop : (c :: (cs ++ '.' :: es)).dropWhile Char.isDigit = '.' :: es := by
    rw [← List.cons_append, List.dropWhile_append_of_pos hds]
    simp
  simp [magnitude?, htake, hdrop, takeWhile_isDigit hes, dropWhile_isDigit hes, exponent?, decimal]

end Lox.Lexical
