import Lox.Tree.Render
import Mathlib.Data.List.Basic

/-! Texts of words and parentheses can be taken apart in one way only. -/
namespace Lox.Render

/-- A rendered text taken apart: a word, or what stands between two parentheses. -/
inductive Outline where
  | word (text : String)
  | node (parts : List Outline)

mutual

def Outline.text : Outline → List Char
  | .word text => text.toList
  | .node parts => '(' :: spaced (Outline.texts parts) ++ [')']

def Outline.texts : List Outline → List (List Char)
  | [] => []
  | o :: os => o.text :: Outline.texts os

end

/-- The characters of words without quotes. -/
def IsPlain (c : Char) : Prop := c ≠ ' ' ∧ c ≠ '(' ∧ c ≠ ')' ∧ c ≠ '"'

/-- A word that shows where it ends. -/
inductive Closed : List Char → Prop
  | plain {cs} (hne : cs ≠ []) (h : ∀ c ∈ cs, IsPlain c) : Closed cs
  | quoted {body} (h : '"' ∉ body) : Closed ('"' :: (body ++ ['"']))

mutual

/-- All words of the outline show where they end. -/
def Outline.Clean : Outline → Prop
  | .word text => Closed text.toList
  | .node parts => Outline.CleanAll parts

def Outline.CleanAll : List Outline → Prop
  | [] => True
  | o :: os => o.Clean ∧ Outline.CleanAll os

end

/-- What may follow a part: nothing, a space or the end of a node. -/
def Stops (rest : List Char) : Prop := ∀ c ∈ rest.head?, c = ' ' ∨ c = ')'

variable {v w r r' : List Char} {o p : Outline} {os ps : List Outline}

theorem Closed.ne_nil (h : Closed w) : w ≠ [] := by
  cases h with
  | plain hne => exact hne
  | quoted => simp

/-- No word begins with a parenthesis. -/
theorem Closed.head (h : Closed w) : ∀ c ∈ w.head?, c ≠ '(' ∧ c ≠ ')' := by
  cases h with
  | plain _ h =>
    intro c hc
    have hplain := h c (List.mem_of_mem_head? hc)
    exact ⟨hplain.2.1, hplain.2.2.1⟩
  | quoted => simp

theorem takeWhile_stop {p : Char → Bool} (h : ∀ c ∈ w, p c) (hr : ∀ c ∈ r.head?, p c = false) :
    (w ++ r).takeWhile p = w := by
  rw [List.takeWhile_append_of_pos h]
  cases r with
  | nil => simp
  | cons c r => rw [List.takeWhile_cons_of_neg (by simp [hr c rfl]), List.append_nil]

instance : DecidablePred IsPlain := fun c =>
  inferInstanceAs (Decidable (c ≠ ' ' ∧ c ≠ '(' ∧ c ≠ ')' ∧ c ≠ '"'))

theorem takeWhile_isPlain (h : ∀ c ∈ w, IsPlain c) (hr : Stops r) :
    (w ++ r).takeWhile (fun c => decide (IsPlain c)) = w := by
  refine takeWhile_stop (by simpa using h) fun c hc => ?_
  rcases hr c hc with rfl | rfl <;> decide

theorem takeWhile_quoted (h : '"' ∉ w) (r : List Char) :
    (w ++ '"' :: r).takeWhile (fun c => decide (c ≠ '"')) = w := by
  refine takeWhile_stop (fun c hc => ?_) (by simp)
  rw [decide_eq_true_eq]
  rintro rfl
  exact h hc

/-- A word shows by itself where it ends. -/
theorem Closed.append_inj (hv : Closed v) (hw : Closed w) (hr : Stops r) (hr' : Stops r')
    (h : v ++ r = w ++ r') : v = w ∧ r = r' := by
  suffices v = w from ⟨this, by subst this; exact List.append_cancel_left h⟩
  cases hv with
  | plain hne hv =>
    cases hw with
    | plain _ hw => rw [← takeWhile_isPlain hv hr, h, takeWhile_isPlain hw hr']
    | quoted =>
      obtain ⟨c, cs, rfl⟩ := List.exists_cons_of_ne_nil hne
      obtain ⟨rfl, -⟩ := List.cons.inj h
      exact absurd rfl (hv '"' (by simp)).2.2.2
  | quoted hbody =>
    cases hw with
    | plain hne hw =>
      obtain ⟨c, cs, rfl⟩ := List.exists_cons_of_ne_nil hne
      obtain ⟨rfl, -⟩ := List.cons.inj h
      exact absurd rfl (hw '"' (by simp)).2.2.2
    | quoted hbody' =>
      simp only [List.cons_append, List.append_assoc, List.nil_append, List.cons.injEq,
        true_and] at h
      rw [← takeWhile_quoted hbody r, h, takeWhile_quoted hbody' r']

/-- What follows the first of some parts inside a node that ends before `r`. -/
def behind (os : List Outline) (r : List Char) : List Char :=
  match os with
  | [] => ')' :: r
  | os => ' ' :: spaced (Outline.texts os) ++ ')' :: r

theorem stops_behind (os : List Outline) (r : List Char) : Stops (behind os r) := by
  cases os <;> simp [behind, Stops]

theorem spaced_append (o : Outline) (os : List Outline) (r : List Char) :
    spaced (Outline.texts (o :: os)) ++ ')' :: r = o.text ++ behind os r := by
  cases os <;> simp [Outline.texts, spaced, behind]

theorem Outline.head (h : o.Clean) : ∃ c cs, o.text = c :: cs ∧ c ≠ ')' := by
  cases o with
  | word text =>
    obtain ⟨c, cs, hcs⟩ := List.exists_cons_of_ne_nil (Closed.ne_nil h)
    exact ⟨c, cs, hcs, (Closed.head h c (by simp [hcs])).2⟩
  | node parts => exact ⟨'(', _, rfl, by decide⟩

/-- A word does not begin as a node does. -/
theorem Closed.ne_node {parts : List Outline} (h : Closed w) :
    w ++ r ≠ (Outline.node parts).text ++ r' := by
  obtain ⟨c, cs, rfl⟩ := List.exists_cons_of_ne_nil h.ne_nil
  intro he
  obtain ⟨rfl, -⟩ := List.cons.inj he
  exact (h.head _ rfl).1 rfl

mutual

/-- A text with an outline in front of it has one outline in front of it. -/
theorem Outline.append_inj : (o p : Outline) → {r r' : List Char} → o.Clean → p.Clean → Stops r →
    Stops r' → o.text ++ r = p.text ++ r' → o = p ∧ r = r'
  | .word v, .word w, r, r', hv, hw, hr, hr', h => by
    obtain ⟨hvw, rfl⟩ := Closed.append_inj hv hw hr hr' h
    exact ⟨by rw [String.toList_injective hvw], rfl⟩
  | .word v, .node parts, _, _, hv, _, _, _, h => absurd h (Closed.ne_node hv)
  | .node parts, .word w, _, _, _, hw, _, _, h => absurd h.symm (Closed.ne_node hw)
  | .node os, .node ps, r, r', ho, hp, _, _, h => by
    simp only [Outline.text, List.cons_append, List.append_assoc, List.nil_append,
      List.cons.injEq, true_and] at h
    obtain ⟨rfl, rfl⟩ := Outline.append_inj_all os ps ho hp h
    exact ⟨rfl, rfl⟩

/-- Parts can be told apart up to the parenthesis that closes them. -/
theorem Outline.append_inj_all : (os ps : List Outline) → {r r' : List Char} →
    Outline.CleanAll os → Outline.CleanAll ps →
    spaced (Outline.texts os) ++ ')' :: r = spaced (Outline.texts ps) ++ ')' :: r' →
    os = ps ∧ r = r'
  | [], [], _, _, _, _, h => ⟨rfl, by simpa [Outline.texts, spaced] using h⟩
  | [], p :: ps, _, _, _, hp, h => by
    obtain ⟨c, cs, hcs, hc⟩ := Outline.head hp.1
    rw [spaced_append, hcs] at h
    exact absurd (List.cons.inj h).1.symm hc
  | o :: os, [], _, _, ho, _, h => by
    obtain ⟨c, cs, hcs, hc⟩ := Outline.head ho.1
    rw [spaced_append, hcs] at h
    exact absurd (List.cons.inj h).1 hc
  | o :: os, p :: ps, r, r', ho, hp, h => by
    rw [spaced_append, spaced_append] at h
    obtain ⟨rfl, hbehind⟩ :=
      Outline.append_inj o p ho.1 hp.1 (stops_behind os r) (stops_behind ps r') h
    cases os with
    | nil =>
      cases ps with
      | nil => exact ⟨rfl, by simpa [behind] using hbehind⟩
      | cons => simp [behind] at hbehind
    | cons o' os =>
      cases ps with
      | nil => simp [behind] at hbehind
      | cons p' ps =>
        obtain ⟨hrest, rfl⟩ :=
          Outline.append_inj_all (o' :: os) (p' :: ps) ho.2 hp.2 (List.cons.inj hbehind).2
        exact ⟨by rw [hrest], rfl⟩

end

/-- A clean outline is all in its text. -/
theorem Outline.text_inj (ho : o.Clean) (hp : p.Clean) (h : o.text = p.text) : o = p := by
  have hnil : Stops [] := by simp [Stops]
  exact (Outline.append_inj o p ho hp hnil hnil (by simpa using h)).1

end Lox.Render
