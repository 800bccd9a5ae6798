import Lox.Proofs.Render.Outline
import Lox.Proofs.Render.Spelling

/-! What rendering makes of a tree, taken apart. -/
namespace Lox

open Render (Outline Closed IsPlain spaced form)

mutual

/-- The expression as a word or a node. -/
def Expr.outline : Expr → Outline
  | .literal _ value => .word (String.ofList (Render.literal value))
  | .group _ inner => .node [.word "group", inner.outline]
  | .unary _ op _ operand => .node [.word op.symbol, operand.outline]
  | .binary _ left op _ right => .node [.word op.symbol, left.outline, right.outline]
  | .logical _ left op _ right => .node [.word op.symbol, left.outline, right.outline]
  | .reference _ name => .word name.lexeme
  | .assign _ name value => .node [.word "=", .word name.lexeme, value.outline]
  | .call _ callee _ arguments =>
    .node (.word "call" :: callee.outline :: Expr.outlineAll arguments)
  | .lambda fn => .node (.word "fun" :: fn.outlines)

def Expr.outlineAll : List Expr → List Outline
  | [] => []
  | e :: es => e.outline :: Expr.outlineAll es

/-- The part that stands for the expression, if it is there. -/
def Expr.outline? : Option Expr → List Outline
  | none => []
  | some e => [e.outline]

/-- The parameters in a node of their own, then the body. -/
def Lambda.outlines : Lambda → List Outline
  | .mk _ params body => .node (params.map (.word ·.lexeme)) :: Stmt.outlineAll body

def Stmt.outline : Stmt → Outline
  | .expression value => .node [.word ";", value.outline]
  | .print value => .node [.word "print", value.outline]
  | .var name initial => .node (.word "var" :: .word name.lexeme :: Expr.outline? initial)
  | .block body => .node (.word "block" :: Stmt.outlineAll body)
  | .branch _ condition yes no =>
    .node (.word "if" :: condition.outline :: yes.outline :: Stmt.outline? no)
  | .loop _ condition body => .node [.word "while", condition.outline, body.outline]
  | .breakLoop _ => .node [.word "break"]
  | .function name fn => .node (.word "fun" :: .word name.lexeme :: fn.outlines)
  | .giveBack _ value => .node (.word "return" :: Expr.outline? value)

def Stmt.outlineAll : List Stmt → List Outline
  | [] => []
  | s :: ss => s.outline :: Stmt.outlineAll ss

def Stmt.outline? : Option Stmt → List Outline
  | none => []
  | some s => [s.outline]

end

/-! The words of the outline show where they end. -/

theorem isPlain_of_isFigure {c : Char} (h : Number.IsFigure c) : IsPlain c := by
  refine ⟨?_, ?_, ?_, ?_⟩ <;>
    · rintro rfl
      simpa using h.bounds

theorem isPlain_of_isLetter {c : Char} (h : Lexical.IsLetter c) : IsPlain c := by
  refine ⟨?_, ?_, ?_, ?_⟩ <;>
    · rintro rfl
      simp [Lexical.IsLetter] at h

theorem Token.Spells.closed {t : Token} (h : t.Spells .identifier) : Closed t.lexeme.toList := by
  obtain ⟨-, ⟨c, cs, hcs, hc, hpart⟩, -⟩ := h.2.isWord
  rw [hcs]
  refine .plain (by simp) (List.forall_mem_cons.mpr ⟨isPlain_of_isLetter hc, fun d hd => ?_⟩)
  rcases hpart d hd with hletter | hdigit
  · exact isPlain_of_isLetter hletter
  · exact isPlain_of_isFigure (Or.inl hdigit)

theorem closed_plain {w : String} (h : w.toList ≠ [] ∧ ∀ c ∈ w.toList, IsPlain c) :
    Closed w.toList := .plain h.1 h.2

/-- The text of a value shows where it ends. -/
theorem Literal.Spelled.closed {value : Literal} (h : value.Spelled) :
    Closed (Render.literal value) := by
  cases value with
  | nil => exact closed_plain (w := "nil") (by simp [IsPlain])
  | bool b =>
    cases b
    · exact closed_plain (w := "false") (by simp [IsPlain])
    · exact closed_plain (w := "true") (by simp [IsPlain])
  | number x =>
    obtain ⟨m, q, hx⟩ := h
    rw [Render.literal, hx, Number.numeral_finite]
    exact .plain (Number.millionths_ne_nil _)
      fun c hc => isPlain_of_isFigure (Number.isFigure_of_mem_millionths hc)
  | string s => exact .quoted h

theorem UnaryOp.closed_symbol (op : UnaryOp) : Closed op.symbol.toList := by
  cases op <;> exact closed_plain (by simp [symbol, IsPlain])

theorem BinaryOp.closed_symbol (op : BinaryOp) : Closed op.symbol.toList := by
  cases op <;> exact closed_plain (by simp [symbol, IsPlain])

theorem LogicalOp.closed_symbol (op : LogicalOp) : Closed op.symbol.toList := by
  cases op <;> exact closed_plain (by simp [symbol, IsPlain])

/-! A node without its empty parts. -/

namespace Render

/-- The outline is clean, and the text is its text. -/
def Depicts (text : List Char) (o : Outline) : Prop := o.Clean ∧ o.text = text

/-- The outlines are clean, and the texts are theirs. -/
def DepictsAll (texts : List (List Char)) (os : List Outline) : Prop :=
  Outline.CleanAll os ∧ Outline.texts os = texts

/-- The outlines are clean, and the text is theirs in a row. There may be none. -/
def IsRow (text : List Char) (os : List Outline) : Prop :=
  Outline.CleanAll os ∧ spaced (Outline.texts os) = text

/-- The parts of a node, each a row, and all their outlines. -/
inductive Parts : List (List Char) → List Outline → Prop
  | nil : Parts [] []
  | cons {text texts os ps} (h : IsRow text os) (hs : Parts texts ps) :
      Parts (text :: texts) (os ++ ps)

variable {head w : String} {text : List Char} {texts : List (List Char)} {o : Outline}
  {os ps : List Outline}

theorem depicts_word (h : Closed w.toList) : Depicts w.toList (.word w) := ⟨h, rfl⟩

theorem depictsAll_nil : DepictsAll [] [] := ⟨trivial, rfl⟩

theorem depictsAll_cons (h : Depicts text o) (hs : DepictsAll texts os) :
    DepictsAll (text :: texts) (o :: os) := ⟨⟨h.1, hs.1⟩, by rw [Outline.texts, h.2, hs.2]⟩

theorem isRow_nil : IsRow [] [] := ⟨trivial, rfl⟩

theorem isRow_single (h : Depicts text o) : IsRow text [o] := ⟨⟨h.1, trivial⟩, h.2⟩

theorem isRow_spaced (h : DepictsAll texts os) : IsRow (spaced texts) os := ⟨h.1, by rw [h.2]⟩

theorem parts_cons (h : Depicts text o) (hs : Parts texts os) : Parts (text :: texts) (o :: os) :=
  .cons (isRow_single h) hs

theorem parts_row (h : IsRow text os) : Parts [text] os := by
  simpa using Parts.cons h .nil

theorem parts_all (h : DepictsAll texts os) : Parts texts os := by
  obtain ⟨hclean, rfl⟩ := h
  induction os with
  | nil => exact .nil
  | cons o os ih => exact parts_cons ⟨hclean.1, rfl⟩ (ih hclean.2)

theorem spaced_ne_nil {v : List Char} {vs : List (List Char)} (h : v ≠ []) :
    spaced (v :: vs) ≠ [] := by
  cases vs <;> simp [spaced, h]

theorem spaced_spaced (v : List Char) (vs ws : List (List Char)) :
    spaced (spaced (v :: vs) :: ws) = spaced (v :: vs ++ ws) := by
  induction vs generalizing v with
  | nil => rfl
  | cons u vs ih =>
    cases ws with
    | nil => simp [spaced]
    | cons w ws =>
      have ih := ih u
      simp only [spaced, List.cons_append, List.append_assoc] at ih ⊢
      rw [ih]

theorem texts_append (os ps : List Outline) :
    Outline.texts (os ++ ps) = Outline.texts os ++ Outline.texts ps := by
  induction os with
  | nil => rfl
  | cons o os ih => rw [List.cons_append, Outline.texts, ih, Outline.texts, List.cons_append]

theorem cleanAll_append (h : Outline.CleanAll os) (hs : Outline.CleanAll ps) :
    Outline.CleanAll (os ++ ps) := by
  induction os with
  | nil => exact hs
  | cons o os ih => exact ⟨h.1, ih h.2⟩

theorem Parts.clean (h : Parts texts os) : Outline.CleanAll os := by
  induction h with
  | nil => trivial
  | cons h _ ih => exact cleanAll_append h.1 ih

/-- Parts that are empty are left out. The others are set in a row. -/
theorem Parts.spaced_filter (h : Parts texts os) (v : List Char) :
    spaced (v :: texts.filter (!·.isEmpty)) = spaced (v :: Outline.texts os) := by
  induction h generalizing v with
  | nil => rfl
  | @cons text texts row os h _ ih =>
    obtain ⟨hclean, rfl⟩ := h
    cases row with
    | nil => simpa [Outline.texts, spaced] using ih v
    | cons o row =>
      obtain ⟨c, cs, hcs, -⟩ := Outline.head hclean.1
      have hne : spaced (Outline.texts (o :: row)) ≠ [] := spaced_ne_nil (by simp [hcs])
      rw [List.filter_cons_of_pos (by simpa using hne), texts_append]
      calc
        _ = v ++ ' ' :: spaced (spaced (Outline.texts (o :: row)) :: texts.filter (!·.isEmpty)) :=
          rfl
        _ = v ++ ' ' :: spaced (spaced (Outline.texts (o :: row)) :: Outline.texts os) := by
          rw [ih]
        _ = v ++ ' ' :: spaced (Outline.texts (o :: row) ++ Outline.texts os) := by
          rw [Outline.texts, spaced_spaced]

/-- A form is the node of its head and its parts. -/
theorem depicts_form (hhead : Closed head.toList) (h : Parts texts os) :
    Depicts (form head texts) (.node (.word head :: os)) := by
  refine ⟨⟨hhead, h.clean⟩, ?_⟩
  rw [form, h.spaced_filter]
  rfl

end Render

open Render

theorem depictsAll_names {names : List Token} (h : ∀ t ∈ names, t.Spells .identifier) :
    DepictsAll (names.map (·.lexeme.toList)) (names.map (.word ·.lexeme)) := by
  induction names with
  | nil => exact depictsAll_nil
  | cons t names ih =>
    rw [List.forall_mem_cons] at h
    exact depictsAll_cons (depicts_word h.1.closed) (ih h.2)

theorem depicts_params {names : List Token} (h : ∀ t ∈ names, t.Spells .identifier) :
    Depicts (params names) (.node (names.map (.word ·.lexeme))) := by
  have hall := depictsAll_names h
  refine ⟨hall.1, ?_⟩
  rw [Outline.text, hall.2]
  rfl

mutual

/-- What an expression is rendered as is the text of its outline. -/
theorem Expr.depicts : (e : Expr) → e.Spelled → Depicts (Render.expr e) e.outline
  | .literal _ value, h => by
    refine ⟨?_, ?_⟩
    all_goals simp [Expr.outline, Outline.Clean, Outline.text, Render.expr, h.closed]
  | .group _ inner, h =>
    depicts_form (closed_plain (by simp [IsPlain])) (parts_cons (inner.depicts h) .nil)
  | .unary _ op _ operand, h =>
    depicts_form op.closed_symbol (parts_cons (operand.depicts h.2) .nil)
  | .binary _ left op _ right, h =>
    depicts_form op.closed_symbol
      (parts_cons (left.depicts h.2.1) (parts_cons (right.depicts h.2.2) .nil))
  | .logical _ left op _ right, h =>
    depicts_form op.closed_symbol
      (parts_cons (left.depicts h.2.1) (parts_cons (right.depicts h.2.2) .nil))
  | .reference _ name, h => depicts_word h.closed
  | .assign _ name value, h =>
    depicts_form (closed_plain (by simp [IsPlain]))
      (parts_cons (depicts_word h.1.closed) (parts_cons (value.depicts h.2) .nil))
  | .call _ callee _ arguments, h =>
    depicts_form (closed_plain (by simp [IsPlain]))
      (parts_cons (callee.depicts h.1) (parts_all (Expr.depictsAll arguments h.2)))
  | .lambda fn, h => depicts_form (closed_plain (by simp [IsPlain])) (fn.parts h)

theorem Expr.depictsAll : (es : List Expr) → Expr.SpelledAll es →
    DepictsAll (Render.exprs es) (Expr.outlineAll es)
  | [], _ => depictsAll_nil
  | e :: es, h => depictsAll_cons (e.depicts h.1) (Expr.depictsAll es h.2)

theorem Expr.isRow? : (e : Option Expr) → Expr.Spelled? e →
    IsRow (Render.expr? e) (Expr.outline? e)
  | none, _ => isRow_nil
  | some e, h => isRow_single (e.depicts h)

theorem Lambda.parts : (fn : Lambda) → fn.Spelled → Parts (Render.lambda fn) fn.outlines
  | .mk _ _ body, h =>
    parts_cons (depicts_params h.1) (parts_row (isRow_spaced (Stmt.depictsAll body h.2)))

/-- What a statement is rendered as is the text of its outline. -/
theorem Stmt.depicts : (s : Stmt) → s.Spelled → Depicts (Render.stmt s) s.outline
  | .expression value, h | .print value, h =>
    depicts_form (closed_plain (by simp [IsPlain])) (parts_cons (value.depicts h) .nil)
  | .var name initial, h =>
    depicts_form (closed_plain (by simp [IsPlain]))
      (parts_cons (depicts_word h.1.closed) (parts_row (Expr.isRow? initial h.2)))
  | .block body, h =>
    depicts_form (closed_plain (by simp [IsPlain]))
      (parts_row (isRow_spaced (Stmt.depictsAll body h)))
  | .branch _ condition yes no, h =>
    depicts_form (closed_plain (by simp [IsPlain])) (parts_cons (condition.depicts h.1)
      (parts_cons (yes.depicts h.2.1) (parts_row (Stmt.isRow? no h.2.2))))
  | .loop _ condition body, h =>
    depicts_form (closed_plain (by simp [IsPlain]))
      (parts_cons (condition.depicts h.1) (parts_cons (body.depicts h.2) .nil))
  | .breakLoop _, _ => depicts_form (closed_plain (by simp [IsPlain])) .nil
  | .function name fn, h =>
    depicts_form (closed_plain (by simp [IsPlain]))
      (parts_cons (depicts_word h.1.closed) (fn.parts h.2))
  | .giveBack _ value, h =>
    depicts_form (closed_plain (by simp [IsPlain])) (parts_row (Expr.isRow? value h))

theorem Stmt.depictsAll : (ss : List Stmt) → Stmt.SpelledAll ss →
    DepictsAll (Render.stmts ss) (Stmt.outlineAll ss)
  | [], _ => depictsAll_nil
  | s :: ss, h => depictsAll_cons (s.depicts h.1) (Stmt.depictsAll ss h.2)

theorem Stmt.isRow? : (s : Option Stmt) → Stmt.Spelled? s →
    IsRow (Render.stmt? s) (Stmt.outline? s)
  | none, _ => isRow_nil
  | some s, h => isRow_single (s.depicts h)

end

end Lox
