import Lox.Proofs.Grammar

/-! Trees with marks for statements that are yet to come. A mark is a statement of a list that no
program has, and stands for any number of statements. -/
namespace Lox

/-- A mark with a number. No tokens are read as one, since `break` is not the end of a text. -/
def Stmt.mark (i : Nat) : Stmt := .breakLoop ⟨.eof, "", .nil, i⟩

/-- The number of a mark. -/
def Stmt.mark? : Stmt → Option Nat
  | .breakLoop keyword => if keyword.kind = .eof then some keyword.line.toNat else none
  | _ => none

@[simp] theorem Stmt.mark?_mark (i : Nat) : (Stmt.mark i).mark? = some i := rfl

section

variable (statements : Nat → List Stmt)

mutual

/-- An expression with statements in place of the marks in it. -/
@[simp] def Expr.fill : Expr → Expr
  | .literal id value => .literal id value
  | .group id inner => .group id inner.fill
  | .unary id op token operand => .unary id op token operand.fill
  | .binary id left op token right => .binary id left.fill op token right.fill
  | .logical id left op token right => .logical id left.fill op token right.fill
  | .reference id name => .reference id name
  | .assign id name value => .assign id name value.fill
  | .call id callee paren arguments => .call id callee.fill paren (Expr.fillAll arguments)
  | .lambda fn => .lambda fn.fill

@[simp] def Expr.fillAll : List Expr → List Expr
  | [] => []
  | e :: es => e.fill :: Expr.fillAll es

@[simp] def Expr.fill? : Option Expr → Option Expr
  | none => none
  | some e => some e.fill

@[simp] def Lambda.fill : Lambda → Lambda
  | .mk id params body => .mk id params (Stmt.fillAll body)

/-- A statement that is no mark, with statements in place of the marks in it. -/
@[simp] def Stmt.fill : Stmt → Stmt
  | .expression value => .expression value.fill
  | .print value => .print value.fill
  | .var name initial => .var name (Expr.fill? initial)
  | .block body => .block (Stmt.fillAll body)
  | .branch keyword condition yes no =>
    .branch keyword condition.fill yes.fill (Stmt.fill? no)
  | .loop keyword condition body => .loop keyword condition.fill body.fill
  | .breakLoop keyword => .breakLoop keyword
  | .function name fn => .function name fn.fill
  | .giveBack keyword value => .giveBack keyword (Expr.fill? value)

/-- Statements with others in place of the marks among them and in them. -/
def Stmt.fillAll : List Stmt → List Stmt
  | [] => []
  | s :: ss =>
    (match s.mark? with
    | some i => statements i
    | none => [s.fill]) ++ Stmt.fillAll ss

@[simp] def Stmt.fill? : Option Stmt → Option Stmt
  | none => none
  | some s => some s.fill

end

end

variable {statements : Nat → List Stmt} {s : Stmt} {ss : List Stmt}

@[simp] theorem Stmt.mark?_fill (s : Stmt) : (s.fill statements).mark? = s.mark? := by
  cases s <;> rfl

theorem Stmt.fillAll_unmarked (h : s.mark? = none) :
    Stmt.fillAll statements (s :: ss) = s.fill statements :: Stmt.fillAll statements ss := by
  simp [Stmt.fillAll, h]

@[simp] theorem Stmt.fillAll_append (ss ts : List Stmt) :
    Stmt.fillAll statements (ss ++ ts) =
      Stmt.fillAll statements ss ++ Stmt.fillAll statements ts := by
  induction ss with
  | nil => rfl
  | cons s ss ih => simp [Stmt.fillAll, ih]

@[simp] theorem Stmt.fillAll_marks (is : List Nat) :
    Stmt.fillAll statements (is.map .mark) = is.flatMap statements := by
  induction is with
  | nil => rfl
  | cons i is ih => simp [Stmt.fillAll, ih]

theorem Expr.length_fillAll (es : List Expr) :
    (Expr.fillAll statements es).length = es.length := by
  induction es with
  | nil => rfl
  | cons e es ih => simp [Expr.fillAll, ih]

/-- The blocks that a counting loop is made of are none of the program. -/
theorem Stmt.fill_counting {keyword : Token} {i : Option Stmt} {c : Option Expr} {id : NodeId}
    {value : Literal} {step : Option Expr} (hi : ∀ t ∈ i, t.mark? = none) (hs : s.mark? = none) :
    (Stmt.counting keyword i (c.getD (.literal id value)) step s).fill statements =
      .counting keyword (Stmt.fill? statements i)
        ((Expr.fill? statements c).getD (.literal id value)) (Expr.fill? statements step)
        (s.fill statements) := by
  have hloop (c : Expr) (s : Stmt) : (Stmt.loop keyword c s).mark? = none := rfl
  have hstep (e : Expr) : (Stmt.expression e).mark? = none := rfl
  cases i <;> cases c <;> cases step <;> simp_all [Stmt.counting, Stmt.fillAll]

namespace Grammar

/-- The tree of a phrase with statements in place of the marks in it. -/
@[simp] def Phrase.fill (statements : Nat → List Stmt) : (p : Phrase) → p.Tree → p.Tree
  | .declarations, ss | .block, ss => Stmt.fillAll statements ss
  | .declaration, s | .binding, s | .statement _, s => s.fill statements
  | .start, s => Stmt.fill? statements s
  | .function, fn => fn.fill statements
  | .parameters, ps | .names, ps => ps
  | .optional, e => Expr.fill? statements e
  | .expression, e | .chain _, e | .operand _, e | .unary, e | .call, e | .primary, e =>
    e.fill statements
  | .arguments, es | .values, es => Expr.fillAll statements es

/-- A phrase that may stand in a list of statements is no mark. -/
def Phrase.Unmarked : (p : Phrase) → p.Tree → Prop
  | .declaration, s | .binding, s | .statement _, s => s.mark? = none
  | .start, i => ∀ s ∈ i, s.mark? = none
  | _, _ => True

variable {nearest : Bool} {p : Phrase} {ts : List Token}

/-- What has no mark when it is filled in had none before. -/
theorem Phrase.unmarked_fill {t : p.Tree} (h : p.Unmarked (p.fill statements t)) :
    p.Unmarked t := by
  cases p with
  | start => cases t <;> simp_all [Unmarked]
  | declaration | binding | statement => simpa [Unmarked] using h
  | _ => trivial

theorem Derives.unmarked {t : p.Tree} (h : Derives nearest p ts t) : p.Unmarked t := by
  induction h with
  | declared _ _ h | plain _ h => exact h
  | breakLoop hk => simp [Phrase.Unmarked, Stmt.mark?, hk]
  | @counting _ _ _ i _ _ _ _ step =>
    cases i <;> cases step <;> rfl
  | startVariable _ _ h => simpa [Phrase.Unmarked] using h
  | startNothing | startExpression => simp [Phrase.Unmarked, Stmt.mark?]
  | _ => trivial

end Grammar

end Lox
