import Lox.Proofs.Identity
import Lox.Tree.Render

/-! Trees whose tokens are on other lines. The identities are struck out with the lines: neither
says what a program does. -/
namespace Lox

/-- A token on another line. -/
def Token.reline (g : Int → Int) (t : Token) : Token := { t with line := g t.line }

@[simp] theorem Token.kind_reline (g : Int → Int) (t : Token) : (t.reline g).kind = t.kind := rfl

@[simp] theorem Token.lexeme_reline (g : Int → Int) (t : Token) :
    (t.reline g).lexeme = t.lexeme := rfl

@[simp] theorem Token.literal_reline (g : Int → Int) (t : Token) :
    (t.reline g).literal = t.literal := rfl

section

variable (g : Int → Int)

mutual

/-- The expression with its tokens on other lines and every identity struck out. -/
def Expr.recast : Expr → Expr
  | .literal _ value => .literal 0 value
  | .group _ inner => .group 0 inner.recast
  | .unary _ op token operand => .unary 0 op (token.reline g) operand.recast
  | .binary _ left op token right => .binary 0 left.recast op (token.reline g) right.recast
  | .logical _ left op token right => .logical 0 left.recast op (token.reline g) right.recast
  | .reference _ name => .reference 0 (name.reline g)
  | .assign _ name value => .assign 0 (name.reline g) value.recast
  | .call _ callee paren arguments =>
    .call 0 callee.recast (paren.reline g) (Expr.recastAll arguments)
  | .lambda fn => .lambda fn.recast

def Expr.recastAll : List Expr → List Expr
  | [] => []
  | e :: es => e.recast :: Expr.recastAll es

def Expr.recast? : Option Expr → Option Expr
  | none => none
  | some e => some e.recast

def Lambda.recast : Lambda → Lambda
  | .mk _ params body => .mk 0 (params.map (·.reline g)) (Stmt.recastAll body)

def Stmt.recast : Stmt → Stmt
  | .expression value => .expression value.recast
  | .print value => .print value.recast
  | .var name initial => .var (name.reline g) (Expr.recast? initial)
  | .block body => .block (Stmt.recastAll body)
  | .branch keyword condition yes no =>
    .branch (keyword.reline g) condition.recast yes.recast (Stmt.recast? no)
  | .loop keyword condition body => .loop (keyword.reline g) condition.recast body.recast
  | .breakLoop keyword => .breakLoop (keyword.reline g)
  | .function name fn => .function (name.reline g) fn.recast
  | .giveBack keyword value => .giveBack (keyword.reline g) (Expr.recast? value)

def Stmt.recastAll : List Stmt → List Stmt
  | [] => []
  | s :: ss => s.recast :: Stmt.recastAll ss

def Stmt.recast? : Option Stmt → Option Stmt
  | none => none
  | some s => some s.recast

end

variable {g}

theorem Stmt.recastAll_append (ss ts : List Stmt) :
    Stmt.recastAll g (ss ++ ts) = Stmt.recastAll g ss ++ Stmt.recastAll g ts := by
  induction ss with
  | nil => rfl
  | cons s ss ih => simp [Stmt.recastAll, ih]

mutual

/-- Identities are of no account in a recast. -/
theorem Expr.recast_bare : ∀ e : Expr, e.bare.recast g = e.recast g
  | .literal _ _ | .reference _ _ => rfl
  | .group _ e | .unary _ _ _ e | .assign _ _ e => by
    simp only [Expr.bare, Expr.recast, Expr.recast_bare e]
  | .binary _ l _ _ r | .logical _ l _ _ r => by
    simp only [Expr.bare, Expr.recast, Expr.recast_bare l, Expr.recast_bare r]
  | .call _ e _ es => by
    simp only [Expr.bare, Expr.recast, Expr.recast_bare e, Expr.recastAll_bare es]
  | .lambda fn => by simp only [Expr.bare, Expr.recast, Lambda.recast_bare fn]

theorem Expr.recastAll_bare : ∀ es : List Expr, Expr.recastAll g (Expr.bareAll es) =
    Expr.recastAll g es
  | [] => rfl
  | e :: es => by
    simp only [Expr.bareAll, Expr.recastAll, Expr.recast_bare e, Expr.recastAll_bare es]

theorem Expr.recast?_bare : ∀ e : Option Expr, Expr.recast? g (Expr.bare? e) = Expr.recast? g e
  | none => rfl
  | some e => by simp only [Expr.bare?, Expr.recast?, Expr.recast_bare e]

theorem Lambda.recast_bare : ∀ fn : Lambda, fn.bare.recast g = fn.recast g
  | .mk _ _ body => by simp only [Lambda.bare, Lambda.recast, Stmt.recastAll_bare body]

theorem Stmt.recast_bare : ∀ s : Stmt, s.bare.recast g = s.recast g
  | .expression e | .print e => by simp only [Stmt.bare, Stmt.recast, Expr.recast_bare e]
  | .var _ e | .giveBack _ e => by simp only [Stmt.bare, Stmt.recast, Expr.recast?_bare e]
  | .block body => by simp only [Stmt.bare, Stmt.recast, Stmt.recastAll_bare body]
  | .branch _ e yes no => by
    simp only [Stmt.bare, Stmt.recast, Expr.recast_bare e, Stmt.recast_bare yes,
      Stmt.recast?_bare no]
  | .loop _ e body => by
    simp only [Stmt.bare, Stmt.recast, Expr.recast_bare e, Stmt.recast_bare body]
  | .breakLoop _ => rfl
  | .function _ fn => by simp only [Stmt.bare, Stmt.recast, Lambda.recast_bare fn]

theorem Stmt.recastAll_bare : ∀ ss : List Stmt, Stmt.recastAll g (Stmt.bareAll ss) =
    Stmt.recastAll g ss
  | [] => rfl
  | s :: ss => by
    simp only [Stmt.bareAll, Stmt.recastAll, Stmt.recast_bare s, Stmt.recastAll_bare ss]

theorem Stmt.recast?_bare : ∀ s : Option Stmt, Stmt.recast? g (Stmt.bare? s) = Stmt.recast? g s
  | none => rfl
  | some s => by simp only [Stmt.bare?, Stmt.recast?, Stmt.recast_bare s]

end

/-- Programs that differ in identities only are recast alike. -/
theorem Stmt.recastAll_congr {p q : List Stmt} (h : Stmt.bareAll p = Stmt.bareAll q) :
    Stmt.recastAll g p = Stmt.recastAll g q := by
  rw [← Stmt.recastAll_bare p, h, Stmt.recastAll_bare]

variable {f : Int → Int}

theorem Token.reline_reline (t : Token) : (t.reline f).reline g = t.reline (g ∘ f) := rfl

mutual

/-- Moving lines twice is moving them by both moves. -/
theorem Expr.recast_recast : ∀ e : Expr, (e.recast f).recast g = e.recast (g ∘ f)
  | .literal _ _ | .reference _ _ => rfl
  | .group _ e | .unary _ _ _ e | .assign _ _ e => by
    simp only [Expr.recast, Token.reline_reline, Expr.recast_recast e]
  | .binary _ l _ _ r | .logical _ l _ _ r => by
    simp only [Expr.recast, Token.reline_reline, Expr.recast_recast l, Expr.recast_recast r]
  | .call _ e _ es => by
    simp only [Expr.recast, Token.reline_reline, Expr.recast_recast e, Expr.recastAll_recastAll es]
  | .lambda fn => by simp only [Expr.recast, Lambda.recast_recast fn]

theorem Expr.recastAll_recastAll : ∀ es : List Expr,
    Expr.recastAll g (Expr.recastAll f es) = Expr.recastAll (g ∘ f) es
  | [] => rfl
  | e :: es => by simp only [Expr.recastAll, Expr.recast_recast e, Expr.recastAll_recastAll es]

theorem Expr.recast?_recast? : ∀ e : Option Expr,
    Expr.recast? g (Expr.recast? f e) = Expr.recast? (g ∘ f) e
  | none => rfl
  | some e => by simp only [Expr.recast?, Expr.recast_recast e]

theorem Lambda.recast_recast : ∀ fn : Lambda, (fn.recast f).recast g = fn.recast (g ∘ f)
  | .mk _ params body => by
    simp only [Lambda.recast, Stmt.recastAll_recastAll body, List.map_map, Function.comp_def,
      Token.reline_reline]

theorem Stmt.recast_recast : ∀ s : Stmt, (s.recast f).recast g = s.recast (g ∘ f)
  | .expression e | .print e => by simp only [Stmt.recast, Expr.recast_recast e]
  | .var _ e | .giveBack _ e => by
    simp only [Stmt.recast, Token.reline_reline, Expr.recast?_recast? e]
  | .block body => by simp only [Stmt.recast, Stmt.recastAll_recastAll body]
  | .branch _ e yes no => by
    simp only [Stmt.recast, Token.reline_reline, Expr.recast_recast e, Stmt.recast_recast yes,
      Stmt.recast?_recast? no]
  | .loop _ e body => by
    simp only [Stmt.recast, Token.reline_reline, Expr.recast_recast e, Stmt.recast_recast body]
  | .breakLoop _ => rfl
  | .function _ fn => by simp only [Stmt.recast, Token.reline_reline, Lambda.recast_recast fn]

theorem Stmt.recastAll_recastAll : ∀ ss : List Stmt,
    Stmt.recastAll g (Stmt.recastAll f ss) = Stmt.recastAll (g ∘ f) ss
  | [] => rfl
  | s :: ss => by simp only [Stmt.recastAll, Stmt.recast_recast s, Stmt.recastAll_recastAll ss]

theorem Stmt.recast?_recast? : ∀ s : Option Stmt,
    Stmt.recast? g (Stmt.recast? f s) = Stmt.recast? (g ∘ f) s
  | none => rfl
  | some s => by simp only [Stmt.recast?, Stmt.recast_recast s]

end

end

namespace Render

variable {g : Int → Int}

theorem params_reline (names : List Token) : params (names.map (·.reline g)) = params names := by
  simp [params, Function.comp_def]

mutual

theorem expr_recast : ∀ e : Expr, expr (e.recast g) = expr e
  | .literal _ _ | .reference _ _ => rfl
  | .group _ e | .unary _ _ _ e | .assign _ _ e => by
    simp only [Expr.recast, expr, Token.lexeme_reline, expr_recast e]
  | .binary _ l _ _ r | .logical _ l _ _ r => by
    simp only [Expr.recast, expr, expr_recast l, expr_recast r]
  | .call _ e _ es => by simp only [Expr.recast, expr, expr_recast e, exprs_recast es]
  | .lambda fn => by simp only [Expr.recast, expr, lambda_recast fn]

theorem exprs_recast : ∀ es : List Expr, exprs (Expr.recastAll g es) = exprs es
  | [] => rfl
  | e :: es => by simp only [Expr.recastAll, exprs, expr_recast e, exprs_recast es]

theorem expr?_recast : ∀ e : Option Expr, expr? (Expr.recast? g e) = expr? e
  | none => rfl
  | some e => by simp only [Expr.recast?, expr?, expr_recast e]

theorem lambda_recast : ∀ fn : Lambda, lambda (fn.recast g) = lambda fn
  | .mk _ names body => by
    simp only [Lambda.recast, lambda, params_reline, stmts_recast body]

theorem stmt_recast : ∀ s : Stmt, stmt (s.recast g) = stmt s
  | .expression e | .print e => by simp only [Stmt.recast, stmt, expr_recast e]
  | .var _ e | .giveBack _ e => by
    simp only [Stmt.recast, stmt, Token.lexeme_reline, expr?_recast e]
  | .block body => by simp only [Stmt.recast, stmt, stmts_recast body]
  | .branch _ e yes no => by
    simp only [Stmt.recast, stmt, expr_recast e, stmt_recast yes, stmt?_recast no]
  | .loop _ e body => by simp only [Stmt.recast, stmt, expr_recast e, stmt_recast body]
  | .breakLoop _ => rfl
  | .function _ fn => by simp only [Stmt.recast, stmt, Token.lexeme_reline, lambda_recast fn]

theorem stmts_recast : ∀ ss : List Stmt, stmts (Stmt.recastAll g ss) = stmts ss
  | [] => rfl
  | s :: ss => by simp only [Stmt.recastAll, stmts, stmt_recast s, stmts_recast ss]

theorem stmt?_recast : ∀ s : Option Stmt, stmt? (Stmt.recast? g s) = stmt? s
  | none => rfl
  | some s => by simp only [Stmt.recast?, stmt?, stmt_recast s]

end

end Render

/-- A program is rendered the same wherever its tokens stand. -/
theorem Stmt.render_recastAll (g : Int → Int) (ss : List Stmt) :
    (Stmt.recastAll g ss).map Stmt.render = ss.map Stmt.render := by
  induction ss with
  | nil => rfl
  | cons s ss ih => simp [Stmt.recastAll, Stmt.render, Render.stmt_recast, ih]

end Lox
