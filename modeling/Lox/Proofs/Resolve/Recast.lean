import Lox.Proofs.Recast
import Lox.Resolve

/-! Resolving a recast tree: the same uses and the same errors, recast. -/
namespace Lox

namespace Resolve

variable (g : Int → Int)

/-- A scope error on another line. -/
def reline (e : ScopeError) : ScopeError := ⟨e.fault, e.token.reline g⟩

/-- A walk with its tokens on other lines and every identity struck out. -/
def Walk.recast (w : Walk) : Walk :=
  ⟨w.scopes, w.located.map fun l => ⟨0, l.access, l.name.reline g, l.address⟩,
    w.errors.map (reline g)⟩

variable {g} {w : Walk}

@[simp] theorem Walk.scopes_recast : (w.recast g).scopes = w.scopes := rfl

theorem complain_recast (fault : ScopeFault) (token : Token) :
    complain fault (token.reline g) (w.recast g) = (complain fault token w).recast g := by
  simp [complain, Walk.recast, reline]

/-- A name is declared alike on another line. -/
theorem declare_recast (name : Token) :
    declare (name.reline g) (w.recast g) = (declare name w).recast g := by
  unfold declare
  rw [Walk.scopes_recast]
  split
  · rfl
  · rw [complain_recast, Token.lexeme_reline]
    split <;> rfl

theorem define_recast (name : Token) :
    define (name.reline g) (w.recast g) = (define name w).recast g := by
  unfold define
  rw [Walk.scopes_recast, Token.lexeme_reline]
  split
  · rfl
  · split <;> rfl

theorem use_recast (id : NodeId) (access : Access) (name : Token) :
    use 0 access (name.reline g) (w.recast g) = (use id access name w).recast g := by
  unfold use
  rw [Walk.scopes_recast, Token.lexeme_reline]
  split
  · rfl
  · simp [Walk.recast]

theorem checkReady_recast (name : Token) :
    checkReady (name.reline g) (w.recast g) = (checkReady name w).recast g := by
  unfold checkReady
  rw [Walk.scopes_recast, Token.lexeme_reline]
  split
  · rfl
  · split
    · exact complain_recast _ _
    · rfl

theorem inScope_recast {walk walk' : Walk → Walk}
    (h : ∀ w, walk' (w.recast g) = (walk w).recast g) :
    inScope walk' (w.recast g) = (inScope walk w).recast g := by
  have hw := h { w with scopes := .empty :: w.scopes }
  simp only [inScope]
  exact congrArg (fun w : Walk => { w with scopes := w.scopes.tail }) hw

theorem parameters_recast (names : List Token) :
    parameters (names.map (·.reline g)) (w.recast g) = (parameters names w).recast g := by
  unfold parameters
  induction names generalizing w with
  | nil => rfl
  | cons name names ih =>
    simp only [List.map_cons, List.foldl_cons, declare_recast, define_recast, ih]

mutual

/-- A walk over a recast tree finds the same, recast. -/
theorem expr_recast : ∀ (e : Expr) (w : Walk), expr (e.recast g) (w.recast g) = (expr e w).recast g
  | .literal _ _, _ => rfl
  | .group _ e, w | .unary _ _ _ e, w => by simp only [Expr.recast, expr, expr_recast e]
  | .binary _ l _ _ r, w | .logical _ l _ _ r, w => by
    simp only [Expr.recast, expr, expr_recast l, expr_recast r]
  | .reference id name, w => by
    simp only [Expr.recast, expr, checkReady_recast, use_recast id]
  | .assign id name e, w => by simp only [Expr.recast, expr, expr_recast e, use_recast id]
  | .call _ e _ es, w => by simp only [Expr.recast, expr, expr_recast e, exprs_recast es]
  | .lambda fn, w => by simp only [Expr.recast, expr, lambda_recast fn]

theorem exprs_recast : ∀ (es : List Expr) (w : Walk),
    exprs (Expr.recastAll g es) (w.recast g) = (exprs es w).recast g
  | [], _ => rfl
  | e :: es, w => by simp only [Expr.recastAll, exprs, expr_recast e, exprs_recast es]

theorem expr?_recast : ∀ (e : Option Expr) (w : Walk),
    expr? (Expr.recast? g e) (w.recast g) = (expr? e w).recast g
  | none, _ => rfl
  | some e, w => by simp only [Expr.recast?, expr?, expr_recast e]

theorem lambda_recast : ∀ (fn : Lambda) (w : Walk),
    lambda (fn.recast g) (w.recast g) = (lambda fn w).recast g
  | .mk _ names body, w => by
    simp only [Lambda.recast, lambda]
    refine inScope_recast fun w => ?_
    rw [parameters_recast, stmts_recast .function body]

/-- The walk over a recast statement is the walk, recast. -/
theorem stmt_recast (context : Context) : ∀ (s : Stmt) (w : Walk),
    stmt context (s.recast g) (w.recast g) = (stmt context s w).recast g
  | .expression e, w | .print e, w => by simp only [Stmt.recast, stmt, expr_recast e]
  | .var _ e, w => by
    simp only [Stmt.recast, stmt, declare_recast, expr?_recast e, define_recast]
  | .block body, w => by
    simp only [Stmt.recast, stmt]
    exact inScope_recast fun w => stmts_recast context body w
  | .branch _ e yes no, w => by
    simp only [Stmt.recast, stmt, expr_recast e, stmt_recast context yes, stmt?_recast context no]
  | .loop _ e body, w => by
    simp only [Stmt.recast, stmt, expr_recast e, stmt_recast { context with inLoop := true } body]
  | .breakLoop keyword, w => by
    simp only [Stmt.recast, stmt, complain_recast]
    split <;> rfl
  | .function _ fn, w => by
    simp only [Stmt.recast, stmt, declare_recast, define_recast, lambda_recast fn]
  | .giveBack keyword e, w => by
    have hw : (if context.inFunction then w.recast g
        else complain .returnOutsideFunction (keyword.reline g) (w.recast g)) =
        (if context.inFunction then w
          else complain .returnOutsideFunction keyword w).recast g := by
      rw [complain_recast]
      split <;> rfl
    simp only [Stmt.recast, stmt, hw, expr?_recast e]

theorem stmts_recast (context : Context) : ∀ (ss : List Stmt) (w : Walk),
    stmts context (Stmt.recastAll g ss) (w.recast g) = (stmts context ss w).recast g
  | [], _ => rfl
  | s :: ss, w => by
    simp only [Stmt.recastAll, stmts, stmt_recast context s, stmts_recast context ss]

theorem stmt?_recast (context : Context) : ∀ (s : Option Stmt) (w : Walk),
    stmt? context (Stmt.recast? g s) (w.recast g) = (stmt? context s w).recast g
  | none, _ => rfl
  | some s, w => by simp only [Stmt.recast?, stmt?, stmt_recast context s]

end

end Resolve

/-- What is wrong with a program is wrong with it on other lines. -/
theorem resolve_recastAll (g : Int → Int) (ss : List Stmt) :
    (resolve (Stmt.recastAll g ss)).errors = (resolve ss).errors.map (Resolve.reline g) := by
  have h : Resolve.stmts .program (Stmt.recastAll g ss) (Resolve.Walk.start.recast g) =
      (Resolve.stmts .program ss .start).recast g := Resolve.stmts_recast .program ss .start
  have hstart : Resolve.Walk.start.recast g = .start := by
    simp [Resolve.Walk.recast, Resolve.Walk.start]
  rw [hstart] at h
  simp [resolve, h, Resolve.Walk.recast]

end Lox
