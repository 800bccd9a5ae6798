import Lox.Tree

/-! Identities of the expressions in a tree, and the tree that is left without them. -/
namespace Lox

mutual

/-- The identities in an expression, in the order of reading. -/
def Expr.ids : Expr → List NodeId
  | .literal id _ => [id]
  | .group id inner => inner.ids ++ [id]
  | .unary id _ _ operand => operand.ids ++ [id]
  | .binary id left _ _ right => left.ids ++ (right.ids ++ [id])
  | .logical id left _ _ right => left.ids ++ (right.ids ++ [id])
  | .reference id _ => [id]
  | .assign id _ value => value.ids ++ [id]
  | .call id callee _ arguments => callee.ids ++ (Expr.idsAll arguments ++ [id])
  | .lambda fn => fn.ids

def Expr.idsAll : List Expr → List NodeId
  | [] => []
  | e :: es => e.ids ++ Expr.idsAll es

def Expr.ids? : Option Expr → List NodeId
  | none => []
  | some e => e.ids

def Lambda.ids : Lambda → List NodeId
  | .mk id _ body => Stmt.idsAll body ++ [id]

def Stmt.ids : Stmt → List NodeId
  | .expression value => value.ids
  | .print value => value.ids
  | .var _ initial => Expr.ids? initial
  | .block body => Stmt.idsAll body
  | .branch _ condition yes no => condition.ids ++ (yes.ids ++ Stmt.ids? no)
  | .loop _ condition body => condition.ids ++ body.ids
  | .breakLoop _ => []
  | .function _ fn => fn.ids
  | .giveBack _ value => Expr.ids? value

def Stmt.idsAll : List Stmt → List NodeId
  | [] => []
  | s :: ss => s.ids ++ Stmt.idsAll ss

def Stmt.ids? : Option Stmt → List NodeId
  | none => []
  | some s => s.ids

end

mutual

/-- The expression with every identity struck out. -/
def Expr.bare : Expr → Expr
  | .literal _ value => .literal 0 value
  | .group _ inner => .group 0 inner.bare
  | .unary _ op token operand => .unary 0 op token operand.bare
  | .binary _ left op token right => .binary 0 left.bare op token right.bare
  | .logical _ left op token right => .logical 0 left.bare op token right.bare
  | .reference _ name => .reference 0 name
  | .assign _ name value => .assign 0 name value.bare
  | .call _ callee paren arguments => .call 0 callee.bare paren (Expr.bareAll arguments)
  | .lambda fn => .lambda fn.bare

def Expr.bareAll : List Expr → List Expr
  | [] => []
  | e :: es => e.bare :: Expr.bareAll es

def Expr.bare? : Option Expr → Option Expr
  | none => none
  | some e => some e.bare

def Lambda.bare : Lambda → Lambda
  | .mk _ params body => .mk 0 params (Stmt.bareAll body)

def Stmt.bare : Stmt → Stmt
  | .expression value => .expression value.bare
  | .print value => .print value.bare
  | .var name initial => .var name (Expr.bare? initial)
  | .block body => .block (Stmt.bareAll body)
  | .branch keyword condition yes no =>
    .branch keyword condition.bare yes.bare (Stmt.bare? no)
  | .loop keyword condition body => .loop keyword condition.bare body.bare
  | .breakLoop keyword => .breakLoop keyword
  | .function name fn => .function name fn.bare
  | .giveBack keyword value => .giveBack keyword (Expr.bare? value)

def Stmt.bareAll : List Stmt → List Stmt
  | [] => []
  | s :: ss => s.bare :: Stmt.bareAll ss

def Stmt.bare? : Option Stmt → Option Stmt
  | none => none
  | some s => some s.bare

end

/-- The tree of a `for` is the same up to identities if its parts are. -/
theorem bare_counting {keyword : Token} {i j : Option Stmt} {a b : Expr}
    {step step' : Option Expr} {s t : Stmt} (hi : Stmt.bare? i = Stmt.bare? j)
    (ha : a.bare = b.bare) (ht : Expr.bare? step = Expr.bare? step') (hs : s.bare = t.bare) :
    (Stmt.counting keyword i a step s).bare = (Stmt.counting keyword j b step' t).bare := by
  cases i <;> cases j <;> cases step <;> cases step' <;>
    simp_all [Stmt.counting, Stmt.bare, Stmt.bare?, Expr.bare?, Stmt.bareAll]

theorem idsAll_append (es fs : List Expr) :
    Expr.idsAll (es ++ fs) = Expr.idsAll es ++ Expr.idsAll fs := by
  induction es with
  | nil => rfl
  | cons e es ih => simp [Expr.idsAll, ih]

theorem stmt_idsAll_append (ss ts : List Stmt) :
    Stmt.idsAll (ss ++ ts) = Stmt.idsAll ss ++ Stmt.idsAll ts := by
  induction ss with
  | nil => rfl
  | cons s ss ih => simp [Stmt.idsAll, ih]

theorem bareAll_append (es fs : List Expr) :
    Expr.bareAll (es ++ fs) = Expr.bareAll es ++ Expr.bareAll fs := by
  induction es with
  | nil => rfl
  | cons e es ih => simp [Expr.bareAll, ih]

theorem length_bareAll (es : List Expr) : (Expr.bareAll es).length = es.length := by
  induction es with
  | nil => rfl
  | cons e es ih => simp [Expr.bareAll, ih]

theorem stmt_bareAll_append (ss ts : List Stmt) :
    Stmt.bareAll (ss ++ ts) = Stmt.bareAll ss ++ Stmt.bareAll ts := by
  induction ss with
  | nil => rfl
  | cons s ss ih => simp [Stmt.bareAll, ih]

end Lox
