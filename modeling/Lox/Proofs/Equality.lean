import Lox.Tree

/-! Syntax trees can be compared, with their identities and lines. -/
namespace Lox

mutual

def Expr.same : Expr → Expr → Bool
  | .literal i v, .literal j w => i == j && v == w
  | .group i e, .group j f => i == j && e.same f
  | .unary i op t e, .unary j op' u f => i == j && op == op' && t == u && e.same f
  | .binary i e op t f, .binary j l op' u r =>
    i == j && e.same l && op == op' && t == u && f.same r
  | .logical i e op t f, .logical j l op' u r =>
    i == j && e.same l && op == op' && t == u && f.same r
  | .reference i t, .reference j u => i == j && t == u
  | .assign i t e, .assign j u f => i == j && t == u && e.same f
  | .call i e t es, .call j f u fs => i == j && e.same f && t == u && Expr.sameAll es fs
  | .lambda f, .lambda g => f.same g
  | _, _ => false

def Expr.sameAll : List Expr → List Expr → Bool
  | [], [] => true
  | e :: es, f :: fs => e.same f && Expr.sameAll es fs
  | _, _ => false

def Expr.same? : Option Expr → Option Expr → Bool
  | none, none => true
  | some e, some f => e.same f
  | _, _ => false

def Lambda.same : Lambda → Lambda → Bool
  | .mk i ps ss, .mk j qs ts => i == j && ps == qs && Stmt.sameAll ss ts

def Stmt.same : Stmt → Stmt → Bool
  | .expression e, .expression f | .print e, .print f => e.same f
  | .var t e, .var u f => t == u && Expr.same? e f
  | .block ss, .block ts => Stmt.sameAll ss ts
  | .branch t c s no, .branch u d s' no' =>
    t == u && c.same d && s.same s' && Stmt.same? no no'
  | .loop t c s, .loop u d s' => t == u && c.same d && s.same s'
  | .breakLoop t, .breakLoop u => t == u
  | .function t f, .function u g => t == u && f.same g
  | .giveBack t e, .giveBack u f => t == u && Expr.same? e f
  | _, _ => false

def Stmt.sameAll : List Stmt → List Stmt → Bool
  | [], [] => true
  | s :: ss, t :: ts => s.same t && Stmt.sameAll ss ts
  | _, _ => false

def Stmt.same? : Option Stmt → Option Stmt → Bool
  | none, none => true
  | some s, some t => s.same t
  | _, _ => false

end

mutual

/-- The comparison goes through every part. -/
theorem Expr.same_iff : (e f : Expr) → (e.same f = true ↔ e = f)
  | .literal _ _, f | .reference _ _, f => by cases f <;> simp [Expr.same]
  | .group _ e, f | .unary _ _ _ e, f | .assign _ _ e, f => by
    cases f <;> simp [Expr.same, Expr.same_iff e, and_assoc]
  | .binary _ l _ _ r, f | .logical _ l _ _ r, f => by
    cases f <;> simp [Expr.same, Expr.same_iff l, Expr.same_iff r, and_assoc]
  | .call _ e _ es, f => by
    cases f <;> simp [Expr.same, Expr.same_iff e, Expr.sameAll_iff es, and_assoc]
  | .lambda fn, f => by cases f <;> simp [Expr.same, Lambda.same_iff fn]

theorem Expr.sameAll_iff : (es fs : List Expr) → (Expr.sameAll es fs = true ↔ es = fs)
  | [], fs => by cases fs <;> simp [Expr.sameAll]
  | e :: es, fs => by cases fs <;> simp [Expr.sameAll, Expr.same_iff e, Expr.sameAll_iff es]

theorem Expr.same?_iff : (e f : Option Expr) → (Expr.same? e f = true ↔ e = f)
  | none, f => by cases f <;> simp [Expr.same?]
  | some e, f => by cases f <;> simp [Expr.same?, Expr.same_iff e]

theorem Lambda.same_iff : (f g : Lambda) → (f.same g = true ↔ f = g)
  | .mk _ _ ss, .mk _ _ _ => by simp [Lambda.same, Stmt.sameAll_iff ss, and_assoc]

theorem Stmt.same_iff : (s t : Stmt) → (s.same t = true ↔ s = t)
  | .expression e, t | .print e, t => by cases t <;> simp [Stmt.same, Expr.same_iff e]
  | .var _ e, t | .giveBack _ e, t => by cases t <;> simp [Stmt.same, Expr.same?_iff e]
  | .block ss, t => by cases t <;> simp [Stmt.same, Stmt.sameAll_iff ss]
  | .branch _ c s no, t => by
    cases t <;> simp [Stmt.same, Expr.same_iff c, Stmt.same_iff s, Stmt.same?_iff no, and_assoc]
  | .loop _ c s, t => by
    cases t <;> simp [Stmt.same, Expr.same_iff c, Stmt.same_iff s, and_assoc]
  | .breakLoop _, t => by cases t <;> simp [Stmt.same]
  | .function _ fn, t => by cases t <;> simp [Stmt.same, Lambda.same_iff fn]

theorem Stmt.sameAll_iff : (ss ts : List Stmt) → (Stmt.sameAll ss ts = true ↔ ss = ts)
  | [], ts => by cases ts <;> simp [Stmt.sameAll]
  | s :: ss, ts => by cases ts <;> simp [Stmt.sameAll, Stmt.same_iff s, Stmt.sameAll_iff ss]

theorem Stmt.same?_iff : (s t : Option Stmt) → (Stmt.same? s t = true ↔ s = t)
  | none, t => by cases t <;> simp [Stmt.same?]
  | some s, t => by cases t <;> simp [Stmt.same?, Stmt.same_iff s]

end

instance : DecidableEq Expr := fun e f => decidable_of_iff _ (Expr.same_iff e f)
instance : DecidableEq Stmt := fun s t => decidable_of_iff _ (Stmt.same_iff s t)

end Lox
