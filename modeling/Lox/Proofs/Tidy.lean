import Lox.Proofs.Identity

/-! Trees in which declarations stand in lists of statements only, and identities taken from a
range that nothing else uses. -/
namespace Lox

def Stmt.declares : Stmt → Bool
  | .var .. | .function .. => true
  | _ => false

mutual

/-- Declarations in an expression stand in lists of statements only. -/
def Expr.Tidy : Expr → Prop
  | .literal .. | .reference .. => True
  | .group _ inner => inner.Tidy
  | .unary _ _ _ operand => operand.Tidy
  | .binary _ left _ _ right | .logical _ left _ _ right => left.Tidy ∧ right.Tidy
  | .assign _ _ value => value.Tidy
  | .call _ callee _ arguments => callee.Tidy ∧ Expr.TidyAll arguments
  | .lambda fn => fn.Tidy

def Expr.TidyAll : List Expr → Prop
  | [] => True
  | e :: es => e.Tidy ∧ Expr.TidyAll es

def Expr.Tidy? : Option Expr → Prop
  | none => True
  | some e => e.Tidy

def Lambda.Tidy : Lambda → Prop
  | .mk _ _ body => Stmt.TidyAll body

def Stmt.Tidy : Stmt → Prop
  | .expression value | .print value => value.Tidy
  | .var _ initial => Expr.Tidy? initial
  | .block body => Stmt.TidyAll body
  | .branch _ condition yes no =>
    condition.Tidy ∧ (yes.declares = false ∧ yes.Tidy) ∧ Stmt.Tidy? no
  | .loop _ condition body => condition.Tidy ∧ body.declares = false ∧ body.Tidy
  | .breakLoop _ => True
  | .function _ fn => fn.Tidy
  | .giveBack _ value => Expr.Tidy? value

def Stmt.TidyAll : List Stmt → Prop
  | [] => True
  | s :: ss => s.Tidy ∧ Stmt.TidyAll ss

/-- A branch that may be absent, and is no declaration. -/
def Stmt.Tidy? : Option Stmt → Prop
  | none => True
  | some s => s.declares = false ∧ s.Tidy

end

theorem tidyAll_append {es fs : List Expr} :
    Expr.TidyAll (es ++ fs) ↔ Expr.TidyAll es ∧ Expr.TidyAll fs := by
  induction es with
  | nil => simp [Expr.TidyAll]
  | cons e es ih => simp [Expr.TidyAll, ih, and_assoc]

theorem stmt_tidyAll_append {ss ts : List Stmt} :
    Stmt.TidyAll (ss ++ ts) ↔ Stmt.TidyAll ss ∧ Stmt.TidyAll ts := by
  induction ss with
  | nil => simp [Stmt.TidyAll]
  | cons s ss ih => simp [Stmt.TidyAll, ih, and_assoc]

/-- Identities that are pairwise different and come from a range. -/
structure Fresh (lo hi : Nat) (ids : List Nat) : Prop where
  nodup : ids.Nodup
  range : ∀ id ∈ ids, lo ≤ id ∧ id < hi

variable {lo mid hi : Nat} {as bs : List Nat}

theorem Fresh.nil : Fresh lo hi [] := ⟨List.nodup_nil, by simp⟩

theorem Fresh.single : Fresh lo (lo + 1) [lo] := ⟨by simp, by simp⟩

/-- Identities of two ranges that follow one another are distinct. -/
theorem Fresh.append (ha : Fresh lo mid as) (hb : Fresh mid hi bs) (hlo : lo ≤ mid)
    (hhi : mid ≤ hi) : Fresh lo hi (as ++ bs) := by
  refine ⟨List.nodup_append.mpr ⟨ha.nodup, hb.nodup, ?_⟩, ?_⟩
  · intro a hma b hmb
    have := ha.range a hma
    have := hb.range b hmb
    omega
  · intro id hid
    rcases List.mem_append.mp hid with hid | hid
    · have := ha.range id hid
      omega
    · have := hb.range id hid
      omega

theorem Fresh.mono {lo' hi' : Nat} (h : Fresh lo hi as) (hlo : lo' ≤ lo) (hhi : hi ≤ hi') :
    Fresh lo' hi' as :=
  ⟨h.nodup, fun id hid => by have := h.range id hid; omega⟩

theorem Fresh.perm (h : Fresh lo hi as) (hp : as.Perm bs) : Fresh lo hi bs :=
  ⟨hp.nodup_iff.mp h.nodup, fun id hid => h.range id (hp.mem_iff.mpr hid)⟩

end Lox
