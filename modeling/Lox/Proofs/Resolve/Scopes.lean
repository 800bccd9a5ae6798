import Lox.Resolve
import Lox.Proofs.Tidy

/-! What resolving finds, in terms of the scopes open at each place of a program: the address of
every use, and that nothing there is at fault. -/
namespace Lox.Resolve

variable {name : Token} {Γ : List LocalScope}

/-- The open scopes after a name is entered that is not ready. -/
def declared (name : Token) : List LocalScope → List LocalScope
  | [] => []
  | scope :: outer => scope.put name.lexeme ⟨scope.size, false⟩ :: outer

/-- The open scopes after a name is entered and made ready. -/
def entered (name : Token) : List LocalScope → List LocalScope
  | [] => []
  | scope :: outer => scope.put name.lexeme ⟨scope.size, true⟩ :: outer

/-- The open scopes after some names are entered. -/
def enteredAll (names : List Token) (Γ : List LocalScope) : List LocalScope :=
  names.foldl (fun Γ name => entered name Γ) Γ

/-- The open scopes after a statement, which is no declaration unless it stands in a list. -/
def after (Γ : List LocalScope) : Stmt → List LocalScope
  | .var name _ | .function name _ => entered name Γ
  | _ => Γ

theorem after_of_not_declares {s : Stmt} (h : s.declares = false) : after Γ s = Γ := by
  cases s <;> simp_all [after, Stmt.declares]

/-- A table has the address that the open scopes give a name, if they give it one. -/
def At (table : Resolution) (Γ : List LocalScope) (id : NodeId) (name : Token) : Prop :=
  table.find? id = address? name.lexeme Γ

/-- No name is entered twice in a scope. -/
def New (Γ : List LocalScope) (name : Token) : Prop :=
  ∀ scope ∈ Γ.head?, scope.get? name.lexeme = none

/-- A name that the innermost scope has is ready. -/
def Ready (Γ : List LocalScope) (name : Token) : Prop :=
  ∀ scope ∈ Γ.head?, ∀ binding, scope.get? name.lexeme = some binding → binding.ready = true

/-- Parameters are entered one after the other. -/
def NewAll : List LocalScope → List Token → Prop
  | _, [] => True
  | Γ, name :: names => New Γ name ∧ NewAll (entered name Γ) names

end Resolve

open Resolve

mutual

/-- Every use in an expression has the address of the variable it names, and declarations stand in
lists of statements. -/
def Expr.Placed (table : Resolution) (Γ : List LocalScope) : Expr → Prop
  | .literal .. => True
  | .group _ inner => inner.Placed table Γ
  | .unary _ _ _ operand => operand.Placed table Γ
  | .binary _ left _ _ right | .logical _ left _ _ right =>
    left.Placed table Γ ∧ right.Placed table Γ
  | .reference id name => At table Γ id name
  | .assign id name value => value.Placed table Γ ∧ At table Γ id name
  | .call _ callee _ arguments => callee.Placed table Γ ∧ Expr.PlacedAll table Γ arguments
  | .lambda fn => fn.Placed table Γ

def Expr.PlacedAll (table : Resolution) (Γ : List LocalScope) : List Expr → Prop
  | [] => True
  | e :: es => e.Placed table Γ ∧ Expr.PlacedAll table Γ es

def Expr.Placed? (table : Resolution) (Γ : List LocalScope) : Option Expr → Prop
  | none => True
  | some e => e.Placed table Γ

def Lambda.Placed (table : Resolution) (Γ : List LocalScope) : Lambda → Prop
  | .mk _ names body => Stmt.PlacedAll table (enteredAll names (.empty :: Γ)) body

def Stmt.Placed (table : Resolution) (Γ : List LocalScope) : Stmt → Prop
  | .expression value | .print value => value.Placed table Γ
  | .var name initial => Expr.Placed? table (declared name Γ) initial
  | .block body => Stmt.PlacedAll table (.empty :: Γ) body
  | .branch _ condition yes no =>
    condition.Placed table Γ ∧ (yes.declares = false ∧ yes.Placed table Γ) ∧
      Stmt.Placed? table Γ no
  | .loop _ condition body =>
    condition.Placed table Γ ∧ body.declares = false ∧ body.Placed table Γ
  | .breakLoop _ => True
  | .function name fn => fn.Placed table (entered name Γ)
  | .giveBack _ value => Expr.Placed? table Γ value

/-- Each statement of a list is placed in the scopes that those before it leave. -/
def Stmt.PlacedAll (table : Resolution) (Γ : List LocalScope) : List Stmt → Prop
  | [] => True
  | s :: ss => s.Placed table Γ ∧ Stmt.PlacedAll table (after Γ s) ss

def Stmt.Placed? (table : Resolution) (Γ : List LocalScope) : Option Stmt → Prop
  | none => True
  | some s => s.declares = false ∧ s.Placed table Γ

end

mutual

/-- Nothing in an expression is at fault: no name is entered twice in a scope or read before it is
ready, and jumps stand where there is something to jump out of. -/
def Expr.Faultless (Γ : List LocalScope) : Expr → Prop
  | .literal .. => True
  | .group _ inner => inner.Faultless Γ
  | .unary _ _ _ operand => operand.Faultless Γ
  | .binary _ left _ _ right | .logical _ left _ _ right => left.Faultless Γ ∧ right.Faultless Γ
  | .reference _ name => Ready Γ name
  | .assign _ _ value => value.Faultless Γ
  | .call _ callee _ arguments => callee.Faultless Γ ∧ Expr.FaultlessAll Γ arguments
  | .lambda fn => fn.Faultless Γ

def Expr.FaultlessAll (Γ : List LocalScope) : List Expr → Prop
  | [] => True
  | e :: es => e.Faultless Γ ∧ Expr.FaultlessAll Γ es

def Expr.Faultless? (Γ : List LocalScope) : Option Expr → Prop
  | none => True
  | some e => e.Faultless Γ

def Lambda.Faultless (Γ : List LocalScope) : Lambda → Prop
  | .mk _ names body =>
    NewAll (.empty :: Γ) names ∧
      Stmt.FaultlessAll .function (enteredAll names (.empty :: Γ)) body

def Stmt.Faultless (context : Context) (Γ : List LocalScope) : Stmt → Prop
  | .expression value | .print value => value.Faultless Γ
  | .var name initial => New Γ name ∧ Expr.Faultless? (declared name Γ) initial
  | .block body => Stmt.FaultlessAll context (.empty :: Γ) body
  | .branch _ condition yes no =>
    condition.Faultless Γ ∧ yes.Faultless context Γ ∧ Stmt.Faultless? context Γ no
  | .loop _ condition body =>
    condition.Faultless Γ ∧ body.Faultless { context with inLoop := true } Γ
  | .breakLoop _ => context.inLoop = true
  | .function name fn => New Γ name ∧ fn.Faultless (entered name Γ)
  | .giveBack _ value => context.inFunction = true ∧ Expr.Faultless? Γ value

def Stmt.FaultlessAll (context : Context) (Γ : List LocalScope) : List Stmt → Prop
  | [] => True
  | s :: ss => s.Faultless context Γ ∧ Stmt.FaultlessAll context (after Γ s) ss

def Stmt.Faultless? (context : Context) (Γ : List LocalScope) : Option Stmt → Prop
  | none => True
  | some s => s.Faultless context Γ

end

section Congr

variable {s t : Resolution}

mutual

/-- Only the addresses of its own identities matter to an expression. -/
theorem Expr.Placed.congr : ∀ {e : Expr} {Γ : List LocalScope},
    (∀ id ∈ e.ids, t.find? id = s.find? id) → e.Placed s Γ → e.Placed t Γ
  | .literal .., _, _, h => h
  | .group _ inner, _, ht, h =>
    Expr.Placed.congr (e := inner) (fun id hid => ht id (by simp [Expr.ids, hid])) h
  | .unary _ _ _ operand, _, ht, h =>
    Expr.Placed.congr (e := operand) (fun id hid => ht id (by simp [Expr.ids, hid])) h
  | .binary _ _ _ _ _, _, ht, h =>
    ⟨Expr.Placed.congr (fun id hid => ht id (by simp [Expr.ids, hid])) h.1,
      Expr.Placed.congr (fun id hid => ht id (by simp [Expr.ids, hid])) h.2⟩
  | .logical _ _ _ _ _, _, ht, h =>
    ⟨Expr.Placed.congr (fun id hid => ht id (by simp [Expr.ids, hid])) h.1,
      Expr.Placed.congr (fun id hid => ht id (by simp [Expr.ids, hid])) h.2⟩
  | .reference _ _, _, ht, h => (ht _ (by simp [Expr.ids])).trans h
  | .assign _ _ _, _, ht, h =>
    ⟨Expr.Placed.congr (fun id hid => ht id (by simp [Expr.ids, hid])) h.1,
      (ht _ (by simp [Expr.ids])).trans h.2⟩
  | .call _ _ _ _, _, ht, h =>
    ⟨Expr.Placed.congr (fun id hid => ht id (by simp [Expr.ids, hid])) h.1,
      Expr.PlacedAll.congr (fun id hid => ht id (by simp [Expr.ids, hid])) h.2⟩
  | .lambda _, _, ht, h => Lambda.Placed.congr ht h

theorem Expr.PlacedAll.congr : ∀ {es : List Expr} {Γ : List LocalScope},
    (∀ id ∈ Expr.idsAll es, t.find? id = s.find? id) → Expr.PlacedAll s Γ es → Expr.PlacedAll t Γ es
  | [], _, _, h => h
  | _ :: _, _, ht, h =>
    ⟨Expr.Placed.congr (fun id hid => ht id (by simp [Expr.idsAll, hid])) h.1,
      Expr.PlacedAll.congr (fun id hid => ht id (by simp [Expr.idsAll, hid])) h.2⟩

theorem Expr.Placed?.congr : ∀ {e : Option Expr} {Γ : List LocalScope},
    (∀ id ∈ Expr.ids? e, t.find? id = s.find? id) → Expr.Placed? s Γ e → Expr.Placed? t Γ e
  | none, _, _, h => h
  | some _, _, ht, h => Expr.Placed.congr ht h

theorem Lambda.Placed.congr : ∀ {fn : Lambda} {Γ : List LocalScope},
    (∀ id ∈ fn.ids, t.find? id = s.find? id) → fn.Placed s Γ → fn.Placed t Γ
  | .mk _ _ _, _, ht, h => Stmt.PlacedAll.congr (fun id hid => ht id (by simp [Lambda.ids, hid])) h

/-- Only the addresses of its own identities matter to a statement. -/
theorem Stmt.Placed.congr : ∀ {c : Stmt} {Γ : List LocalScope},
    (∀ id ∈ c.ids, t.find? id = s.find? id) → c.Placed s Γ → c.Placed t Γ
  | .expression _, _, ht, h => Expr.Placed.congr ht h
  | .print _, _, ht, h => Expr.Placed.congr ht h
  | .var _ _, _, ht, h => Expr.Placed?.congr ht h
  | .block _, _, ht, h => Stmt.PlacedAll.congr ht h
  | .branch _ _ _ _, _, ht, h =>
    ⟨Expr.Placed.congr (fun id hid => ht id (by simp [Stmt.ids, hid])) h.1,
      ⟨h.2.1.1, Stmt.Placed.congr (fun id hid => ht id (by simp [Stmt.ids, hid])) h.2.1.2⟩,
      Stmt.Placed?.congr (fun id hid => ht id (by simp [Stmt.ids, hid])) h.2.2⟩
  | .loop _ _ _, _, ht, h =>
    ⟨Expr.Placed.congr (fun id hid => ht id (by simp [Stmt.ids, hid])) h.1, h.2.1,
      Stmt.Placed.congr (fun id hid => ht id (by simp [Stmt.ids, hid])) h.2.2⟩
  | .breakLoop _, _, _, h => h
  | .function _ _, _, ht, h => Lambda.Placed.congr ht h
  | .giveBack _ _, _, ht, h => Expr.Placed?.congr ht h

theorem Stmt.PlacedAll.congr : ∀ {ss : List Stmt} {Γ : List LocalScope},
    (∀ id ∈ Stmt.idsAll ss, t.find? id = s.find? id) → Stmt.PlacedAll s Γ ss → Stmt.PlacedAll t Γ ss
  | [], _, _, h => h
  | _ :: _, _, ht, h =>
    ⟨Stmt.Placed.congr (fun id hid => ht id (by simp [Stmt.idsAll, hid])) h.1,
      Stmt.PlacedAll.congr (fun id hid => ht id (by simp [Stmt.idsAll, hid])) h.2⟩

theorem Stmt.Placed?.congr : ∀ {c : Option Stmt} {Γ : List LocalScope},
    (∀ id ∈ Stmt.ids? c, t.find? id = s.find? id) → Stmt.Placed? s Γ c → Stmt.Placed? t Γ c
  | none, _, _, h => h
  | some _, _, ht, h => ⟨h.1, Stmt.Placed.congr ht h.2⟩

end

end Congr

end Lox
