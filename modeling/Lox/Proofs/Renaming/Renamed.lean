import Lox.Tree

/-!
Renaming local variables: some declarations of a name, and exactly the uses that mean one of them,
are given another name.

A flag goes over the program beside its names. At each place it tells whether the innermost
declaration of the old name there is one of those that are renamed; without any, the name is that of
a global, which is not. Only parameters and `var` declarations within a block or a function are
renamed: the name of a function is text that programs can print.
-/
namespace Lox

section

variable (old new : String)

/-- What is written for a name where the flag is `renamed`. -/
def aliased (renamed : Bool) (name : String) : String :=
  if renamed ∧ name = old then new else name

/-- A name where the flag is `renamed`. -/
def Token.inside (renamed : Bool) (t : Token) : Token :=
  { t with lexeme := aliased old new renamed t.lexeme }

@[simp] theorem Token.lexeme_inside (renamed : Bool) (t : Token) :
    (t.inside old new renamed).lexeme = aliased old new renamed t.lexeme := rfl

/-- The flag after a declaration, which may itself be one of the renamed. -/
def Token.turn (renamed chosen : Bool) (t : Token) : Bool :=
  if t.lexeme = old then chosen else renamed

/-- Parameters of which some are renamed, with the flag before and after them. -/
inductive Token.RenamedAll : Bool → List Token → List Token → Bool → Prop
  | nil {b} : Token.RenamedAll b [] [] b
  | cons {b b'} {name : Token} {names names' : List Token} (chosen : Bool)
      (rest : Token.RenamedAll (name.turn old b chosen) names names' b') :
      Token.RenamedAll b (name :: names) (name.inside old new chosen :: names') b'

mutual

/-- An expression and the same with some local variables renamed. -/
inductive Expr.Renamed : Bool → Expr → Expr → Prop
  | literal {b id value} : Expr.Renamed b (.literal id value) (.literal id value)
  | group {b id e e'} (inner : Expr.Renamed b e e') : Expr.Renamed b (.group id e) (.group id e')
  | unary {b id op token e e'} (operand : Expr.Renamed b e e') :
      Expr.Renamed b (.unary id op token e) (.unary id op token e')
  | binary {b id op token l l' r r'} (left : Expr.Renamed b l l') (right : Expr.Renamed b r r') :
      Expr.Renamed b (.binary id l op token r) (.binary id l' op token r')
  | logical {b id op token l l' r r'} (left : Expr.Renamed b l l') (right : Expr.Renamed b r r') :
      Expr.Renamed b (.logical id l op token r) (.logical id l' op token r')
  | reference {b id} {name : Token} :
      Expr.Renamed b (.reference id name) (.reference id (name.inside old new b))
  | assign {b id e e'} {name : Token} (value : Expr.Renamed b e e') :
      Expr.Renamed b (.assign id name e) (.assign id (name.inside old new b) e')
  | call {b id paren e e' es es'} (callee : Expr.Renamed b e e')
      (arguments : Expr.RenamedAll b es es') :
      Expr.Renamed b (.call id e paren es) (.call id e' paren es')
  | lambda {b fn fn'} (function : Lambda.Renamed b fn fn') :
      Expr.Renamed b (.lambda fn) (.lambda fn')

inductive Expr.RenamedAll : Bool → List Expr → List Expr → Prop
  | nil {b} : Expr.RenamedAll b [] []
  | cons {b e e' es es'} (first : Expr.Renamed b e e') (rest : Expr.RenamedAll b es es') :
      Expr.RenamedAll b (e :: es) (e' :: es')

inductive Expr.Renamed? : Bool → Option Expr → Option Expr → Prop
  | none {b} : Expr.Renamed? b none none
  | some {b e e'} (h : Expr.Renamed b e e') : Expr.Renamed? b (some e) (some e')

/-- Parameters and body share a scope. -/
inductive Lambda.Renamed : Bool → Lambda → Lambda → Prop
  | mk {b b' b'' id names names' body body'} (params : Token.RenamedAll old new b names names' b')
      (statements : Stmt.RenamedAll true b' body body' b'') :
      Lambda.Renamed b (.mk id names body) (.mk id names' body')

/-- A statement, within a block or a function or not, and the same with some local variables
renamed; the flag before and after it. -/
inductive Stmt.Renamed : Bool → Bool → Stmt → Stmt → Bool → Prop
  | expression {nested b e e'} (value : Expr.Renamed b e e') :
      Stmt.Renamed nested b (.expression e) (.expression e') b
  | print {nested b e e'} (value : Expr.Renamed b e e') :
      Stmt.Renamed nested b (.print e) (.print e') b
  | var {nested b i i'} {name : Token} (chosen : Bool) (choice : chosen = true → nested = true)
      (initial : Expr.Renamed? (name.turn old b chosen) i i') :
      Stmt.Renamed nested b (.var name i) (.var (name.inside old new chosen) i')
        (name.turn old b chosen)
  | block {nested b b' ss ss'} (body : Stmt.RenamedAll true b ss ss' b') :
      Stmt.Renamed nested b (.block ss) (.block ss') b
  | branch {nested b keyword e e' s s' no no'} (condition : Expr.Renamed b e e')
      (yes : Stmt.Renamed nested b s s' b) (otherwise : Stmt.Renamed? nested b no no') :
      Stmt.Renamed nested b (.branch keyword e s no) (.branch keyword e' s' no') b
  | loop {nested b keyword e e' s s'} (condition : Expr.Renamed b e e')
      (body : Stmt.Renamed nested b s s' b) :
      Stmt.Renamed nested b (.loop keyword e s) (.loop keyword e' s') b
  | breakLoop {nested b keyword} : Stmt.Renamed nested b (.breakLoop keyword) (.breakLoop keyword) b
  | function {nested b fn fn'} {name : Token}
    (function : Lambda.Renamed (name.turn old b false) fn fn') :
      Stmt.Renamed nested b (.function name fn) (.function name fn') (name.turn old b false)
  | giveBack {nested b keyword e e'} (value : Expr.Renamed? b e e') :
      Stmt.Renamed nested b (.giveBack keyword e) (.giveBack keyword e') b

inductive Stmt.RenamedAll : Bool → Bool → List Stmt → List Stmt → Bool → Prop
  | nil {nested b} : Stmt.RenamedAll nested b [] [] b
  | cons {nested b b' b'' s s' ss ss'} (first : Stmt.Renamed nested b s s' b')
      (rest : Stmt.RenamedAll nested b' ss ss' b'') :
      Stmt.RenamedAll nested b (s :: ss) (s' :: ss') b''

inductive Stmt.Renamed? : Bool → Bool → Option Stmt → Option Stmt → Prop
  | none {nested b} : Stmt.Renamed? nested b none none
  | some {nested b s s'} (h : Stmt.Renamed nested b s s' b) :
    Stmt.Renamed? nested b (some s) (some s')

end

end

mutual

/-- The names that occur in an expression, declared or used. -/
def Expr.names : Expr → List String
  | .literal .. => []
  | .group _ e | .unary _ _ _ e => e.names
  | .binary _ l _ _ r | .logical _ l _ _ r => l.names ++ r.names
  | .reference _ name => [name.lexeme]
  | .assign _ name value => name.lexeme :: value.names
  | .call _ callee _ arguments => callee.names ++ Expr.namesAll arguments
  | .lambda fn => fn.names

def Expr.namesAll : List Expr → List String
  | [] => []
  | e :: es => e.names ++ Expr.namesAll es

def Expr.names? : Option Expr → List String
  | none => []
  | some e => e.names

def Lambda.names : Lambda → List String
  | .mk _ params body => params.map (·.lexeme) ++ Stmt.namesAll body

def Stmt.names : Stmt → List String
  | .expression value | .print value => value.names
  | .var name initial => name.lexeme :: Expr.names? initial
  | .block body => Stmt.namesAll body
  | .branch _ condition yes no => condition.names ++ yes.names ++ Stmt.names? no
  | .loop _ condition body => condition.names ++ body.names
  | .breakLoop _ => []
  | .function name fn => name.lexeme :: fn.names
  | .giveBack _ value => Expr.names? value

def Stmt.namesAll : List Stmt → List String
  | [] => []
  | s :: ss => s.names ++ Stmt.namesAll ss

def Stmt.names? : Option Stmt → List String
  | none => []
  | some s => s.names

end

section

variable (old new : String)

/-- The name with the new name read as the old one. -/
def Token.former (t : Token) : Token :=
  if t.lexeme = new then { t with lexeme := old } else t

variable (known : NodeId → Bool)

mutual

/-- The expression with the new name read as the old one, wherever a local variable is declared or
used. Those uses are known. -/
def Expr.formerly : Expr → Expr
  | .literal id value => .literal id value
  | .group id e => .group id e.formerly
  | .unary id op token e => .unary id op token e.formerly
  | .binary id l op token r => .binary id l.formerly op token r.formerly
  | .logical id l op token r => .logical id l.formerly op token r.formerly
  | .reference id name => .reference id (if known id then name.former old new else name)
  | .assign id name e => .assign id (if known id then name.former old new else name) e.formerly
  | .call id e paren es => .call id e.formerly paren (Expr.formerlyAll es)
  | .lambda fn => .lambda fn.formerly

def Expr.formerlyAll : List Expr → List Expr
  | [] => []
  | e :: es => e.formerly :: Expr.formerlyAll es

def Expr.formerly? : Option Expr → Option Expr
  | none => none
  | some e => some e.formerly

def Lambda.formerly : Lambda → Lambda
  | .mk id names body => .mk id (names.map (·.former old new)) (Stmt.formerlyAll true body)

/-- The same for a statement, within a block or a function or not. -/
def Stmt.formerly (nested : Bool) : Stmt → Stmt
  | .expression e => .expression e.formerly
  | .print e => .print e.formerly
  | .var name e => .var (if nested then name.former old new else name) (Expr.formerly? e)
  | .block body => .block (Stmt.formerlyAll true body)
  | .branch keyword e yes no =>
    .branch keyword e.formerly (yes.formerly nested) (Stmt.formerly? nested no)
  | .loop keyword e body => .loop keyword e.formerly (body.formerly nested)
  | .breakLoop keyword => .breakLoop keyword
  | .function name fn => .function name fn.formerly
  | .giveBack keyword e => .giveBack keyword (Expr.formerly? e)

def Stmt.formerlyAll (nested : Bool) : List Stmt → List Stmt
  | [] => []
  | s :: ss => s.formerly nested :: Stmt.formerlyAll nested ss

def Stmt.formerly? (nested : Bool) : Option Stmt → Option Stmt
  | none => none
  | some s => some (s.formerly nested)

end

end

section

variable {old new : String} {known : NodeId → Bool}

theorem Token.former_of_ne {t : Token} (h : t.lexeme ≠ new) : t.former old new = t := if_neg h

/-- A name that is not the new one is got back from what is written for it. -/
theorem Token.former_inside {t : Token} (h : t.lexeme ≠ new) (renamed : Bool) :
    (t.inside old new renamed).former old new = t := by
  obtain ⟨kind, lexeme, literal, line⟩ := t
  by_cases hr : renamed = true ∧ lexeme = old
  · simp [Token.inside, Token.former, aliased, hr]
  · simp only [Token.inside, aliased, if_neg hr]
    exact Token.former_of_ne h

theorem Token.RenamedAll.former {b c : Bool} {names names' : List Token}
    (h : Token.RenamedAll old new b names names' c) (hnames : ∀ name ∈ names, name.lexeme ≠ new) :
    names'.map (·.former old new) = names := by
  induction h with
  | nil => rfl
  | cons chosen rest ih =>
    obtain ⟨hname, hrest⟩ := List.forall_mem_cons.mp hnames
    rw [List.map_cons, Token.former_inside hname, ih hrest]

mutual

/-- Nothing is read otherwise where the new name does not occur. -/
theorem Expr.formerly_eq_self : ∀ e : Expr, new ∉ e.names → e.formerly old new known = e
  | .literal .., _ => rfl
  | .group _ e, h | .unary _ _ _ e, h => by
    simp only [Expr.formerly, Expr.formerly_eq_self e h]
  | .binary _ l _ _ r, h | .logical _ l _ _ r, h => by
    simp only [Expr.names, List.mem_append, not_or] at h
    simp only [Expr.formerly, Expr.formerly_eq_self l h.1, Expr.formerly_eq_self r h.2]
  | .reference _ name, h => by
    simp only [Expr.names, List.mem_singleton] at h
    simp only [Expr.formerly, Token.former_of_ne (Ne.symm h), ite_self]
  | .assign _ name e, h => by
    simp only [Expr.names, List.mem_cons, not_or] at h
    simp only [Expr.formerly, Token.former_of_ne (Ne.symm h.1), ite_self,
      Expr.formerly_eq_self e h.2]
  | .call _ e _ es, h => by
    simp only [Expr.names, List.mem_append, not_or] at h
    simp only [Expr.formerly, Expr.formerly_eq_self e h.1, Expr.formerlyAll_eq_self es h.2]
  | .lambda fn, h => by simp only [Expr.formerly, Lambda.formerly_eq_self fn h]

theorem Expr.formerlyAll_eq_self : ∀ es : List Expr, new ∉ Expr.namesAll es →
    Expr.formerlyAll old new known es = es
  | [], _ => rfl
  | e :: es, h => by
    simp only [Expr.namesAll, List.mem_append, not_or] at h
    simp only [Expr.formerlyAll, Expr.formerly_eq_self e h.1, Expr.formerlyAll_eq_self es h.2]

theorem Expr.formerly?_eq_self : ∀ e : Option Expr, new ∉ Expr.names? e →
    Expr.formerly? old new known e = e
  | none, _ => rfl
  | some e, h => by simp only [Expr.formerly?, Expr.formerly_eq_self e h]

theorem Lambda.formerly_eq_self : ∀ fn : Lambda, new ∉ fn.names → fn.formerly old new known = fn
  | .mk _ names body, h => by
    simp only [Lambda.names, List.mem_append, List.mem_map, not_or, not_exists, not_and] at h
    have hnames : names.map (·.former old new) = names :=
      (List.map_congr_left fun t ht => Token.former_of_ne (h.1 t ht)).trans (List.map_id' names)
    simp only [Lambda.formerly, hnames, Stmt.formerlyAll_eq_self true body h.2]

/-- A statement that the new name does not occur in is as it was. -/
theorem Stmt.formerly_eq_self (nested : Bool) : ∀ s : Stmt, new ∉ s.names →
    s.formerly old new known nested = s
  | .expression e, h | .print e, h => by simp only [Stmt.formerly, Expr.formerly_eq_self e h]
  | .var name e, h => by
    simp only [Stmt.names, List.mem_cons, not_or] at h
    simp only [Stmt.formerly, Token.former_of_ne (Ne.symm h.1), ite_self,
      Expr.formerly?_eq_self e h.2]
  | .block body, h => by simp only [Stmt.formerly, Stmt.formerlyAll_eq_self true body h]
  | .branch _ e yes no, h => by
    simp only [Stmt.names, List.mem_append, not_or] at h
    simp only [Stmt.formerly, Expr.formerly_eq_self e h.1.1, Stmt.formerly_eq_self nested yes h.1.2,
      Stmt.formerly?_eq_self nested no h.2]
  | .loop _ e body, h => by
    simp only [Stmt.names, List.mem_append, not_or] at h
    simp only [Stmt.formerly, Expr.formerly_eq_self e h.1, Stmt.formerly_eq_self nested body h.2]
  | .breakLoop _, _ => rfl
  | .function name fn, h => by
    simp only [Stmt.names, List.mem_cons, not_or] at h
    simp only [Stmt.formerly, Lambda.formerly_eq_self fn h.2]
  | .giveBack _ e, h => by simp only [Stmt.formerly, Expr.formerly?_eq_self e h]

theorem Stmt.formerlyAll_eq_self (nested : Bool) : ∀ ss : List Stmt, new ∉ Stmt.namesAll ss →
    Stmt.formerlyAll old new known nested ss = ss
  | [], _ => rfl
  | s :: ss, h => by
    simp only [Stmt.namesAll, List.mem_append, not_or] at h
    simp only [Stmt.formerlyAll, Stmt.formerly_eq_self nested s h.1,
      Stmt.formerlyAll_eq_self nested ss h.2]

theorem Stmt.formerly?_eq_self (nested : Bool) : ∀ s : Option Stmt, new ∉ Stmt.names? s →
    Stmt.formerly? old new known nested s = s
  | none, _ => rfl
  | some s, h => by simp only [Stmt.formerly?, Stmt.formerly_eq_self nested s h]

end

end

end Lox
