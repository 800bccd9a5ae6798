import Lox.Proofs.Identity
import Lox.Resolve

/-! The places of a program: every expression, declared name and jump in it, each with what encloses
it. The rules of scope are about places, and go by what is around them. -/
namespace Lox

/-- What encloses a place, one step outward. A list of statements comes with those of it before the
one that is left. -/
inductive Enclosure where
  | block (before : List Stmt)
  | body (params : List Token) (before : List Stmt)
  | loop
  | initial (name : Token)
  | function (name : Token)

/-- All that is around a place, innermost first. -/
abbrev Surroundings := List Enclosure

/-- What stands at a place. -/
inductive Node where
  | use (id : NodeId) (access : Access) (name : Token)
  | other (id : NodeId)
  | declared (name : Token)
  | breakLoop (keyword : Token)
  | giveBack (keyword : Token)

structure Place where
  around : Surroundings
  node : Node

/-- The identity of the expression at a place, if there is one. -/
def Node.id? : Node → Option NodeId
  | use id _ _ | other id => some id
  | declared _ | breakLoop _ | giveBack _ => none

section

variable {id : NodeId} {access : Access} {name : Token}

@[simp] theorem Node.id?_use : (use id access name).id? = some id := rfl
@[simp] theorem Node.id?_other : (other id).id? = some id := rfl
@[simp] theorem Node.id?_declared : (declared name).id? = none := rfl
@[simp] theorem Node.id?_breakLoop : (breakLoop name).id? = none := rfl
@[simp] theorem Node.id?_giveBack : (giveBack name).id? = none := rfl

end

/-- The name a statement declares in the scope it stands in. -/
def Stmt.declaredName? : Stmt → Option Token
  | .var name _ | .function name _ => some name
  | _ => none

/-- The places of parameters, of which those `before` are declared already. -/
def paramPlaces (around : Surroundings) (before : List Token) : List Token → List Place
  | [] => []
  | name :: names =>
    ⟨.body before [] :: around, .declared name⟩ :: paramPlaces around (before ++ [name]) names

mutual

/-- The places of an expression, in the order of reading. -/
def Expr.places (around : Surroundings) : Expr → List Place
  | .literal id _ => [⟨around, .other id⟩]
  | .group id inner => inner.places around ++ [⟨around, .other id⟩]
  | .unary id _ _ operand => operand.places around ++ [⟨around, .other id⟩]
  | .binary id left _ _ right | .logical id left _ _ right =>
    left.places around ++ (right.places around ++ [⟨around, .other id⟩])
  | .reference id name => [⟨around, .use id .read name⟩]
  | .assign id name value => value.places around ++ [⟨around, .use id .write name⟩]
  | .call id callee _ arguments =>
    callee.places around ++ (Expr.placesAll around arguments ++ [⟨around, .other id⟩])
  | .lambda fn => fn.places around

def Expr.placesAll (around : Surroundings) : List Expr → List Place
  | [] => []
  | e :: es => e.places around ++ Expr.placesAll around es

def Expr.places? (around : Surroundings) : Option Expr → List Place
  | none => []
  | some e => e.places around

def Lambda.places (around : Surroundings) : Lambda → List Place
  | .mk id params body =>
    paramPlaces around [] params ++
      (Stmt.placesAll (fun before => .body params before :: around) [] body ++
        [⟨around, .other id⟩])

def Stmt.places (around : Surroundings) : Stmt → List Place
  | .expression value | .print value => value.places around
  | .var name initial => ⟨around, .declared name⟩ :: Expr.places? (.initial name :: around) initial
  | .block body => Stmt.placesAll (fun before => .block before :: around) [] body
  | .branch _ condition yes no =>
    condition.places around ++ (yes.places around ++ Stmt.places? around no)
  | .loop _ condition body => condition.places around ++ body.places (.loop :: around)
  | .breakLoop keyword => [⟨around, .breakLoop keyword⟩]
  | .function name fn => ⟨around, .declared name⟩ :: fn.places (.function name :: around)
  | .giveBack keyword value => ⟨around, .giveBack keyword⟩ :: Expr.places? around value

/-- The places of statements that others come `before` in the same list, with what is around each
given by those before it. -/
def Stmt.placesAll (within : List Stmt → Surroundings) (before : List Stmt) :
    List Stmt → List Place
  | [] => []
  | s :: ss => s.places (within before) ++ Stmt.placesAll within (before ++ [s]) ss

def Stmt.places? (around : Surroundings) : Option Stmt → List Place
  | none => []
  | some s => s.places around

end

/-- The places of a program. Nothing is around its statements. -/
def places (program : List Stmt) : List Place := Stmt.placesAll (fun _ => []) [] program

namespace Surroundings

/-- The local scopes around a place, innermost first: of each the names it declares at the place or
before, in order. A declaration counts for its own initial value, and for its own function. -/
def scopes : Surroundings → List (List String)
  | [] => []
  | .block before :: outer =>
    (before.filterMap Stmt.declaredName?).map (·.lexeme) :: scopes outer
  | .body params before :: outer =>
    (params ++ before.filterMap Stmt.declaredName?).map (·.lexeme) :: scopes outer
  | .loop :: outer => scopes outer
  | .initial name :: outer | .function name :: outer =>
    match scopes outer with
    | [] => []
    | scope :: more => (scope ++ [name.lexeme]) :: more

def inFunction : Surroundings → Bool
  | [] => false
  | .body .. :: _ => true
  | _ :: outer => inFunction outer

/-- Whether a place is in the body of a loop within the same function. -/
def inLoop : Surroundings → Bool
  | [] | .body .. :: _ => false
  | .loop :: _ => true
  | _ :: outer => inLoop outer

/-- Whether a place is in the initial value of a local variable of a name, and in no function
within that. -/
def initializes (name : String) : Surroundings → Bool
  | [] | .body .. :: _ => false
  | .initial own :: outer =>
    own.lexeme = name && !(scopes outer).isEmpty || initializes name outer
  | _ :: outer => initializes name outer

end Surroundings

/-- The rule of scope that a place violates. -/
def Place.violation? (p : Place) : Option ScopeError :=
  match p.node with
  | .breakLoop keyword => if p.around.inLoop then none else some ⟨.breakOutsideLoop, keyword⟩
  | .giveBack keyword =>
    if p.around.inFunction then none else some ⟨.returnOutsideFunction, keyword⟩
  | .declared name =>
    if (p.around.scopes.headD []).contains name.lexeme then some ⟨.redeclared, name⟩ else none
  | .use _ .read name =>
    if p.around.initializes name.lexeme then some ⟨.ownInitializer, name⟩ else none
  | .use _ .write _ | .other _ => none

/-- The variable that a name means, if it is local: that of the innermost scope which declares the
name. Its slot is the number of declarations before it there. -/
def Denotes (scopes : List (List String)) (name : String) (address : Address) : Prop :=
  ∃ inner scope outer before after, scopes = inner ++ scope :: outer ∧
    (∀ other ∈ inner, name ∉ other) ∧ scope = before ++ name :: after ∧
    address = ⟨inner.length, before.length⟩

section Ids

theorem filterMap_id?_paramPlaces (around : Surroundings) (before names : List Token) :
    (paramPlaces around before names).filterMap (·.node.id?) = [] := by
  induction names generalizing before with
  | nil => rfl
  | cons name names ih => exact ih (before ++ [name])

mutual

/-- Every expression has one place. -/
theorem Expr.filterMap_places : ∀ (e : Expr) (around : Surroundings),
    (e.places around).filterMap (·.node.id?) = e.ids
  | .literal .., _ | .reference .., _ => rfl
  | .group _ inner, around => by
    simp [Expr.places, Expr.ids, inner.filterMap_places around]
  | .unary _ _ _ operand, around => by
    simp [Expr.places, Expr.ids, operand.filterMap_places around]
  | .binary _ left _ _ right, around => by
    simp [Expr.places, Expr.ids, left.filterMap_places around,
      right.filterMap_places around]
  | .logical _ left _ _ right, around => by
    simp [Expr.places, Expr.ids, left.filterMap_places around,
      right.filterMap_places around]
  | .assign _ _ value, around => by
    simp [Expr.places, Expr.ids, value.filterMap_places around]
  | .call _ callee _ arguments, around => by
    simp [Expr.places, Expr.ids, callee.filterMap_places around,
      Expr.filterMap_placesAll arguments around]
  | .lambda fn, around => fn.filterMap_places around

theorem Expr.filterMap_placesAll : ∀ (es : List Expr) (around : Surroundings),
    (Expr.placesAll around es).filterMap (·.node.id?) = Expr.idsAll es
  | [], _ => rfl
  | e :: es, around => by
    simp [Expr.placesAll, Expr.idsAll, e.filterMap_places around,
      Expr.filterMap_placesAll es around]

theorem Expr.filterMap_places? : ∀ (e : Option Expr) (around : Surroundings),
    (Expr.places? around e).filterMap (·.node.id?) = Expr.ids? e
  | none, _ => rfl
  | some e, around => e.filterMap_places around

theorem Lambda.filterMap_places : ∀ (fn : Lambda) (around : Surroundings),
    (fn.places around).filterMap (·.node.id?) = fn.ids
  | .mk _ params body, around => by
    simp [Lambda.places, Lambda.ids, filterMap_id?_paramPlaces,
      Stmt.filterMap_placesAll body]

/-- The identities of a statement are those of its places, in order. -/
theorem Stmt.filterMap_places : ∀ (s : Stmt) (around : Surroundings),
    (s.places around).filterMap (·.node.id?) = s.ids
  | .expression value, around | .print value, around => value.filterMap_places around
  | .var name initial, around => Expr.filterMap_places? initial (.initial name :: around)
  | .block body, _ => Stmt.filterMap_placesAll body _ _
  | .branch _ condition yes no, around => by
    simp [Stmt.places, Stmt.ids, condition.filterMap_places around, yes.filterMap_places around,
      Stmt.filterMap_places? no around]
  | .loop _ condition body, around => by
    simp [Stmt.places, Stmt.ids, condition.filterMap_places around, body.filterMap_places]
  | .breakLoop _, _ => rfl
  | .function name fn, around => fn.filterMap_places (.function name :: around)
  | .giveBack _ value, around => Expr.filterMap_places? value around

theorem Stmt.filterMap_placesAll : ∀ (ss : List Stmt) (within : List Stmt → Surroundings)
    (before : List Stmt),
    (Stmt.placesAll within before ss).filterMap (·.node.id?) = Stmt.idsAll ss
  | [], _, _ => rfl
  | s :: ss, within, before => by
    simp [Stmt.placesAll, Stmt.idsAll, s.filterMap_places, Stmt.filterMap_placesAll ss]

theorem Stmt.filterMap_places? : ∀ (s : Option Stmt) (around : Surroundings),
    (Stmt.places? around s).filterMap (·.node.id?) = Stmt.ids? s
  | none, _ => rfl
  | some s, around => s.filterMap_places around

end

end Ids

end Lox
