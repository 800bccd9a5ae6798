import Lox.Scan
import Lox.Tree

/-!
Parsing: a sequence of tokens as a sequence of statements.

Each phrase of the grammar has a parser of its name. A parser that does not find what it expects
reports that and unwinds to the nearest declaration around it, which skips to the next boundary
between statements and goes on there; so one bad statement does not hide the errors of the next.

The parsers call each other with one unit of fuel less each time. `parse` gives them more than they
can use: no more than sixteen of them are entered before one reads a token.
-/

namespace Lox.Parse

/-- Why a parser stops early: a fault it has reported, or no fuel. -/
inductive Interrupt where
  | unwind
  | outOfFuel
  deriving DecidableEq, Repr

/-- A fault and the token it is blamed on; none is the end of the input. -/
structure Complaint where
  fault : SyntaxFault
  token : Option Token
  deriving Repr

/-- The tokens still to be read, the faults found so far, and the next free identity. -/
structure State where
  rest : List Token
  complaints : Array Complaint
  nextId : NodeId
  deriving Repr

abbrev Parser := EStateM Interrupt State

/-- Reports a fault, blamed on the given token. -/
def complain (fault : SyntaxFault) (token : Option Token) : Parser Unit := fun s =>
  .ok () { s with complaints := s.complaints.push ⟨fault, token⟩ }

/-- Reports a fault, blamed on the next token. -/
def complainHere (fault : SyntaxFault) : Parser Unit := fun s =>
  complain fault s.rest.head? s

/-- Reports that something is missing here, and unwinds. -/
def missing {α : Type} (what : Expectation) : Parser α := do
  complainHere (.expected what)
  throw .unwind

def check (kind : TokenKind) : Parser Bool := fun s =>
  .ok (s.rest.head?.any (·.kind = kind)) s

/-- Reads the next token if `f` makes something of it. -/
def acceptMap? {α : Type} (f : Token → Option α) : Parser (Option α) := fun s =>
  match s.rest with
  | [] => .ok none s
  | t :: rest =>
    match f t with
    | some a => .ok (some a) { s with rest }
    | none => .ok none s

/-- Reads the next token if it is of a kind. -/
def accept? (kind : TokenKind) : Parser (Option Token) :=
  acceptMap? fun t => if t.kind = kind then some t else none

/-- Reads a token of a kind, which must be the next one. -/
def expect (kind : TokenKind) (what : Expectation) : Parser Token := do
  match ← accept? kind with
  | some t => return t
  | none => missing what

/-- An identity that no expression has yet. -/
def fresh : Parser NodeId := fun s =>
  .ok s.nextId { s with nextId := s.nextId + 1 }

/-- Reads `fun` and a name, if both are next; then a declaration begins, not an expression. -/
def acceptFunctionName? : Parser (Option Token) := fun s =>
  match s.rest with
  | t :: name :: rest =>
    if t.kind = .kwFun && name.kind = .identifier then .ok (some name) { s with rest }
    else .ok none s
  | _ => .ok none s

/-- The tokens before which a statement can be taken to begin. -/
def isBoundary (kind : TokenKind) : Bool :=
  match kind with
  | .kwClass | .kwFun | .kwVar | .kwFor | .kwIf | .kwWhile | .kwPrint | .kwReturn => true
  | _ => false

/-- What is left after the next boundary: just past a semicolon, or before a token that begins a
statement. At least one token is skipped, if there is one. -/
def skipStatement : List Token → List Token
  | [] => []
  | t :: rest =>
    match rest with
    | [] => []
    | next :: _ =>
      if t.kind = .semicolon || isBoundary next.kind then rest else skipStatement rest

/-- Runs a parser; if it unwinds, there is no result, and reading goes on at the next boundary. -/
def recovering {α : Type} (p : Parser α) : Parser (Option α) := fun s =>
  match p s with
  | .ok a s => .ok (some a) s
  | .error .unwind s => .ok none { s with rest := skipStatement s.rest }
  | .error .outOfFuel s => .error .outOfFuel s

/-- The levels of operators with two operands, from the loosest to the tightest. -/
inductive Level where
  | or | and | equality | comparison | term | factor
  deriving DecidableEq, Repr

namespace Level

/-- The level of the operands. Those of the tightest level have no such operators. -/
def operand : Level → Option Level
  | or => some and
  | and => some equality
  | equality => some comparison
  | comparison => some term
  | term => some factor
  | factor => none

/-- An operator of a level. -/
def operator? : Level → TokenKind → Option (LogicalOp ⊕ BinaryOp)
  | or, .kwOr => some (.inl .or)
  | and, .kwAnd => some (.inl .and)
  | equality, .bangEqual => some (.inr .notEqual)
  | equality, .equalEqual => some (.inr .equal)
  | comparison, .greater => some (.inr .greater)
  | comparison, .greaterEqual => some (.inr .greaterEqual)
  | comparison, .less => some (.inr .less)
  | comparison, .lessEqual => some (.inr .lessEqual)
  | term, .minus => some (.inr .subtract)
  | term, .plus => some (.inr .add)
  | factor, .slash => some (.inr .divide)
  | factor, .star => some (.inr .multiply)
  | _, _ => none

/-- An operator of a level and its token. -/
def operatorAt? (level : Level) (t : Token) : Option ((LogicalOp ⊕ BinaryOp) × Token) :=
  (level.operator? t.kind).map (·, t)

end Level

def combine (id : NodeId) (left : Expr) (op : LogicalOp ⊕ BinaryOp) (token : Token)
    (right : Expr) : Expr :=
  match op with
  | .inl op => .logical id left op token right
  | .inr op => .binary id left op token right

/-- An operator before its operand, and its token. -/
def unaryAt? (t : Token) : Option (UnaryOp × Token) :=
  match t.kind with
  | .bang => some (.not, t)
  | .minus => some (.negate, t)
  | _ => none

/-- What an expression can begin with, operators aside. -/
inductive Atom where
  | literal (value : Literal)
  | name (token : Token)
  | lambda
  | group

/-- What begins with a token. -/
def atomAt? (t : Token) : Option Atom :=
  match t.kind with
  | .kwFalse => some (.literal (.bool false))
  | .kwTrue => some (.literal (.bool true))
  | .kwNil => some (.literal .nil)
  | .number | .string => some (.literal t.literal)
  | .identifier => some (.name t)
  | .kwFun => some .lambda
  | .leftParen => some .group
  | _ => none

/-- The tokens that tell what kind of statement follows. -/
inductive Opening where
  | counting | branch | print | giveBack | loop | breakLoop | block

/-- The kind of statement a token opens. -/
def openingAt? (t : Token) : Option (Opening × Token) :=
  match t.kind with
  | .kwFor => some (.counting, t)
  | .kwIf => some (.branch, t)
  | .kwPrint => some (.print, t)
  | .kwReturn => some (.giveBack, t)
  | .kwWhile => some (.loop, t)
  | .kwBreak => some (.breakLoop, t)
  | .leftBrace => some (.block, t)
  | _ => none

/-- Parameters after those already read, at least one. Past the limit each is reported. -/
def parameters : Nat → Array Token → Parser (List Token)
  | 0, _ => throw .outOfFuel
  | fuel + 1, done => do
    if maxArity ≤ done.size then complainHere .tooManyParameters
    let name ← expect .identifier .parameterName
    match ← accept? .comma with
    | some _ => parameters fuel (done.push name)
    | none => return (done.push name).toList

/-- A value that may be left out before the given token. -/
def unlessNext {α : Type} (kind : TokenKind) (p : Parser α) : Parser (Option α) := do
  if ← check kind then return none
  return some (← p)

def expressionStatement (expression : Parser Expr) : Parser Stmt := do
  let value ← expression
  let _ ← expect .semicolon .valueEnd
  return .expression value

/-- The declaration of a variable, after its keyword. -/
def varDeclaration (expression : Parser Expr) : Parser Stmt := do
  let name ← expect .identifier .variableName
  let initial ← (do
    match ← accept? .equal with
    | some _ => return some (← expression)
    | none => return none)
  let _ ← expect .semicolon .variableEnd
  return .var name initial

/-- What a counting loop does first: nothing, a declaration, or an expression. -/
def countingStart (expression : Parser Expr) : Parser (Option Stmt) := do
  match ← accept? .semicolon with
  | some _ => return none
  | none =>
    match ← accept? .kwVar with
    | some _ => return some (← varDeclaration expression)
    | none => return some (← expressionStatement expression)

/-- A counting loop, after its keyword. Without a condition it goes on until it is left. -/
def countingLoop (keyword : Token) (expression : Parser Expr) (statement : Parser Stmt) :
    Parser Stmt := do
  let _ ← expect .leftParen .forOpen
  let initial ← countingStart expression
  let condition ← unlessNext .semicolon expression
  let _ ← expect .semicolon .forConditionEnd
  let step ← unlessNext .rightParen expression
  let _ ← expect .rightParen .forClose
  let body ← statement
  let condition ← (do
    match condition with
    | some condition => return condition
    | none => return .literal (← fresh) (.bool true))
  return .counting keyword initial condition step body

/-- A branch, after its keyword. An `else` belongs to the nearest branch before it. -/
def branch (keyword : Token) (expression : Parser Expr) (statement : Parser Stmt) :
    Parser Stmt := do
  let _ ← expect .leftParen .ifOpen
  let condition ← expression
  let _ ← expect .rightParen .ifClose
  let yes ← statement
  let no ← (do
    match ← accept? .kwElse with
    | some _ => return some (← statement)
    | none => return none)
  return .branch keyword condition yes no

def loop (keyword : Token) (expression : Parser Expr) (statement : Parser Stmt) :
    Parser Stmt := do
  let _ ← expect .leftParen .whileOpen
  let condition ← expression
  let _ ← expect .rightParen .whileClose
  let body ← statement
  return .loop keyword condition body

/-- An order to print, after its keyword. -/
def print (expression : Parser Expr) : Parser Stmt := do
  let value ← expression
  let _ ← expect .semicolon .valueEnd
  return .print value

/-- The end of a function, after its keyword. -/
def giveBack (keyword : Token) (expression : Parser Expr) : Parser Stmt := do
  let value ← unlessNext .semicolon expression
  let _ ← expect .semicolon .returnEnd
  return .giveBack keyword value

/-- The end of a loop, after its keyword. -/
def breakLoop (keyword : Token) : Parser Stmt := do
  let _ ← expect .semicolon .breakEnd
  return .breakLoop keyword

/-- An operand of the operators of a level: a chain of the next tighter level, if there is one. -/
def operandOf (level : Level) (chain : Level → Parser Expr) (unary : Parser Expr) : Parser Expr :=
  match level.operand with
  | some tighter => chain tighter
  | none => unary

mutual

/-- An expression: an assignment, or a chain of the loosest operators. What is assigned to must be
a name; anything else is reported, and the value is dropped. -/
def expression : Nat → Parser Expr
  | 0 => throw .outOfFuel
  | fuel + 1 => do
    let target ← chain fuel .or
    match ← accept? .equal with
    | none => return target
    | some equals =>
      let value ← expression fuel
      match target with
      | .reference _ name => return .assign (← fresh) name value
      | _ =>
        complain .invalidAssignmentTarget (some equals)
        return target

/-- Operands of a level with operators of that level between them, grouped from the left. -/
def chain : Nat → Level → Parser Expr
  | 0, _ => throw .outOfFuel
  | fuel + 1, level => do
    let first ← operandOf level (chain fuel) (unary fuel)
    chainRest fuel level first

/-- The rest of a chain, after the operands that `left` holds. -/
def chainRest : Nat → Level → Expr → Parser Expr
  | 0, _, _ => throw .outOfFuel
  | fuel + 1, level, left => do
    match ← acceptMap? level.operatorAt? with
    | none => return left
    | some (op, token) =>
      let right ← operandOf level (chain fuel) (unary fuel)
      let id ← fresh
      chainRest fuel level (combine id left op token right)

/-- Operators before an operand, which is an atom and the calls of it. -/
def unary : Nat → Parser Expr
  | 0 => throw .outOfFuel
  | fuel + 1 => do
    match ← acceptMap? unaryAt? with
    | some (op, token) =>
      let operand ← unary fuel
      return .unary (← fresh) op token operand
    | none =>
      let callee ← atom fuel
      calls fuel callee

def calls : Nat → Expr → Parser Expr
  | 0, _ => throw .outOfFuel
  | fuel + 1, callee => do
    match ← accept? .leftParen with
    | none => return callee
    | some _ =>
      let given ← unlessNext .rightParen (arguments fuel #[])
      let paren ← expect .rightParen .argumentsClose
      let id ← fresh
      calls fuel (.call id callee paren (given.getD []))

/-- Arguments after those already read, at least one. Past the limit each is reported. -/
def arguments : Nat → Array Expr → Parser (List Expr)
  | 0, _ => throw .outOfFuel
  | fuel + 1, done => do
    if maxArity ≤ done.size then complainHere .tooManyArguments
    let argument ← expression fuel
    match ← accept? .comma with
    | some _ => arguments fuel (done.push argument)
    | none => return (done.push argument).toList

/-- A literal, a name, a function or an expression in parentheses. -/
def atom : Nat → Parser Expr
  | 0 => throw .outOfFuel
  | fuel + 1 => do
    match ← acceptMap? atomAt? with
    | some (.literal value) => return .literal (← fresh) value
    | some (.name token) => return .reference (← fresh) token
    | some .lambda => return .lambda (← lambda fuel)
    | some .group =>
      let inner ← expression fuel
      let _ ← expect .rightParen .groupClose
      return .group (← fresh) inner
    | none => missing .expression

/-- The parameters and the body of a function. -/
def lambda : Nat → Parser Lambda
  | 0 => throw .outOfFuel
  | fuel + 1 => do
    let _ ← expect .leftParen .parametersOpen
    let params ← unlessNext .rightParen (parameters fuel #[])
    let _ ← expect .rightParen .parametersClose
    let _ ← expect .leftBrace .functionBody
    let body ← block fuel
    return .mk (← fresh) (params.getD []) body

/-- The statements of a block, after its opening brace, and the closing one. -/
def block : Nat → Parser (List Stmt)
  | 0 => throw .outOfFuel
  | fuel + 1 => do
    let body ← declarations fuel true #[]
    let _ ← expect .rightBrace .blockEnd
    return body

/-- A statement that is not a declaration. -/
def statement : Nat → Parser Stmt
  | 0 => throw .outOfFuel
  | fuel + 1 => do
    match ← acceptMap? openingAt? with
    | some (.counting, keyword) => countingLoop keyword (expression fuel) (statement fuel)
    | some (.branch, keyword) => branch keyword (expression fuel) (statement fuel)
    | some (.print, _) => print (expression fuel)
    | some (.giveBack, keyword) => giveBack keyword (expression fuel)
    | some (.loop, keyword) => loop keyword (expression fuel) (statement fuel)
    | some (.breakLoop, keyword) => breakLoop keyword
    | some (.block, _) => return .block (← block fuel)
    | none => expressionStatement (expression fuel)

/-- A declaration or a statement; none if it had to be given up. -/
def declaration : Nat → Parser (Option Stmt)
  | 0 => throw .outOfFuel
  | fuel + 1 => recovering do
    match ← acceptFunctionName? with
    | some name => return .function name (← lambda fuel)
    | none =>
      match ← accept? .kwVar with
      | some _ => varDeclaration (expression fuel)
      | none => statement fuel

/-- Declarations after those already read, up to the end of the input or, in a block, to a closing
brace. -/
def declarations : Nat → Bool → Array Stmt → Parser (List Stmt)
  | 0, _, _ => throw .outOfFuel
  | fuel + 1, inBlock, done => do
    if (← get).rest.isEmpty || (inBlock && (← check .rightBrace)) then return done.toList
    match ← declaration fuel with
    | some s => declarations fuel inBlock (done.push s)
    | none => declarations fuel inBlock done

end

end Lox.Parse

namespace Lox

/-- A parsed program, what could not be parsed, and the next free identity. -/
structure Parse where
  program : List Stmt
  errors : List SyntaxError
  nextId : NodeId

/-- Parses tokens, which are followed by `finish`. Identities begin with `firstId`. -/
def parse (tokens : List Token) (finish : Token) (firstId : NodeId) : Parse :=
  let fuel := 16 * (tokens.length + 1)
  let located (s : Parse.State) : List SyntaxError :=
    s.complaints.toList.map fun c => ⟨c.fault, c.token.getD finish⟩
  match Parse.declarations fuel false #[] ⟨tokens, #[], firstId⟩ with
  | .ok program s => ⟨program, located s, s.nextId⟩
  | .error _ s => ⟨[], located s, s.nextId⟩

def Scan.parse (s : Scan) (firstId : NodeId) : Parse := Lox.parse s.tokens s.finish firstId

end Lox
