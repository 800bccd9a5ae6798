import Lox.Parse

/-!
The parser with a cursor: all tokens stay in one list, the one that stands for the end of the input
last, and each that is read is looked up at its place. To look outside of the list or to step past
its last token stops the parser for good, as nothing catches that. Every run of the parser of
declarations is noted with the places where it started and stopped.

The phrases are those of `Lox.Parse`, in terms of the cursor.
-/

namespace Lox.Cursor

open Parse (Level combine unaryAt? atomAt? openingAt? isBoundary)

/-- Why a parser stops early: a fault it has reported, no fuel, or a place that is not there. -/
inductive Stop where
  | unwind
  | outOfFuel
  | outside
  deriving DecidableEq, Repr

/-- A run of the parser of declarations, from the place of the cursor before it to that behind. -/
structure Call where
  start : Nat
  stop : Nat
  deriving DecidableEq, Repr

/-- All tokens, the place of the next one, the faults found so far, the next free identity, and the
declarations that were run to their end. -/
structure State where
  tokens : List Token
  cursor : Nat
  errors : Array SyntaxError
  nextId : NodeId
  calls : List Call
  deriving Repr

abbrev Parser := EStateM Stop State

def tokenAt (place : Nat) : Parser Token := fun s =>
  match s.tokens[place]? with
  | some t => .ok t s
  | none => .error .outside s

/-- The next token. -/
def peek : Parser Token := do tokenAt (← get).cursor

/-- The token before the next one. -/
def previous : Parser Token := do
  match (← get).cursor with
  | 0 => throw .outside
  | place + 1 => tokenAt place

def isAtEnd : Parser Bool := do return (← peek).kind = .eof

/-- Whether the next token is of a kind. At the end of the input it is of none. -/
def check (kind : TokenKind) : Parser Bool := do
  if ← isAtEnd then return false
  return (← peek).kind = kind

/-- Whether the token after the next one is of a kind. -/
def checkNext (kind : TokenKind) : Parser Bool := do
  if ← isAtEnd then return false
  let s ← get
  if s.tokens.length ≤ s.cursor + 1 then return false
  return (← tokenAt (s.cursor + 1)).kind = kind

def step : Parser Unit := fun s =>
  if s.cursor + 1 < s.tokens.length then .ok () { s with cursor := s.cursor + 1 }
  else .error .outside s

/-- Moves on, except at the end of the input, and reads the token just passed. -/
def advance : Parser Token := do
  if ← isAtEnd then previous
  else
    step
    previous

def complain (fault : SyntaxFault) (token : Token) : Parser Unit := fun s =>
  .ok () { s with errors := s.errors.push ⟨fault, token⟩ }

def complainHere (fault : SyntaxFault) : Parser Unit := do complain fault (← peek)

/-- Reports that something is missing here, and unwinds. -/
def missing {α : Type} (what : Expectation) : Parser α := do
  complainHere (.expected what)
  throw .unwind

/-- Passes the next token if `f` makes something of it. -/
def acceptMap? {α : Type} (f : Token → Option α) : Parser (Option α) := do
  if ← isAtEnd then return none
  match f (← peek) with
  | some _ => return f (← advance)
  | none => return none

/-- Passes the next token if it is of a kind. -/
def accept? (kind : TokenKind) : Parser (Option Token) :=
  acceptMap? fun t => if t.kind = kind then some t else none

/-- Passes a token of a kind, which must be the next one. -/
def expect (kind : TokenKind) (what : Expectation) : Parser Token := do
  match ← accept? kind with
  | some t => return t
  | none => missing what

def fresh : Parser NodeId := fun s =>
  .ok s.nextId { s with nextId := s.nextId + 1 }

/-- Passes `fun` and a name, if both are next. -/
def acceptFunctionName? : Parser (Option Token) := do
  if ← check .kwFun then
    if ← checkNext .identifier then
      let _ ← advance
      return some (← advance)
    else return none
  else return none

/-- Moves on until a semicolon was passed or a boundary is next. -/
def skip : Nat → Parser Unit
  | 0 => throw .outOfFuel
  | fuel + 1 => do
    if ← isAtEnd then return ()
    if (← previous).kind = .semicolon then return ()
    if isBoundary (← peek).kind then return ()
    let _ ← advance
    skip fuel

/-- Moves on to the next boundary between statements, past one token at least if there is one. -/
def synchronize : Parser Unit := do
  let _ ← advance
  skip (← get).tokens.length

/-- Runs a parser; if it unwinds, there is no result, and reading goes on at the next boundary. -/
def recovering {α : Type} (p : Parser α) : Parser (Option α) := fun s =>
  match p s with
  | .ok a s => .ok (some a) s
  | .error .unwind s => (do
      synchronize
      return none : Parser (Option α)) s
  | .error .outOfFuel s => .error .outOfFuel s
  | .error .outside s => .error .outside s

/-- Runs a parser and notes from where to where. In a run that has a result, all are noted: what
unwinds does not leave a declaration, and nothing else is caught. -/
def noted {α : Type} (p : Parser α) : Parser α := do
  let start := (← get).cursor
  let a ← p
  modify fun s => { s with calls := s.calls ++ [⟨start, s.cursor⟩] }
  return a

/-- Parameters after those already read, at least one. Past the limit each is reported. -/
def parameters : Nat → Array Token → Parser (List Token)
  | 0, _ => throw .outOfFuel
  | fuel + 1, done => do
    if maxArity ≤ done.size then complainHere .tooManyParameters
    let name ← expect .identifier .parameterName
    match ← accept? .comma with
    | some _ => parameters fuel (done.push name)
    | none => return (done.push name).toList

/-- A value that may be left out before the given token. -/
def unlessNext {α : Type} (kind : TokenKind) (p : Parser α) : Parser (Option α) := do
  if ← check kind then return none
  return some (← p)

def expressionStatement (expression : Parser Expr) : Parser Stmt := do
  let value ← expression
  let _ ← expect .semicolon .valueEnd
  return .expression value

/-- The declaration of a variable, after its keyword. -/
def varDeclaration (expression : Parser Expr) : Parser Stmt := do
  let name ← expect .identifier .variableName
  let initial ← (do
    match ← accept? .equal with
    | some _ => return some (← expression)
    | none => return none)
  let _ ← expect .semicolon .variableEnd
  return .var name initial

/-- What a counting loop does first: nothing, a declaration, or an expression. -/
def countingStart (expression : Parser Expr) : Parser (Option Stmt) := do
  match ← accept? .semicolon with
  | some _ => return none
  | none =>
    match ← accept? .kwVar with
    | some _ => return some (← varDeclaration expression)
    | none => return some (← expressionStatement expression)

def countingLoop (keyword : Token) (expression : Parser Expr) (statement : Parser Stmt) :
    Parser Stmt := do
  let _ ← expect .leftParen .forOpen
  let initial ← countingStart expression
  let condition ← unlessNext .semicolon expression
  let _ ← expect .semicolon .forConditionEnd
  let step ← unlessNext .rightParen expression
  let _ ← expect .rightParen .forClose
  let body ← statement
  let condition ← (do
    match condition with
    | some condition => return condition
    | none => return .literal (← fresh) (.bool true))
  return .counting keyword initial condition step body

def branch (keyword : Token) (expression : Parser Expr) (statement : Parser Stmt) :
    Parser Stmt := do
  let _ ← expect .leftParen .ifOpen
  let condition ← expression
  let _ ← expect .rightParen .ifClose
  let yes ← statement
  let no ← (do
    match ← accept? .kwElse with
    | some _ => return some (← statement)
    | none => return none)
  return .branch keyword condition yes no

def loop (keyword : Token) (expression : Parser Expr) (statement : Parser Stmt) :
    Parser Stmt := do
  let _ ← expect .leftParen .whileOpen
  let condition ← expression
  let _ ← expect .rightParen .whileClose
  let body ← statement
  return .loop keyword condition body

def print (expression : Parser Expr) : Parser Stmt := do
  let value ← expression
  let _ ← expect .semicolon .valueEnd
  return .print value

def giveBack (keyword : Token) (expression : Parser Expr) : Parser Stmt := do
  let value ← unlessNext .semicolon expression
  let _ ← expect .semicolon .returnEnd
  return .giveBack keyword value

def breakLoop (keyword : Token) : Parser Stmt := do
  let _ ← expect .semicolon .breakEnd
  return .breakLoop keyword

def operandOf (level : Level) (chain : Level → Parser Expr) (unary : Parser Expr) : Parser Expr :=
  match level.operand with
  | some tighter => chain tighter
  | none => unary

mutual

/-- An expression: an assignment, or a chain of the loosest operators. -/
def expression : Nat → Parser Expr
  | 0 => throw .outOfFuel
  | fuel + 1 => do
    let target ← chain fuel .or
    match ← accept? .equal with
    | none => return target
    | some equals =>
      let value ← expression fuel
      match target with
      | .reference _ name => return .assign (← fresh) name value
      | _ =>
        complain .invalidAssignmentTarget equals
        return target

/-- Operands of a level with operators of that level between them. -/
def chain : Nat → Level → Parser Expr
  | 0, _ => throw .outOfFuel
  | fuel + 1, level => do
    let first ← operandOf level (chain fuel) (unary fuel)
    chainRest fuel level first

/-- The rest of a chain, after the operands that `left` holds. -/
def chainRest : Nat → Level → Expr → Parser Expr
  | 0, _, _ => throw .outOfFuel
  | fuel + 1, level, left => do
    match ← acceptMap? level.operatorAt? with
    | none => return left
    | some (op, token) =>
      let right ← operandOf level (chain fuel) (unary fuel)
      let id ← fresh
      chainRest fuel level (combine id left op token right)

/-- Operators before an operand, which is an atom and the calls of it. -/
def unary : Nat → Parser Expr
  | 0 => throw .outOfFuel
  | fuel + 1 => do
    match ← acceptMap? unaryAt? with
    | some (op, token) =>
      let operand ← unary fuel
      return .unary (← fresh) op token operand
    | none =>
      let callee ← atom fuel
      calls fuel callee

def calls : Nat → Expr → Parser Expr
  | 0, _ => throw .outOfFuel
  | fuel + 1, callee => do
    match ← accept? .leftParen with
    | none => return callee
    | some _ =>
      let given ← unlessNext .rightParen (arguments fuel #[])
      let paren ← expect .rightParen .argumentsClose
      let id ← fresh
      calls fuel (.call id callee paren (given.getD []))

/-- Arguments after those already read, at least one. Past the limit each is reported. -/
def arguments : Nat → Array Expr → Parser (List Expr)
  | 0, _ => throw .outOfFuel
  | fuel + 1, done => do
    if maxArity ≤ done.size then complainHere .tooManyArguments
    let argument ← expression fuel
    match ← accept? .comma with
    | some _ => arguments fuel (done.push argument)
    | none => return (done.push argument).toList

/-- A literal, a name, a function or an expression in parentheses. -/
def atom : Nat → Parser Expr
  | 0 => throw .outOfFuel
  | fuel + 1 => do
    match ← acceptMap? atomAt? with
    | some (.literal value) => return .literal (← fresh) value
    | some (.name token) => return .reference (← fresh) token
    | some .lambda => return .lambda (← lambda fuel)
    | some .group =>
      let inner ← expression fuel
      let _ ← expect .rightParen .groupClose
      return .group (← fresh) inner
    | none => missing .expression

def lambda : Nat → Parser Lambda
  | 0 => throw .outOfFuel
  | fuel + 1 => do
    let _ ← expect .leftParen .parametersOpen
    let params ← unlessNext .rightParen (parameters fuel #[])
    let _ ← expect .rightParen .parametersClose
    let _ ← expect .leftBrace .functionBody
    let body ← block fuel
    return .mk (← fresh) (params.getD []) body

/-- The statements of a block, after its opening brace, and the closing one. -/
def block : Nat → Parser (List Stmt)
  | 0 => throw .outOfFuel
  | fuel + 1 => do
    let body ← declarations fuel true #[]
    let _ ← expect .rightBrace .blockEnd
    return body

def statement : Nat → Parser Stmt
  | 0 => throw .outOfFuel
  | fuel + 1 => do
    match ← acceptMap? openingAt? with
    | some (.counting, keyword) => countingLoop keyword (expression fuel) (statement fuel)
    | some (.branch, keyword) => branch keyword (expression fuel) (statement fuel)
    | some (.print, _) => print (expression fuel)
    | some (.giveBack, keyword) => giveBack keyword (expression fuel)
    | some (.loop, keyword) => loop keyword (expression fuel) (statement fuel)
    | some (.breakLoop, keyword) => breakLoop keyword
    | some (.block, _) => return .block (← block fuel)
    | none => expressionStatement (expression fuel)

/-- A declaration or a statement; none if it had to be given up. -/
def declaration : Nat → Parser (Option Stmt)
  | 0 => throw .outOfFuel
  | fuel + 1 => noted <| recovering do
    match ← acceptFunctionName? with
    | some name => return .function name (← lambda fuel)
    | none =>
      match ← accept? .kwVar with
      | some _ => varDeclaration (expression fuel)
      | none => statement fuel

/-- Declarations after those already read, up to the end of the input or, in a block, to a closing
brace. -/
def declarations : Nat → Bool → Array Stmt → Parser (List Stmt)
  | 0, _, _ => throw .outOfFuel
  | fuel + 1, inBlock, done => do
    if (← isAtEnd) || (inBlock && (← check .rightBrace)) then return done.toList
    match ← declaration fuel with
    | some s => declarations fuel inBlock (done.push s)
    | none => declarations fuel inBlock done

end

/-- Parses all tokens, the last of which is the end of the input. Identities begin with `firstId`,
and the fuel is that of `Lox.parse`. -/
def program (tokens : List Token) (firstId : NodeId) :
    EStateM.Result Stop State (List Stmt) :=
  declarations (16 * tokens.length) false #[] ⟨tokens, 0, #[], firstId, []⟩

end Lox.Cursor
