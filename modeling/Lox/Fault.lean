import Lox.Token

/-!
What can be wrong with a program, stage by stage: a fault is the cause, and an error a fault at its
place. Each kind of fault has one function that words it.
-/

namespace Lox

/-- The most parameters a function can have, and the most arguments a call can have. -/
def maxArity : Nat := 127

/-- What can be wrong with the characters of a program. -/
inductive ScanFault where
  | unexpectedCharacter (c : Char)
  | unterminatedString
  | invalidNumber (text : String)
  deriving DecidableEq, Repr

namespace ScanFault

def message : ScanFault → String
  | unexpectedCharacter c => "Unexpected character '" ++ String.singleton c ++ "'."
  | unterminatedString => "Unterminated string."
  | invalidNumber text => "Invalid number '" ++ text ++ "'."

/-- The text a diagnostic points at. A string without an end points at nothing. -/
def excerpt : ScanFault → String
  | unexpectedCharacter c => String.singleton c
  | unterminatedString => ""
  | invalidNumber text => text

end ScanFault

/-- A fault of the characters and its line. -/
structure ScanError where
  fault : ScanFault
  line : Int
  deriving DecidableEq, Repr

/-- What the parser looked for and did not find. -/
inductive Expectation where
  | parametersOpen | parameterName | parametersClose | functionBody
  | variableName | variableEnd
  | forOpen | forConditionEnd | forClose
  | ifOpen | ifClose
  | whileOpen | whileClose
  | valueEnd | returnEnd | breakEnd | blockEnd
  | argumentsClose | groupClose | expression
  deriving DecidableEq, Repr

def Expectation.wording : Expectation → String
  | parametersOpen => "'(' after function name"
  | parameterName => "parameter name"
  | parametersClose => "')' after parameters"
  | functionBody => "'\x7b' before function body"
  | variableName => "variable name"
  | variableEnd => "';' after variable declaration"
  | forOpen => "'(' after 'for'"
  | forConditionEnd => "';' after loop condition"
  | forClose => "')' after for clauses"
  | ifOpen => "'(' after 'if'"
  | ifClose => "')' after if condition"
  | whileOpen => "'(' after 'while'"
  | whileClose => "')' after condition"
  | valueEnd => "';' after value"
  | returnEnd => "';' after return value"
  | breakEnd => "';' after 'break'"
  | blockEnd => "'\x7d' after block"
  | argumentsClose => "')' after arguments"
  | groupClose => "')' after expression"
  | expression => "expression"

/-- What can be wrong with the order of the tokens. -/
inductive SyntaxFault where
  | expected (what : Expectation)
  | invalidAssignmentTarget
  | tooManyParameters
  | tooManyArguments
  deriving DecidableEq, Repr

def SyntaxFault.message : SyntaxFault → String
  | expected what => "Expect " ++ what.wording ++ "."
  | invalidAssignmentTarget => "Invalid assignment target."
  | tooManyParameters => "Can't have more than " ++ toString maxArity ++ " parameters."
  | tooManyArguments => "Can't have more than " ++ toString maxArity ++ " arguments."

/-- A fault of the grammar and the token it is blamed on. -/
structure SyntaxError where
  fault : SyntaxFault
  token : Token
  deriving Repr

/-- What can be wrong with the names and jumps of a well-formed program. -/
inductive ScopeFault where
  | breakOutsideLoop
  | returnOutsideFunction
  | ownInitializer
  | redeclared
  deriving DecidableEq, Repr

def ScopeFault.message : ScopeFault → String
  | breakOutsideLoop => "Can't break outside of a loop."
  | returnOutsideFunction => "Can't return from top-level code."
  | ownInitializer => "Can't read local variable in its own initializer."
  | redeclared => "Already a variable with this name in this scope."

/-- A fault of scope and the token it is blamed on. -/
structure ScopeError where
  fault : ScopeFault
  token : Token
  deriving Repr

/-- What can go wrong while a program runs. -/
inductive RuntimeFault where
  | undefinedVariable (name : String)
  | conditionNotBoolean
  | operandNotBoolean
  | operandNotNumber
  | operandsNotNumbers
  | invalidAddition
  | divisionByZero
  | notCallable
  | wrongArity (expected actual : Nat)
  deriving DecidableEq, Repr

def RuntimeFault.message : RuntimeFault → String
  | undefinedVariable name => "Undefined variable '" ++ name ++ "'."
  | conditionNotBoolean => "Condition must be a boolean."
  | operandNotBoolean => "Operand must be a boolean."
  | operandNotNumber => "Operand must be a number."
  | operandsNotNumbers => "Operands must be numbers."
  | invalidAddition => "Invalid values in + operator."
  | divisionByZero => "Can't divide by zero."
  | notCallable => "Can only call functions and classes."
  | wrongArity expected actual =>
    "Expected " ++ toString expected ++ " arguments but got " ++ toString actual ++ "."

/-- A fault of a run and the token it is blamed on. -/
structure RuntimeError where
  fault : RuntimeFault
  token : Token
  deriving Repr

end Lox
