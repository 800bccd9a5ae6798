import Lox.Diagnostic
import Lox.Text.Lines
import Lox.Text.Search

/-!
Reporting: errors are recorded and printed with the source line they stand in, and decide the exit
code.

A reporter may be fatal: then an error that leaves a guarded section ends the program. `leave` says
what becomes of everything that can leave one.
-/

namespace Lox

inductive Color where
  | red | magenta
  deriving DecidableEq, Repr

def Color.code : Color → String
  | red => "31"
  | magenta => "35"

/-- Bold text for a terminal. -/
def bold (color : Option Color) (text : String) : String :=
  "\x1b[1m" ++ color.elim "" (fun c => "\x1b[" ++ c.code ++ "m") ++ text ++ "\x1b[0m"

/-- The exit code of a program with an error found before it ran. -/
def exitStatic : Int := 65

/-- The exit code of a program that failed while it ran. -/
def exitRuntime : Int := 70

/-- The exit code of everything else that goes wrong. -/
def exitInternal : Int := 1

/-- The errors reported so far, and how to show more. `lines` is the source text they point into,
`printed` what was printed. -/
structure Reporter where
  fatal : Bool
  color : Bool
  path : Option String
  lines : List String
  errors : List Diagnostic
  hadError : Bool
  hadRuntimeError : Bool
  printed : String
  deriving Repr

/-- What leaves a guarded section. A foreign error is known by its name and its text. -/
inductive Leaving where
  | normally
  | interrupted
  | exit (code : Option Int)
  | tooDeep
  | error (d : Diagnostic)
  | foreign (name text : String)
  deriving Repr

/-- What becomes of it outside. -/
inductive Departure where
  | left
  | exit (code : Option Int)
  | raised (name : String)
  deriving Repr, DecidableEq

namespace Reporter

def new (fatal color : Bool) : Reporter :=
  { fatal, color, path := none, lines := [], errors := [], hadError := false,
    hadRuntimeError := false, printed := "" }

variable (r : Reporter)

/-- Takes a source text to point into. -/
def register (path : Option String) (source : String) : Reporter :=
  { r with path, lines := Text.lines source }

/-- Forgets the errors, but not the source text. -/
def reset : Reporter :=
  { r with errors := [], hadError := false, hadRuntimeError := false }

/-- Text in bold, if colors are on. -/
def emphasis (color : Option Color) (text : String) : String :=
  if r.color then bold color text else text

/-- The source line an error names. -/
def sourceLine? (line : Int) : Option String :=
  if 0 < line then r.lines[line.toNat - 1]? else none

/-- The source line of an error with its first occurrence of the offending text marked, and a line
of underlining. -/
def diagnose (d : Diagnostic) (color : Color) : Option String := do
  let line ← r.sourceLine? d.line
  let part := (d.lexeme?.getD "").toList
  let start ← if part.isEmpty then none else Text.indexOf? part line.toList
  let before := String.ofList (line.toList.take start)
  let after := String.ofList (line.toList.drop (start + part.length))
  let underline := String.ofList ('^' :: List.replicate (part.length - 1) '~')
  return "  " ++ before ++ r.emphasis color (String.ofList part) ++ after ++ "\n" ++
    "  " ++ String.ofList (List.replicate start ' ') ++ r.emphasis color underline

/-- An error with its location, its wording and the source line. -/
def format (d : Diagnostic) (runtime : Bool) : String :=
  let color := if runtime then Color.magenta else .red
  let label := if runtime then "runtime error" else "error"
  let location :=
    match r.path with
    | some path => if path.isEmpty then none else some (path ++ ":" ++ toString d.line)
    | none => none
  let message :=
    r.emphasis none (location.getD ("[line " ++ toString d.line ++ "]") ++ " ") ++
      r.emphasis color (label ++ d.place ++ ": ") ++ d.message
  match r.diagnose d color with
  | some diagnosis => message ++ "\n" ++ diagnosis
  | none => message

def print (text : String) : Reporter := { r with printed := r.printed ++ text ++ "\n" }

/-- Records and prints an error found before the program runs. -/
def error (d : Diagnostic) : Reporter :=
  { r with errors := r.errors ++ [d], hadError := true }.print (r.format d false)

/-- Records and prints an error of the running program. -/
def runtimeError (d : Diagnostic) : Reporter :=
  { r with errors := r.errors ++ [d], hadRuntimeError := true }.print (r.format d true)

def reportAll (ds : List Diagnostic) : Reporter := ds.foldl error r

/-- The exit code the errors call for. -/
def exitCode : Int :=
  if r.hadError then exitStatic else if r.hadRuntimeError then exitRuntime else 0

/-- Prints a message that belongs to no place in a source text. -/
def complain (message : String) (internal : Bool) : Reporter :=
  let mark := if internal then r.emphasis (some Color.red) "[internal] " else ""
  r.print (mark ++ r.emphasis (some Color.red) "error: " ++ message)

/-- The end of the program with a code, if the reporter is fatal. -/
def stop? (code : Int) : Option Departure :=
  if r.fatal then some (.exit code) else none

/-- Reports what leaves a guarded section. Only an exit and a foreign error get past a reporter that
is not fatal. -/
def leave : Leaving → Reporter × Departure
  | .normally => (r, .left)
  | .interrupted => (r.complain "keyboard interrupt" false, (r.stop? exitInternal).getD .left)
  | .exit code => (r, .exit code)
  | .tooDeep =>
    ({ r with hadRuntimeError := true }.complain "maximum recursion depth exceeded" false,
      (r.stop? exitRuntime).getD .left)
  | .error d =>
    match d.kind with
    | .runtime => (r.runtimeError d, (r.stop? exitRuntime).getD .left)
    | .plain => unknown d.kind.name d.text
    | .static | .scan | .parse | .resolve => (r.error d, (r.stop? exitStatic).getD .left)
  | .foreign name text => unknown name text
where
  /-- Complains of an error that is none of the language's. -/
  unknown (name text : String) : Reporter × Departure :=
    (r.complain ("unknown error: '" ++ name ++ ": " ++ text ++ "'") true,
      (r.stop? exitInternal).getD (.raised name))

/-- What was printed, and the reporter with nothing printed. -/
def drain : String × Reporter := (r.printed, { r with printed := "" })

@[simp] theorem exitCode_reset : r.reset.exitCode = 0 := by simp [reset, exitCode]

@[simp] theorem errors_error (d : Diagnostic) : (r.error d).errors = r.errors ++ [d] := rfl

@[simp] theorem errors_runtimeError (d : Diagnostic) :
    (r.runtimeError d).errors = r.errors ++ [d] := rfl

theorem errors_reportAll (ds : List Diagnostic) : (r.reportAll ds).errors = r.errors ++ ds := by
  induction ds generalizing r with
  | nil => simp [reportAll]
  | cons d ds ih =>
    have := ih (r.error d)
    simp_all [reportAll]

end Reporter

end Lox
