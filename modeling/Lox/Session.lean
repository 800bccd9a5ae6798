import Lox.Evaluate
import Lox.Parse
import Lox.Reporter
import Lox.Resolve
import Lox.Text.Utf8
import Lox.Token.Dump
import Lox.Tree.Render

/-!
Sessions: source texts run one after the other on one machine, so that each finds the globals of
those before it.

A text goes through all stages in turn, and stops after the first that finds an error; nothing is
executed unless all of it is in order.
-/

namespace Lox

/-- What is shown of a program before it is executed. -/
structure Dumps where
  tokens : Bool
  trees : Bool
  deriving Repr

/-- How the run of a source text ends. -/
inductive Status where
  | ok
  | staticError
  | runtimeError
  | unreadable
  deriving DecidableEq, Repr

def Status.code : Status → Int
  | ok => 0
  | staticError => exitStatic
  | runtimeError => exitRuntime
  | unreadable => exitInternal

/-- The state of a session. Diagnostics show the path, if there is one. Identities of expressions
are never used twice. -/
structure Session where
  reporter : Reporter
  machine : Machine
  nextId : NodeId
  path : Option String
  dumps : Dumps
  limits : Limits

/-- The end of a run: a status, or something that leaves the section it runs in. -/
abbrev Ending := Except Leaving Status

/-- What a stop that is no error of the program leaves behind. -/
def Halt.leaving : Halt → Leaving
  | error e => .error e.diagnostic
  | tooDeep => .tooDeep
  | dangling => .foreign "InternalError" "dangling address"
  | outOfFuel => .foreign "InternalError" "out of fuel"

namespace Session

/-- A session on a file, or one that is fed entry by entry, which goes on after every error. -/
def new (reporter : Reporter) (path : Option String) (dumps : Dumps) (clock : Nat → Float)
    (limits : Limits := .standard) : Session :=
  { reporter := if path.isNone then { reporter with fatal := false } else reporter
    machine := .start clock
    nextId := 0
    path
    dumps
    limits }

variable (s : Session)

/-- Reports errors found before the program runs. -/
def report (ds : List Diagnostic) : Session := { s with reporter := s.reporter.reportAll ds }

def dump (wanted : Bool) (lines : List String) : Session :=
  if wanted then { s with machine := lines.foldl Machine.print s.machine } else s

/-- Executes a program whose addresses are filed. -/
def execute (program : List Stmt) : Ending × Session :=
  match interpret s.limits program s.machine with
  | .ok _ machine => (.ok .ok, { s with machine })
  | .error (.error e) machine =>
    (.ok .runtimeError, { s with machine, reporter := s.reporter.runtimeError e.diagnostic })
  | .error halt machine => (.error halt.leaving, { s with machine })

/-- Files the addresses of a program, also of one that is not in order, and executes it if it is. -/
def resolveAndExecute (program : List Stmt) : Ending × Session :=
  let resolved := resolve program
  let resolution := s.machine.resolution.recordAll resolved.located
  let s := { s with machine := { s.machine with resolution } }
  let s := s.report (resolved.errors.map (·.diagnostic))
  if resolved.errors.isEmpty then s.execute program else (.ok .staticError, s)

/-- Parses a scanned source text, and goes on with the program if it is in order. -/
def parseAndExecute (scanned : Scan) : Ending × Session :=
  let parsed := scanned.parse s.nextId
  let s := { s with nextId := parsed.nextId }
  let s := s.report (parsed.errors.map (·.diagnostic))
  let s := s.dump s.dumps.trees (parsed.program.map (·.render))
  if !parsed.errors.isEmpty then (.ok .staticError, s) else s.resolveAndExecute parsed.program

/-- Runs a source text through all stages. -/
def run (source : String) : Ending × Session :=
  let s := { s with reporter := s.reporter.reset.register s.path source }
  let scanned := scan source
  let s := s.report (scanned.errors.map (·.diagnostic))
  let s := s.dump s.dumps.tokens (scanned.listing.map (·.dump))
  if !scanned.errors.isEmpty then (.ok .staticError, s) else s.parseAndExecute scanned

/-- Runs a file, given its bytes if it can be opened. A path with a zero character is no path. -/
def runFile (path : String) (bytes : Option ByteArray) : Ending × Session :=
  if path.toList.contains '\x00' then (.error (.foreign "ValueError" "embedded null byte"), s)
  else
    match bytes with
    | none =>
      let s := { s with
        reporter := s.reporter.complain ("'" ++ path ++ "' could not be opened") false }
      (if s.reporter.fatal then .error (.exit (some exitInternal)) else .ok .unreadable, s)
    | some bytes =>
      match Text.decodeUtf8 bytes with
      | .error e => (.error (.foreign "UnicodeDecodeError" e.message), s)
      | .ok source => s.run (Text.newlines source)

/-- Reports what leaves a run, and says what becomes of it. -/
def guard (result : Ending × Session) : Departure × Session :=
  match result with
  | (.ok _, s) => (.left, s)
  | (.error leaving, s) =>
    let (reporter, departure) := s.reporter.leave leaving
    (departure, { s with reporter })

/-- What was printed and what was reported, and the session with both taken away. -/
def drain : (String × String) × Session :=
  let (out, machine) := s.machine.drain
  let (err, reporter) := s.reporter.drain
  ((out, err), { s with machine, reporter })

/-- The globals as `print` shows them. -/
def globals : List (String × String) :=
  s.machine.globals.entries.map fun (name, value) => (name, value.text)

end Session

end Lox
