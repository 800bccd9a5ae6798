import Lox.Session
import Lox.Text.Blank

/-!
The shell: a session that is fed line by line.

Lines are collected into an entry while it has more opening than closing braces. Between entries a
bare word may be a command to the shell itself, and blank lines are skipped.
-/

namespace Lox

/-- The lines of the entry so far and one more. It needs more lines while opening braces outnumber
closing ones, wherever they stand. -/
def joinLine (pending line : String) : String × Bool :=
  let entry := if pending.isEmpty then line else pending ++ "\n" ++ line
  (entry, entry.toList.count '}' < entry.toList.count '{')

/-- The state of a shell. The pending entry is empty between entries. The prompt, with which the
shell asks for a line, is set apart from it. -/
structure Shell where
  session : Session
  pending : String
  prompt : String

/-- The answer to a line: what the shell says itself, what the program printed and what was
reported. -/
structure Reply where
  stop : Bool
  text : String
  out : String
  err : String
  deriving Repr

inductive Command where
  | help
  | exit
  | endOfInput
  deriving DecidableEq, Repr

namespace Shell

def intro : String :=
  "Lox interpreter :: Python backend\nType 'help' for more information, 'exit' to quit."

def helpText : String :=
  "Welcome to the lox interpreter!\n\n" ++
  "Lox is a small dynamically-typed scripting language with C-like syntax: numbers, \n" ++
  "strings, booleans and nil, variables, if/while/for, and first-class functions \n" ++
  "with closures.\n\n" ++
  "Try it out by typing 'var greeting = \"hello\";'. Next, try typing \n" ++
  "'print greeting;'. Definitions persist for the rest of the session. An entry \n" ++
  "with an unclosed '\x7b' continues on the next line.\n"

/-- The prompt between entries. -/
def mainPrompt : String := "> "

/-- The prompt within an entry. -/
def secondaryPrompt : String := ". "

/-- A shell before its first line. -/
def new (session : Session) : Shell := ⟨session, "", mainPrompt⟩

variable (shell : Shell)

/-- The command a line gives. The end of the input counts also within an entry. -/
def command? (line : String) : Option Command :=
  if line = "EOF" then some .endOfInput
  else if shell.pending.isEmpty then
    match String.ofList (Text.strip line.toList) with
    | "exit" => some .exit
    | "help" => some .help
    | _ => none
  else none

def obey : Command → Reply
  | .help => ⟨false, helpText, "", ""⟩
  | .exit => ⟨true, "", "", ""⟩
  | .endOfInput => ⟨true, "\n", "", ""⟩

/-- Adds a line to the entry, and runs the entry if that completes it. The prompt is set before the
run, so that it does not matter how that ends. -/
def enter (line : String) : Reply × Shell :=
  let (entry, more) := joinLine shell.pending line
  if more then
    (⟨false, "", "", ""⟩, { shell with pending := entry, prompt := secondaryPrompt })
  else
    let shell := { shell with pending := "", prompt := mainPrompt }
    let (_, session) := Session.guard (shell.session.run entry)
    let ((out, err), session) := session.drain
    (⟨false, "", out, err⟩, { shell with session })

def feed (line : String) : Reply × Shell :=
  match shell.command? line with
  | some command => (obey command, shell)
  | none =>
    if shell.pending.isEmpty && Text.isAllBlank line then (⟨false, "", "", ""⟩, shell)
    else shell.enter line

/-- A conversation over all lines of an input, after what was said and reported before. Past the
last line comes the end of the input. -/
def converse (shell : Shell) (said reported : String) : List String → String × String
  | [] =>
    let (reply, _) := shell.feed "EOF"
    (said ++ shell.prompt ++ reply.text ++ reply.out, reported ++ reply.err)
  | line :: lines =>
    let said := said ++ shell.prompt
    let (reply, shell) := shell.feed line
    let said := said ++ reply.text ++ reply.out
    let reported := reported ++ reply.err
    if reply.stop then (said, reported) else converse shell said reported lines

/-- The lines of an input, each ended by a line feed; the last one need not be. -/
def inputLines (input : String) : List String :=
  let lines := input.splitOn "\n"
  if lines.getLast? = some "" then lines.dropLast else lines

/-- The conversation over an input, greeting included: what is said, and what is reported. -/
def transcript (lines : List String) : String × String :=
  shell.converse (intro ++ "\n") "" lines

end Shell

end Lox
