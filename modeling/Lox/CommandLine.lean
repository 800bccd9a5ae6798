import Lox.Shell
import Lox.Text.Digit

/-!
The command line: one optional file, and options.

Long options may be cut short as long as they stay clear. Past a `--` nothing is an option. What the
arguments ask for is decided before anything is done.
-/

namespace Lox.CommandLine

inductive Flag where
  | help | tokens | trees | noColor
  deriving DecidableEq, Repr

namespace Flag

/-- How an option is written. -/
def spellings : Flag → List String
  | help => ["-h", "--help"]
  | tokens => ["--tokens"]
  | trees => ["--ast"]
  | noColor => ["--no-color"]

def all : List Flag := [help, tokens, trees, noColor]

end Flag

def spellings : List (String × Flag) :=
  Flag.all.flatMap fun flag => flag.spellings.map (·, flag)

/-- What one argument is. A long option may have a value attached, although none takes one. What is
attached to the option of one letter, after a `=` or not, is a cluster: its letters may be more such
options. -/
inductive Word where
  | operand (text : String)
  | separator
  | flag (flag : Flag) (attached : Option String)
  | cluster (letters : List Char)
  | unknown (text : String)
  | ambiguous (text : String) (candidates : List String)
  deriving Repr

/-- A text up to its first `=` and after it. -/
def splitValue (text : List Char) : List Char × Option (List Char) :=
  let name := text.takeWhile (· ≠ '=')
  if name.length < text.length then (name, some (text.drop (name.length + 1))) else (text, none)

/-- The long options that a text with two dashes can be the beginning of. -/
def candidates (name : List Char) : List (String × Flag) :=
  spellings.filter fun (spelling, _) => name.isPrefixOf spelling.toList

/-- Whether a text is a negative number, which is an operand. A line feed at its end counts for
nothing. -/
def isNegativeNumber (text : List Char) : Bool :=
  let isDigit (c : Char) : Bool := (Text.digitValue? c).isSome
  match if text.getLast? = some '\n' then text.dropLast else text with
  | '-' :: cs =>
    match cs.dropWhile isDigit with
    | [] => !cs.isEmpty
    | '.' :: places => !places.isEmpty && places.all isDigit
    | _ => false
  | _ => false

/-- Reads an argument that begins with a dash and stands for no option: an operand if it is a
negative number or holds a space. -/
def undashed (text : String) : Word :=
  if isNegativeNumber text.toList || text.toList.contains ' ' then .operand text else .unknown text

/-- Reads an argument that begins with a dash and is not the spelling of an option. -/
def dashed (text : String) : Word :=
  match text.toList with
  | '-' :: 'h' :: '=' :: letters => .cluster letters
  | '-' :: 'h' :: letters => .cluster letters
  | '-' :: '-' :: rest =>
    let (name, value) := splitValue ('-' :: '-' :: rest)
    let value := value.map String.ofList
    match spellings.lookup (String.ofList name), candidates name with
    | some flag, _ => .flag flag value
    | none, [] => undashed text
    | none, [(_, flag)] => .flag flag value
    | none, several => .ambiguous text (several.map (·.1))
  | _ => undashed text

/-- Reads one argument before the `--`. -/
def word (text : String) : Word :=
  match spellings.lookup text with
  | some flag => .flag flag none
  | none => if text.startsWith "-" && text != "-" then dashed text else .operand text

def words : List String → List Word
  | [] => []
  | "--" :: rest => .separator :: rest.map .operand
  | text :: rest => word text :: words rest

/-- What is asked for so far. `settled` tells whether the file has been settled, and `extra` holds
the arguments that nothing is known to do with. -/
structure Arguments where
  file : Option String
  settled : Bool
  tokens : Bool
  trees : Bool
  color : Bool
  extra : List String
  deriving Repr

/-- What the command line asks for. -/
inductive Request where
  | help
  | wrong (message : String)
  | run (arguments : Arguments)
  deriving Repr

/-- A complaint about a value attached to an option. -/
def attachedValue (flag : Flag) (value : String) : Request :=
  .wrong ("argument " ++ "/".intercalate flag.spellings ++ ": ignored explicit argument " ++
    Text.quoted value)

/-- What letters attached to the option for help ask for: help again with each `h`. A letter that
stands for no option makes the rest a value, and so does an empty cluster. -/
def cluster (letters : List Char) : Request :=
  let rest := letters.dropWhile (· = 'h')
  if letters.isEmpty || !rest.isEmpty then attachedValue .help (String.ofList rest) else .help

/-- Takes the file from the operands at the head of a run of them, with the `--` that may stand on
either side of it, and leaves the rest over. -/
def settle (run : List Word) : Option String × List Word :=
  match run with
  | .separator :: .operand file :: rest => (some file, rest)
  | .operand file :: .separator :: rest => (some file, rest)
  | .operand file :: rest => (some file, rest)
  | .separator :: rest => (none, rest)
  | rest => (none, rest)

/-- The argument an operand or a `--` was. -/
def Word.text : Word → String
  | operand text | unknown text | ambiguous text _ => text
  | separator => "--"
  | cluster letters => String.ofList ('-' :: 'h' :: letters)
  | flag f _ => f.spellings.headD ""

def Word.isOperand : Word → Bool
  | operand _ | separator => true
  | _ => false

/-- Takes a run of operands. Only the first run can hold the file. -/
def Arguments.takeRun (a : Arguments) (run : List Word) : Arguments :=
  if a.settled then { a with extra := a.extra ++ run.map (·.text) }
  else
    let (file, rest) := settle run
    { a with file, settled := true, extra := a.extra ++ rest.map (·.text) }

/-- Obeys an option without a value. -/
def Arguments.setFlag (a : Arguments) : Flag → Arguments
  | .help => a
  | .tokens => { a with tokens := true }
  | .trees => { a with trees := true }
  | .noColor => { a with color := false }

/-- Follows the words in order; `run` holds the operands since the last option, last first. -/
def follow (a : Arguments) (run : List Word) : List Word → Request
  | [] =>
    let a := if run.isEmpty then a else a.takeRun run.reverse
    if a.extra.isEmpty then .run a
    else .wrong ("unrecognized arguments: " ++ " ".intercalate a.extra)
  | w :: ws =>
    if w.isOperand then follow a (w :: run) ws
    else
      let a := if run.isEmpty then a else a.takeRun run.reverse
      match w with
      | .flag .help none => .help
      | .cluster letters => cluster letters
      | .flag flag none => follow (a.setFlag flag) [] ws
      | .flag flag (some value) => attachedValue flag value
      | other => follow { a with extra := a.extra ++ [other.text] } [] ws

/-- A text that could be more than one option. -/
def ambiguity? (ws : List Word) : Option Request :=
  ws.findSome? fun
    | .ambiguous text candidates =>
      some (.wrong ("ambiguous option: " ++ text ++ " could match " ++ ", ".intercalate candidates))
    | _ => none

/-- What the arguments ask for. -/
def read (arguments : List String) : Request :=
  let ws := words arguments
  (ambiguity? ws).getD (follow ⟨none, false, false, false, true, []⟩ [] ws)

def usage : String := "usage: lox [-h] [--tokens] [--ast] [--no-color] [file]\n"

def helpText : String :=
  usage ++
  "\nTree-walking interpreter for the lox language.\n" ++
  "\npositional arguments:\n" ++
  "  file        file to interpret and run (if empty, goes to command-line mode)\n" ++
  "\noptions:\n" ++
  "  -h, --help  show this help message and exit\n" ++
  "  --tokens    print scanned tokens before running\n" ++
  "  --ast       print parsed syntax trees before running\n" ++
  "  --no-color  disable colored diagnostics\n"

def exitUsage : Int := 2

/-- The end of the program: its exit code and what it wrote. -/
structure Result where
  exit : Int
  out : String
  err : String
  deriving Repr

/-- A session as the arguments ask for it. -/
def Arguments.session (a : Arguments) (clock : Nat → Float) (limits : Limits) : Session :=
  .new (.new true a.color) a.file ⟨a.tokens, a.trees⟩ clock limits

/-- Runs a file, given its bytes if it can be opened. -/
def runFile (a : Arguments) (path : String) (bytes : Option ByteArray) (clock : Nat → Float)
    (limits : Limits) : Result :=
  let (departure, s) := Session.guard ((a.session clock limits).runFile path bytes)
  let exit :=
    match departure with
    | .left => s.reporter.exitCode
    | .exit code => code.getD 0
    | .raised _ => exitInternal
  ⟨exit, s.machine.out, s.reporter.printed⟩

def runShell (a : Arguments) (input : String) (clock : Nat → Float) (limits : Limits) : Result :=
  let (out, err) := (Shell.new (a.session clock limits)).transcript (Shell.inputLines input)
  ⟨0, out, err⟩

/-- Does what the arguments ask for. `files` gives the bytes of the files that can be opened. -/
def run (arguments : List String) (files : String → Option ByteArray) (input : String)
    (clock : Nat → Float) (limits : Limits := .standard) : Result :=
  match read arguments with
  | .help => ⟨0, helpText, ""⟩
  | .wrong message => ⟨exitUsage, "", usage ++ "lox: error: " ++ message ++ "\n"⟩
  | .run a =>
    match a.file with
    | some path => runFile a path (files path) clock limits
    | none => runShell a input clock limits

end Lox.CommandLine
