import Lox.Text.Trim

/-!
Lines of text.

`lines` cuts a text at every line boundary, of which there are ten characters and the pair of a
carriage return and a line feed; a boundary ends a line and is not part of it. `newlines` is the
narrower reading of a text file, where a carriage return, alone or before a line feed, stands for a
line feed and no other character is touched.
-/

namespace Lox.Text

/-- The characters that end a line. -/
def isBreak (c : Char) : Bool :=
  let n := c.toNat
  (0xA ≤ n && n ≤ 0xD) || (0x1C ≤ n && n ≤ 0x1E) || n == 0x85 || n == 0x2028 || n == 0x2029

/-- The lines of a text, given those already closed and the open one, both last first. -/
def linesFrom (closed : List String) (line : List Char) : List Char → List String
  | [] => (if line.isEmpty then closed else String.ofList line.reverse :: closed).reverse
  | '\r' :: '\n' :: cs => linesFrom (String.ofList line.reverse :: closed) [] cs
  | c :: cs =>
    if isBreak c then linesFrom (String.ofList line.reverse :: closed) [] cs
    else linesFrom closed (c :: line) cs

def lines (text : String) : List String :=
  linesFrom [] [] text.toList

/-- A text file's characters, with every way to end a line read as a line feed. -/
def newlinesFrom (done : List Char) : List Char → List Char
  | [] => done.reverse
  | '\r' :: '\n' :: cs => newlinesFrom ('\n' :: done) cs
  | c :: cs => newlinesFrom ((if c = '\r' then '\n' else c) :: done) cs

/-- A text with every way to end a line read as a line feed. -/
def newlines (text : String) : String :=
  String.ofList (newlinesFrom [] text.toList)

/-- A line without the carriage returns and line feeds that end it. -/
def dropLineEnd (line : String) : String :=
  String.ofList (trimEnd (fun c => c = '\n' || c = '\r') line.toList)

end Lox.Text
