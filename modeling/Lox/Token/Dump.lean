import Lox.Token
import Lox.Text.Quoted
import Lox.Number.Shortest

/-!
How a token is shown when tokens are listed: its kind, its characters in quotes, the value it stands
for and its line.
-/

namespace Lox

/-- A literal as dumps show it. -/
def Literal.inspect : Literal → String
  | nil => "None"
  | bool b => if b then "True" else "False"
  | number x => Number.dump x
  | string s => Text.quoted s

/-- A token as dumps show it, with the text of its value given. -/
def Token.dumpWith (t : Token) (literal : String) : String :=
  t.kind.name ++ " " ++ Text.quoted t.lexeme ++ " " ++ literal ++
    " (line " ++ toString t.line ++ ")"

/-- A token as dumps show it. -/
def Token.dump (t : Token) : String := t.dumpWith t.literal.inspect

end Lox
