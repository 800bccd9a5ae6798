import Lox.CommandLine

/-!
The program: reads the file or the lines that the arguments ask for, and writes what comes of them.
-/

namespace Lox.Terminal

open CommandLine

def write (out err : String) : IO Unit := do
  (← IO.getStdout).putStr out
  (← IO.getStdout).flush
  (← IO.getStderr).putStr err

def dropLineFeed (line : String) : String :=
  if line.endsWith "\n" then String.ofList line.toList.dropLast else line

/-- Talks until the shell stops. -/
partial def talk (shell : Shell) (input : IO.FS.Stream) : IO Unit := do
  write shell.prompt ""
  let line ← input.getLine
  let (reply, shell) := shell.feed (if line.isEmpty then "EOF" else dropLineFeed line)
  write (reply.text ++ reply.out) reply.err
  unless reply.stop do talk shell input

end Lox.Terminal

open Lox CommandLine Terminal in
def main (arguments : List String) : IO UInt32 := do
  let started ← IO.monoMsNow
  let clock (n : Nat) : Float := (started + n).toFloat
  let result ← match read arguments with
    | .run a =>
      match a.file with
      | none => do
        write (Shell.intro ++ "\n") ""
        talk (Shell.new (a.session clock .standard)) (← IO.getStdin)
        pure ⟨0, "", ""⟩
      | some path => do
        let bytes ← try some <$> IO.FS.readBinFile path catch _ => pure none
        pure (runFile a path bytes clock .standard)
    | _ => pure (run arguments (fun _ => none) "" clock)
  write result.out result.err
  return result.exit.toNat.toUInt32
