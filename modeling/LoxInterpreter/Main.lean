import LoxInterpreter.Program
import Std.Time.DateTime.Timestamp

/-!
The program: it runs a file, or a shell if there is none.
-/

namespace Lox

def usage : String := "usage: lox [-h] [--tokens] [--ast] [file]"

def readContent (path : String) : IO (Option String) := do
  try
    return some (← IO.FS.readFile path)
  catch _ =>
    return none

/-- The seconds since the beginning of 1970. A program reads them from a clock that stands
still while it runs. -/
def readTime : IO (Nat → Float) := do
  let now ← Std.Time.Timestamp.now
  let seconds := Float.ofInt now.toNanosecondsSinceUnixEpoch.val / 1e9
  return fun _ => seconds

/-- Asks for one line after another, up to one that ends the shell. -/
partial def talk (shell : Shell) : IO Int := do
  let stdin ← IO.getStdin
  let stdout ← IO.getStdout
  stdout.putStr shell.prompt.text
  stdout.flush
  let line ← stdin.getLine
  let shell := shell.withClock (← readTime)
  let (text, following) := shell.turn .plain (if line.isEmpty then Shell.lastLine else line)
  stdout.putStr text
  match following with
  | .ended status => return status
  | .next shell => talk shell

def carryOut : Request → IO Int
  | .misuse => do
    (← IO.getStderr).putStrLn usage
    return 2
  | .help => do
    IO.println usage
    return 0
  | .run o => do
    let clock ← readTime
    match o.file with
    | some path => do
      let (text, status) := o.runFile .plain clock (← readContent path)
      IO.print text
      return status
    | none => do
      IO.println Shell.greeting
      talk (Shell.begin o clock)

end Lox

def main (words : List String) : IO UInt32 := do
  let status ← Lox.carryOut (Lox.Request.ofCommandLine words)
  return status.toNat.toUInt32
