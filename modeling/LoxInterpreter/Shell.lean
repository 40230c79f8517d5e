import LoxInterpreter.Session
import LoxInterpreter.Text.Blank
import LoxInterpreter.Token.Continuation

/-!
The shell: a session with a person who types one line after another. Lines that do not make a
complete text yet wait for more.
-/

namespace Lox

inductive Prompt
  | primary
  /-- More lines are needed to complete a text. -/
  | continuation
  deriving DecidableEq, Repr

def Prompt.text : Prompt → String
  | primary => "> "
  | continuation => ". "

/-- A session with a person, and the lines of the text that is being typed. -/
structure Shell where
  session : Session
  /-- The lines that wait for more, each with a newline at its end. -/
  pending : String := ""
  /-- The number of the first line that waits. -/
  pendingLine : Nat := 0
  /-- How many lines of code were typed. -/
  lineCount : Nat := 0
  prompt : Prompt := .primary

namespace Shell

def greeting : String :=
  "Lox interpreter :: Python backend\nType '?' or 'help' for more information."

def helpText : String :=
  "Welcome to the Lox interpreter!\n\n" ++
  "Lox is a small dynamically-typed scripting language with C-like syntax, " ++
  "first-class functions and \n" ++
  "closures. Statements end with ';' and blocks can span several lines.\n\n" ++
  "Try it out by typing 'var greeting = \"hello\";'. " ++
  "Next, try typing 'print greeting + \" world\";'.\n" ++
  "Variables and functions are kept for the rest of the session."

end Shell

abbrev ShellWork := Step Shell Interrupt

namespace ShellWork

def ofSession {α : Type} (work : Work α) : ShellWork α := fun shell =>
  match work shell.session with
  | .ok a s => .ok a { shell with session := s }
  | .error i s => .error i { shell with session := s }

end ShellWork

namespace Shell

open ShellWork

structure Submission where
  text : String
  line : Nat
  deriving DecidableEq, Repr

def submit (submission : Submission) : Work Unit := do
  if ← Session.add submission.text submission.line then
    let _ ← Session.run
    return ()
  else
    return ()

/-- Takes in a line of code: the lines that waited and this one are a submission if they are
complete, and wait if not. -/
def collect (shell : Shell) (line : String) : Option Submission × Shell :=
  let count := shell.lineCount + 1
  let first := if shell.pending.isEmpty then count else shell.pendingLine
  let text := shell.pending ++ line
  if continues text then
    (none, { shell with
      pending := text ++ "\n", pendingLine := first, lineCount := count, prompt := .continuation })
  else
    (some ⟨text, first⟩, { shell with
      pending := "", pendingLine := first, lineCount := count, prompt := .primary })

/-- Takes a line of code. If it completes a text, that is run. -/
def code (line : String) : ShellWork Unit := do
  match ← modifyGet (·.collect line) with
  | none => return ()
  | some submission => ofSession (Work.guarded (submit submission))

inductive Command
  | nothing
  | help
  | exit
  /-- The end of the input. -/
  | finish
  | code (text : String)
  deriving DecidableEq, Repr

namespace Command

def ofWord? (word : List Char) : Option Command :=
  match String.ofList word with
  | "help" => some .help
  | "exit" => some .exit
  | "EOF" => some .finish
  | _ => none

/-- What a line asks for. White space around it does not count. A question mark is short for
`help`, and only the word at the beginning of a line can be a command. -/
def ofLine (line : String) : Command :=
  match Text.trim line.toList with
  | [] => .nothing
  | '?' :: _ => .help
  | text =>
    (ofWord? (text.takeWhile Scan.isWordCharacter)).getD (.code (String.ofList text))

end Command

/-- Takes a line, and tells whether the shell ends. -/
def feed (line : String) : ShellWork Bool := do
  match Command.ofLine line with
  | .nothing => return false
  | .help =>
    ofSession (Work.output [helpText])
    return false
  | .exit => return true
  | .finish =>
    ofSession (Work.output [""])
    return true
  | .code text =>
    code text
    return false

end Shell

end Lox
