import LoxInterpreter.CommandLine
import LoxInterpreter.Shell

/-!
The program as a whole: what it writes and the status at its end, for a file and for lines that
are typed to a shell.
-/

namespace Lox

namespace Options

def session (o : Options) (clock : Nat → Float) (host : Host := {}) : Session where
  toHost := host
  reporter := {}
  machine := .start clock
  path := o.file.getD Session.typed
  interactive := o.file.isNone
  showTokens := o.showTokens
  showTrees := o.showTrees

end Options

namespace Session

def transcript (style : Text.Style) (s : Session) : String :=
  String.join (s.log.toList.map (Event.text style))

def runFile (content : Option String) : Work Unit :=
  Work.guarded do
    start content
    let _ ← run
    return ()

end Session

def Interrupt.status : Interrupt → Int
  | .exit status => status
  | _ => 1

/-- Runs a file. Gives all that goes to the terminal, and the status at the end. -/
def Options.runFile (o : Options) (style : Text.Style) (clock : Nat → Float)
    (content : Option String) (host : Host := {}) : String × Int :=
  match Session.runFile content (o.session clock host) with
  | .ok _ s => (s.transcript style, 0)
  | .error i s => (s.transcript style, i.status)

inductive Turn
  | next (shell : Shell)
  | ended (status : Int)

namespace Shell

def begin (o : Options) (clock : Nat → Float) (host : Host := {}) : Shell :=
  match Session.start none (o.session clock host) with
  | .ok _ s => { session := s }
  | .error _ s => { session := s }

def withClock (shell : Shell) (clock : Nat → Float) : Shell :=
  { shell with session :=
      { shell.session with machine := { shell.session.machine with clock := clock } } }

def turn (style : Text.Style) (shell : Shell) (line : String) : String × Turn :=
  match feed line { shell with session := { shell.session with log := #[] } } with
  | .ok true shell => (shell.session.transcript style, .ended 0)
  | .ok false shell => (shell.session.transcript style, .next shell)
  | .error i shell => (shell.session.transcript style, .ended i.status)

/-- The line that stands for the end of the input. -/
def lastLine : String := "EOF"

/-- Takes one line after another, with a prompt in front of each, up to one that ends the
shell. -/
def converse (style : Text.Style) (shell : Shell) : List String → String × Int
  | [] => ("", 0)
  | line :: lines =>
    let (text, following) := shell.turn style line
    match following with
    | .ended status => (shell.prompt.text ++ text, status)
    | .next following =>
      let (more, status) := following.converse style lines
      (shell.prompt.text ++ text ++ more, status)

end Shell

def Options.runShell (o : Options) (style : Text.Style) (clock : Nat → Float)
    (lines : List String) (host : Host := {}) : String × Int :=
  let (text, status) := (Shell.begin o clock host).converse style (lines ++ [Shell.lastLine])
  (Shell.greeting ++ "\n" ++ text, status)

end Lox
