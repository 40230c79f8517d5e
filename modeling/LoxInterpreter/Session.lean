import LoxInterpreter.Machine.Run
import LoxInterpreter.Reporter
import LoxInterpreter.Token.Listing
import LoxInterpreter.Token.Scan
import LoxInterpreter.Tree.Parse
import LoxInterpreter.Tree.Prefix

/-!
Sessions: sources are added one after another, and what was added is run on one machine.
-/

namespace Lox

inductive Event
  | output (text : String)
  | report (r : Report)
  deriving DecidableEq, Repr

def Event.text (style : Text.Style) : Event → String
  | output text => text ++ "\n"
  | report r => r.text style

structure Host where
  limits : Limits := .standard
  /-- How many errors in some tokens are found before the host gives up parsing them, if it does.
  Which frames the parser takes is up to the host. -/
  parseBound : List Token → Option Nat := fun _ => none

structure Session extends Host where
  reporter : Reporter
  machine : Machine
  /-- The name of the source in reports. -/
  path : String
  /-- Whether sources are typed by a person, who goes on after an error. -/
  interactive : Bool
  showTokens : Bool := false
  showTrees : Bool := false
  /-- The statements that wait to be run. -/
  queue : List Stmt := []
  /-- All that was done so far. -/
  log : Array Event := #[]

namespace Session

/-- The path that stands for what is typed by a person. -/
def typed : String := "<in>"

end Session

/-- A step of a session. It changes the session also when it is interrupted. -/
abbrev Work := Step Session Interrupt

namespace Work

def output (texts : List String) : Work Unit := fun s =>
  .ok () { s with log := s.log ++ (texts.map Event.output).toArray }

def outputIf (wanted : Bool) (texts : List String) : Work Unit :=
  if wanted then output texts else return ()

def react (f : Reporter → Reaction) : Work Unit := fun s =>
  let reaction := f s.reporter
  let s := { s with
    reporter := reaction.reporter
    log := s.log ++ (reaction.reports.map Event.report).toArray }
  match reaction.interrupt with
  | none => .ok () s
  | some i => .error i s

def guarded (work : Work Unit) : Work Unit := fun s =>
  match work s with
  | .ok _ s => react (·.absorb none) s
  | .error i s => react (·.absorb (some i)) s

end Work

namespace Session

open Work

/-- What a halt of the machine interrupts, if it is not an error of the program. -/
def halted : Halt → Interrupt
  | .failed e => .raised e.toDiagnostic
  | .unsupported operator => .unexpected "UnsupportedOperator" operator.lexeme
  | .recursion => .recursion
  | .exhausted => .unexpected "Exhausted" "the run is too long"

def reportAll : List Diagnostic → Work Unit
  | [] => return ()
  | d :: ds => do
    react (·.report d)
    reportAll ds

/-- Lists the trees of statements if they are wanted, up to the first for which the host has too
few frames. -/
def listTrees (statements : List Stmt) : Work Unit := do
  let s ← get
  if s.showTrees then
    let fitting := statements.takeWhile (·.textFrames ≤ s.limits.calls.frames)
    output (fitting.map Stmt.text)
    if fitting.length < statements.length then throw .recursion else return ()
  else
    return ()

def enqueue (statements : List Stmt) : Work Unit := fun s =>
  .ok () { s with queue := s.queue ++ statements }

/-- Adds a source whose first line has the number `line`, and tells whether it is well formed.
Its statements wait to be run only if it is. -/
def add (source : String) (line : Int) : Work Bool := do
  modify fun s => { s with reporter := s.reporter.register (.ofText s.path source line) }
  match scan source line with
  | .error failure => throw (.raised failure.error.toDiagnostic)
  | .ok tokens =>
    outputIf (← get).showTokens (tokens.map Token.listing)
    let errors := (parse tokens).errors.map SyntaxError.toDiagnostic
    match (← get).parseBound tokens with
    | some count =>
      reportAll (errors.take count)
      throw .recursion
    | none =>
      reportAll errors
      if errors.isEmpty then
        listTrees (parse tokens).statements
        enqueue (parse tokens).statements
        return true
      else
        react (·.abort Phase.parse.exitStatus)
        return false

/-- Takes all statements out of the queue and runs them. Gives what stopped them, if something
did. -/
def runQueue : Work (Option Halt) := fun s =>
  let (halt, machine) := s.machine.run s.limits s.queue
  .ok halt { s with
    queue := []
    machine := { machine with printed := #[] }
    log := s.log ++ machine.printed.map Event.output }

def run : Work Bool := do
  match ← runQueue with
  | none => return true
  | some (.failed e) =>
    react (·.raise e.toDiagnostic)
    return false
  | some halt => throw (halted halt)

/-- Begins a session. Unless its source is typed, it is the content of the file with its path,
if that can be read. A path with the character of number zero in it is no path at all, and asking
for its file is an error of the interpreter itself. -/
def start (content : Option String) : Work Unit := do
  let s ← get
  if s.interactive then
    modify fun s => { s with reporter := { s.reporter with fatal := false } }
  if s.path = typed then
    if s.interactive then return ()
    else throw (.raised (.general ("'" ++ typed ++ "' is a reserved filename")))
  else if s.path.contains '\x00' then
    throw (.unexpected "ValueError" "embedded null byte")
  else
    match content with
    | none => throw (.raised (.general ("'" ++ s.path ++ "' could not be opened")))
    | some text =>
      let _ ← add (String.ofList (Text.ofFile text.toList)) 1
      return ()

end Session

end Lox
