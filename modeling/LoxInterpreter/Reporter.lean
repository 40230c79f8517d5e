import LoxInterpreter.Diagnostic.Report

/-!
The reporter: it reports errors, remembers that there were some, and decides whether an error
ends the program.
-/

namespace Lox

inductive Interrupt
  | raised (d : Diagnostic)
  | keyboard
  /-- The host has no frames left. -/
  | recursion
  /-- The program ends with a status. -/
  | exit (status : Int)
  /-- An error of the interpreter itself. -/
  | unexpected (kind message : String)
  deriving DecidableEq, Repr

/-- What takes in errors: the sources it knows, and whether there were errors. -/
structure Reporter where
  /-- Whether an error ends the program. -/
  fatal : Bool := true
  /-- The registered sources, the one registered last in front. -/
  sources : List Source := []
  hadError : Bool := false
  hadRuntimeError : Bool := false

structure Reaction where
  reporter : Reporter
  reports : List Report
  interrupt : Option Interrupt

namespace Reporter

def remove (r : Reporter) (path : String) : Reporter :=
  { r with sources := r.sources.filter (·.path != path) }

/-- Registers a source as the last one, in the place of what had its path before. -/
def register (r : Reporter) (source : Source) : Reporter :=
  { r with sources := source :: (r.remove source.path).sources }

def reset (r : Reporter) : Reporter :=
  { r with hadError := false, hadRuntimeError := false }

def remember (r : Reporter) (d : Diagnostic) : Reporter :=
  if d.phase = .runtime then { r with hadRuntimeError := true } else { r with hadError := true }

/-- The source line of an error: errors are taken to be in the source registered last. -/
def line? (r : Reporter) (d : Diagnostic) : Option (List Char) := do
  let source ← r.sources.head?
  let number ← d.line
  source.line? number

def reportOn (r : Reporter) (d : Diagnostic) : Report :=
  ⟨d, r.sources.head?.map Source.path, r.line? d⟩

def report (r : Reporter) (d : Diagnostic) : Reaction :=
  ⟨r.remember d, [r.reportOn d], none⟩

/-- Ends the program if errors are fatal. Otherwise the error is forgotten. -/
def abort (r : Reporter) (status : Int) : Reaction :=
  if r.fatal then ⟨r, [], some (.exit status)⟩ else ⟨r.reset, [], none⟩

def raise (r : Reporter) (d : Diagnostic) : Reaction :=
  { (r.remember d).abort d.phase.exitStatus with reports := [r.reportOn d] }

def unknownError (kind message : String) : Diagnostic :=
  { Diagnostic.general ("unknown error: '" ++ kind ++ ": " ++ message ++ "'") with
    internal := true }

/-- The error that stands for frames that the host has not got. -/
def recursionError : Diagnostic := .general "maximum recursion depth exceeded"

/-- What becomes of something that interrupted the code that the reporter guards. An error of
the interpreter itself is reported, and goes on to interrupt what is outside. -/
def absorb (r : Reporter) : Option Interrupt → Reaction
  | none => ⟨r, [], none⟩
  | some (.raised d) => r.raise d
  | some .keyboard => r.raise (.general "keyboard interrupt")
  | some .recursion => r.raise recursionError
  | some (.exit status) => ⟨r, [], some (.exit status)⟩
  | some (.unexpected kind message) =>
    let reaction := r.raise (unknownError kind message)
    { reaction with interrupt := reaction.interrupt.or (some (.unexpected kind message)) }

end Reporter

end Lox
