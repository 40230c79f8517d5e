import LoxInterpreter.Diagnostic
import LoxInterpreter.Step
import LoxInterpreter.Store

/-!
The machine that runs programs: what it remembers, what can go wrong in it, and the actions
that change it.
-/

namespace Lox

inductive RuntimeCause
  | undefinedVariable (name : String)
  | operandNotNumber
  | operandsNotNumbers
  | operandsNotAddable
  | notCallable
  | wrongArity (expected got : Nat)
  | stackOverflow
  deriving DecidableEq, Repr

def RuntimeCause.message : RuntimeCause → String
  | undefinedVariable name => "Undefined variable '" ++ name ++ "'."
  | operandNotNumber => "Operand must be a number."
  | operandsNotNumbers => "Operands must be numbers."
  | operandsNotAddable => "Operands must be two numbers or two strings."
  | notCallable => "Can only call functions and classes."
  | wrongArity expected got =>
    "Expected " ++ toString expected ++ " arguments but got " ++ toString got ++ "."
  | stackOverflow => "Stack overflow."

structure RuntimeError where
  token : Token
  cause : RuntimeCause

def RuntimeError.toDiagnostic (e : RuntimeError) : Diagnostic :=
  Diagnostic.atToken .runtime e.token e.cause.message

inductive Halt
  /-- The program made an error. -/
  | failed (e : RuntimeError)
  /-- A tree has an operator that the parser puts at no such place. -/
  | unsupported (operator : Token)
  /-- The host has no frames left. -/
  | recursion
  /-- The bound on the length of runs was reached. -/
  | exhausted

structure Machine where
  store : Store
  /-- The scope that the program is in. -/
  current : ScopeId
  /-- The texts that were printed, the first one first. -/
  printed : Array String
  /-- How many functions were made. -/
  functions : Nat
  /-- What the clock shows each time it is read. -/
  clock : Nat → Float
  /-- How often the clock was read. -/
  readings : Nat

def Machine.start (clock : Nat → Float) : Machine where
  store := .initial
  current := Store.globals
  printed := #[]
  functions := 0
  clock := clock
  readings := 0

/-- A part of a run. It changes the machine also when it halts. -/
abbrev Run := Step Machine Halt

namespace Run

def fail {α : Type} (token : Token) (cause : RuntimeCause) : Run α :=
  throw (.failed ⟨token, cause⟩)

def get (name : Token) : Run Value := fun m =>
  match m.store.get? m.current name.lexeme with
  | some v => .ok v m
  | none => .error (.failed ⟨name, .undefinedVariable name.lexeme⟩) m

def assign (name : Token) (v : Value) : Run Unit := fun m =>
  match m.store.resolve name.lexeme m.current with
  | some owner => .ok () { m with store := m.store.define owner name.lexeme v }
  | none => .error (.failed ⟨name, .undefinedVariable name.lexeme⟩) m

def define (name : Token) (v : Value) : Run Unit := fun m =>
  .ok () { m with store := m.store.define m.current name.lexeme v }

def makeFunction (name : Token) (params : List Token) (body : List Stmt) : Run Value := fun m =>
  .ok (.function ⟨m.functions, name, params, body, m.current⟩)
    { m with functions := m.functions + 1 }

def print (text : String) : Run Unit := fun m =>
  .ok () { m with printed := m.printed.push text }

def readClock : Run Value := fun m =>
  .ok (.number (m.clock m.readings)) { m with readings := m.readings + 1 }

/-- Runs `body` in a new scope, and returns to the scope before, however that ends. -/
def inScope {α : Type} (bindings : List (String × Value)) (enclosing : ScopeId)
    (body : Run α) : Run α := fun m =>
  let before := m.current
  let (id, store) := m.store.openScope bindings (some enclosing)
  match body { m with store := store, current := id } with
  | .ok a m => .ok a { m with current := before }
  | .error e m => .error e { m with current := before }

def inBlock {α : Type} (body : Run α) : Run α := fun m =>
  inScope [] m.current body m

end Run

end Lox
