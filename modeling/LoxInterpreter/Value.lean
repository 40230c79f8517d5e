import LoxInterpreter.Number.Layout
import LoxInterpreter.Tree

/-!
Values of running programs.
-/

namespace Lox

/-- The number of a scope in the store. -/
abbrev ScopeId := Nat

/-- A function that a program declared, with the scope that it was declared in. Each execution
of a declaration makes a function with an identity of its own. -/
structure Closure where
  identity : Nat
  name : Token
  params : List Token
  body : List Stmt
  scope : ScopeId

inductive Value
  | nil
  | bool (b : Bool)
  | number (x : Float)
  | string (s : String)
  /-- The function that reads the clock, which every program finds predefined. -/
  | clock
  | function (f : Closure)
  deriving Inhabited

namespace Value

def ofLiteral : Literal → Value
  | .nil => nil
  | .bool b => bool b
  | .number x => number x
  | .string s => string s

/-- Only `nil` and `false` count as false. -/
def isTruthy : Value → Bool
  | nil => false
  | bool b => b
  | _ => true

/-- Equality without conversion. Numbers are compared as numbers, so that NaN differs from
itself, and functions by identity. -/
def same : Value → Value → Bool
  | nil, nil => true
  | bool a, bool b => a == b
  | number x, number y => x == y
  | string s, string t => s == t
  | clock, clock => true
  | function f, function g => f.identity == g.identity
  | _, _ => false

def text : Value → String
  | nil => "nil"
  | bool true => "true"
  | bool false => "false"
  | number x => Layout.canonical.text x
  | string s => s
  | clock => "<native fn>"
  | function f => "<fn " ++ f.name.lexeme ++ ">"

/-- How many arguments a value wants to be called with, if it can be called. -/
def arity? : Value → Option Nat
  | clock => some 0
  | function f => some f.params.length
  | _ => none

end Value

end Lox
