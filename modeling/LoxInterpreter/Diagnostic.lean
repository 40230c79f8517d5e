import LoxInterpreter.Token

/-!
Diagnostics: what a person is told about an error, whatever found it.
-/

namespace Lox

inductive Phase
  | lexical | parse | runtime | general
  deriving DecidableEq, Repr, Inhabited

def Phase.exitStatus : Phase → Int
  | lexical => 65
  | parse => 65
  | runtime => 70
  | general => 1

/-- An error as it is shown: its message, the line it is on, the offending text and where that
begins on its line, and a phrase that names the place. An internal error is not the fault of
the program that is run. -/
structure Diagnostic where
  phase : Phase
  line : Option Int
  message : String
  lexeme : String := ""
  context : String := ""
  internal : Bool := false
  column : Option Int := none
  deriving DecidableEq, Repr, Inhabited

namespace Diagnostic

def general (message : String) : Diagnostic where
  phase := .general
  line := none
  message := message

/-- An error located at a token. The end of a text is named as such, since it has no lexeme. -/
def atToken (phase : Phase) (token : Token) (message : String) : Diagnostic where
  phase := phase
  line := some token.line
  message := message
  lexeme := token.lexeme
  context := if token.kind = .eof then " at end" else " at '" ++ token.lexeme ++ "'"
  column := token.column.map Int.ofNat

def text (d : Diagnostic) : String :=
  let start := match d.line with
    | some line => "[line " ++ toString line ++ "] "
    | none => ""
  start ++ "Error" ++ d.context ++ ": " ++ d.message

end Diagnostic

end Lox
