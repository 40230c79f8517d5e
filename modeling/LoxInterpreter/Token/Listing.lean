import LoxInterpreter.Number.Layout
import LoxInterpreter.Token

/-!
Listings of tokens, one token a line.
-/

namespace Lox

/-- A literal as a listing shows it: a string is bare, and a number is written so that its
type can be seen. -/
def Literal.listing : Literal → String
  | nil => "nil"
  | bool true => "true"
  | bool false => "false"
  | number x => Layout.listing.text x
  | string s => s

def Token.listing (t : Token) : String :=
  t.kind.label ++ " " ++ t.lexeme ++ " " ++ t.literal.listing

end Lox
