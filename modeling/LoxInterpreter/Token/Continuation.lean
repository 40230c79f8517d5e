import LoxInterpreter.Token.Scan

/-!
Texts that go on: whether what was typed so far is complete.
-/

namespace Lox

/-- How many braces are open after some tokens: closing braces can outnumber opening ones. -/
def braceDepth (tokens : List Token) : Int :=
  tokens.foldl (fun depth t =>
    match t.kind with
    | .leftBrace => depth + 1
    | .rightBrace => depth - 1
    | _ => depth) 0

def ScanCause.isUnterminated : ScanCause → Bool
  | unexpectedCharacter _ => false
  | unterminatedString => true
  | unterminatedComment => true

def continues (text : String) : Bool :=
  match scan text 1 with
  | .error failure => failure.error.cause.isUnterminated
  | .ok tokens => 0 < braceDepth tokens

end Lox
