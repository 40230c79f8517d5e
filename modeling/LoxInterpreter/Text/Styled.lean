/-!
Styled text: how a terminal is told to show a text in bold and in colour.
-/

namespace Lox.Text

inductive Colour
  | red | yellow
  deriving DecidableEq, Repr

def Colour.code : Colour → String
  | red => "31"
  | yellow => "33"

/-- A way to highlight texts: in bold, and in a colour if there is one. -/
structure Style where
  bold : Option Colour → String → String

namespace Style

def plain : Style where
  bold _ text := text

def escape (code : String) : String := "\x1b[" ++ code ++ "m"

def coloured : Style where
  bold colour text := escape "1" ++ (colour.elim "" fun c => escape c.code) ++ text ++ escape "0"

end Style

end Lox.Text
