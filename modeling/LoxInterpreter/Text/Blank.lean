import LoxInterpreter.Text.Ranges

/-!
White space: the characters that a line is stripped of at both ends.
-/

namespace Lox.Text

/-- The ranges of the characters with the property `White_Space`, and the four information
separators. -/
def blankRanges : List (Nat × Nat) :=
  [(0x09, 0x0D), (0x1C, 0x20), (0x85, 0x85), (0xA0, 0xA0), (0x1680, 0x1680), (0x2000, 0x200A),
    (0x2028, 0x2029), (0x202F, 0x202F), (0x205F, 0x205F), (0x3000, 0x3000)]

def isBlank (c : Char) : Bool := inRanges blankRanges c

def trimEnd (text : List Char) : List Char :=
  text.foldr (fun c rest => if rest.isEmpty && isBlank c then [] else c :: rest) []

def trim (text : List Char) : List Char := trimEnd (text.dropWhile isBlank)

end Lox.Text
