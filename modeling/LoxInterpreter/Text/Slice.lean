/-!
Parts of a text by position.
-/

namespace Lox.Text

/-- The number of characters before a position in a text of `size` characters. A negative
position counts from the end of the text. -/
def offset (size : Nat) (position : Int) : Nat :=
  if position < 0 then (size + position).toNat else min position.toNat size

def slice (text : List Char) (start stop : Int) : List Char :=
  (text.take (offset text.length stop)).drop (offset text.length start)

def find? (part : List Char) : List Char → Option Nat
  | [] => if part.isEmpty then some 0 else none
  | c :: cs =>
    if part.isPrefixOf (c :: cs) then some 0 else (find? part cs).map (· + 1)

end Lox.Text
