/-!
Lines of a text. Many characters end a line; a carriage return and a newline after it end it
together.
-/

namespace Lox.Text

/-- The characters that end a line: newline, vertical tab, form feed, carriage return, the
file, group and record separators, next line, and the line and paragraph separators. -/
def lineEnds : List Char :=
  ['\n', '\x0b', '\x0c', '\r', '\x1c', '\x1d', '\x1e', '\u0085', '\u2028', '\u2029']

def isLineEnd (c : Char) : Bool := lineEnds.contains c

def dropLine (text : List Char) : List Char :=
  match text.dropWhile (!isLineEnd ·) with
  | '\r' :: '\n' :: rest => rest
  | _ :: rest => rest
  | [] => []

theorem length_dropLine_lt (c : Char) (cs : List Char) :
    (dropLine (c :: cs)).length < (c :: cs).length := by
  have h : ((c :: cs).dropWhile (!isLineEnd ·)).length ≤ (c :: cs).length :=
    (List.dropWhile_sublist _).length_le
  unfold dropLine
  split
  next heq =>
    rw [heq, List.length_cons, List.length_cons] at h
    omega
  next heq =>
    rw [heq, List.length_cons] at h
    omega
  next => exact Nat.succ_pos _

/-- The lines of a text, without what ends them. The end of a line begins no other one, so that
the last line is there only if it has characters. -/
def lines : List Char → List (List Char)
  | [] => []
  | c :: cs => (c :: cs).takeWhile (!isLineEnd ·) :: lines (dropLine (c :: cs))
termination_by text => text.length
decreasing_by exact length_dropLine_lt c cs

/-- A text as it is read from a file: a carriage return ends a line as a newline does, alone or
with a newline after it. The text is read from its end, and the flag says whether a newline
comes next. -/
def ofFile (text : List Char) : List Char :=
  (text.foldr (fun c (newlineNext, rest) =>
    if c == '\r' then (false, if newlineNext then rest else '\n' :: rest)
    else (c == '\n', c :: rest)) (false, [])).2

end Lox.Text
