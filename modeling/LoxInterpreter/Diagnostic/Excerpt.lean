import LoxInterpreter.Diagnostic
import LoxInterpreter.Text.Lines
import LoxInterpreter.Text.Slice
import LoxInterpreter.Text.Styled

/-!
Excerpts: the source line of an error, with the offending text highlighted and underlined.
-/

namespace Lox

open Text

structure Source where
  path : String
  firstLine : Int
  lines : List (List Char)

namespace Source

def ofText (path text : String) (firstLine : Int) : Source :=
  ⟨path, firstLine, Text.lines text.toList⟩

def line? (s : Source) (number : Int) : Option (List Char) :=
  let index := number - s.firstLine
  if 0 ≤ index then s.lines[index.toNat]? else none

end Source

namespace Diagnostic

/-- The first line of the offending text, which is what can be found in a source line. -/
def target (d : Diagnostic) : List Char :=
  d.lexeme.toList.takeWhile (· != '\n')

/-- Where the offending text stands in a source line: at the column of the error, or else at
its first occurrence. -/
def position? (d : Diagnostic) (line : List Char) : Option Int :=
  let found := (find? d.target line).map Int.ofNat
  match d.column with
  | none => found
  | some column =>
    if slice line column (column + d.target.length) = d.target then some column else found

/-- A source line with the offending text highlighted, and a line below that underlines it.
There is none if the line does not have that text. -/
def excerpt? (style : Style) (d : Diagnostic) (line : List Char) : Option String := do
  let target := d.target
  if target.isEmpty then none
  else
    let start ← d.position? line
    let stop := start + target.length
    let marked := style.bold (some .yellow) (String.ofList (slice line start stop))
    let underline := style.bold (some .yellow)
      (String.ofList ('^' :: List.replicate (target.length - 1) '~'))
    return "  " ++ String.ofList (line.take (offset line.length start)) ++ marked ++
      String.ofList (line.drop (offset line.length stop)) ++ "\n" ++
      "  " ++ String.ofList (List.replicate start.toNat ' ') ++ underline

end Diagnostic

end Lox
