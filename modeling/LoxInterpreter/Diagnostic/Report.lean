import LoxInterpreter.Diagnostic.Excerpt

/-!
Reports: what is written about an error.
-/

namespace Lox

open Text

/-- An error together with what is known about its place: the source that it is taken to be in,
and its line there. -/
structure Report where
  diagnostic : Diagnostic
  path : Option String
  line : Option (List Char)
  deriving DecidableEq, Repr

namespace Report

def place (style : Style) (r : Report) : String :=
  match r.diagnostic.line, r.path with
  | none, _ => ""
  | some n, some path => style.bold none (path ++ ":" ++ toString n ++ ": ")
  | some n, none => style.bold none ("[line " ++ toString n ++ "] ")

def headline (style : Style) (r : Report) : String :=
  r.place style ++
    (if r.diagnostic.internal then style.bold (some .red) "[internal] " else "") ++
    style.bold (some .red) "error" ++ r.diagnostic.context ++ ": " ++ r.diagnostic.message

/-- The source line with the offending text underlined. An internal error is not shown in the
source. -/
def excerpt? (style : Style) (r : Report) : Option String :=
  if r.diagnostic.internal then none
  else r.line.bind (r.diagnostic.excerpt? style)

def text (style : Style) (r : Report) : String :=
  r.headline style ++ "\n" ++
    match r.excerpt? style with
    | some excerpt => excerpt ++ "\n"
    | none => ""

end Report

end Lox
