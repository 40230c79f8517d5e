import LoxInterpreter.Value

/-!
The prefix form of trees: every node stands in parentheses, with what it is in front of its
parts, as in `(* (- 123) (group 45.67))`. To find it takes frames of the host, more of them the
deeper a tree is.
-/

namespace Lox

def parenthesize (head : String) (parts : List String) : String :=
  "(" ++ head ++ String.join (parts.map (" " ++ ·)) ++ ")"

mutual

def Expr.text : Expr → String
  | .literal v => (Value.ofLiteral v).text
  | .grouping e => parenthesize "group" [e.text]
  | .unary op e => parenthesize op.lexeme [e.text]
  | .binary l op r => parenthesize op.lexeme [l.text, r.text]
  | .logical l op r => parenthesize op.lexeme [l.text, r.text]
  | .variable name => name.lexeme
  | .assign name e => parenthesize "=" [name.lexeme, e.text]
  | .call callee _ args => parenthesize "call" (callee.text :: Expr.texts args)

def Expr.texts : List Expr → List String
  | [] => []
  | e :: es => e.text :: Expr.texts es

end

mutual

def Stmt.text : Stmt → String
  | .expression e => parenthesize ";" [e.text]
  | .print e => parenthesize "print" [e.text]
  | .var name none => parenthesize "var" [name.lexeme]
  | .var name (some e) => parenthesize "var" [name.lexeme, e.text]
  | .block body => parenthesize "block" (Stmt.texts body)
  | .conditional c t none => parenthesize "if" [c.text, t.text]
  | .conditional c t (some e) => parenthesize "if" [c.text, t.text, e.text]
  | .loop c body => parenthesize "while" [c.text, body.text]
  | .function name params body =>
    parenthesize "fun" (name.lexeme :: ("(" ++ " ".intercalate (params.map Token.lexeme) ++ ")")
      :: Stmt.texts body)
  | .result _ none => parenthesize "return" []
  | .result _ (some e) => parenthesize "return" [e.text]

def Stmt.texts : List Stmt → List String
  | [] => []
  | s :: ss => s.text :: Stmt.texts ss

end

mutual

/-- How many frames the host needs for the prefix form of an expression: one for each node on the
way to a leaf, and one more for its parentheses. -/
def Expr.textFrames : Expr → Nat
  | .literal _ | .variable _ => 1
  | .grouping e | .unary _ e | .assign _ e => e.textFrames + 2
  | .binary l _ r | .logical l _ r => max l.textFrames r.textFrames + 2
  | .call callee _ args => max callee.textFrames (Expr.mostTextFrames args) + 2

def Expr.mostTextFrames : List Expr → Nat
  | [] => 0
  | e :: es => max e.textFrames (Expr.mostTextFrames es)

end

mutual

def Stmt.textFrames : Stmt → Nat
  | .var _ none => 2
  | .result _ none => 1
  | .expression e | .print e | .var _ (some e) | .result _ (some e) => e.textFrames + 2
  | .block body | .function _ _ body => Stmt.mostTextFrames body + 2
  | .conditional c t none => max c.textFrames t.textFrames + 2
  | .conditional c t (some e) => max c.textFrames (max t.textFrames e.textFrames) + 2
  | .loop c body => max c.textFrames body.textFrames + 2

def Stmt.mostTextFrames : List Stmt → Nat
  | [] => 0
  | s :: ss => max s.textFrames (Stmt.mostTextFrames ss)

end

end Lox
