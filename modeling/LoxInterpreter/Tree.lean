import LoxInterpreter.Token

/-!
Syntax trees. They keep the tokens that later errors are located at.
-/

namespace Lox

inductive Expr
  | literal (value : Literal)
  | grouping (inner : Expr)
  | unary (operator : Token) (right : Expr)
  | binary (left : Expr) (operator : Token) (right : Expr)
  /-- An `and` or an `or`, whose right operand may not be needed. -/
  | logical (left : Expr) (operator : Token) (right : Expr)
  | variable (name : Token)
  | assign (name : Token) (value : Expr)
  /-- A call, with the parenthesis that closes it. -/
  | call (callee : Expr) (paren : Token) (arguments : List Expr)
  deriving Inhabited

inductive Stmt
  /-- An expression of which only the effects count. -/
  | expression (e : Expr)
  | print (e : Expr)
  | var (name : Token) (initializer : Option Expr)
  | block (body : List Stmt)
  /-- An `if`, perhaps with an `else`. -/
  | conditional (condition : Expr) (thenBranch : Stmt) (elseBranch : Option Stmt)
  /-- A `while`. A `for` is a `while` with its clauses around it. -/
  | loop (condition : Expr) (body : Stmt)
  | function (name : Token) (params : List Token) (body : List Stmt)
  /-- A `return`, with its keyword. -/
  | result (keyword : Token) (value : Option Expr)
  deriving Inhabited

end Lox
