import LoxInterpreter.Machine.Run
import LoxInterpreter.Tree.Parse

/-!
Bare forms. A bare token has no place, and whatever is made of tokens has a bare form, in which all
of its tokens are bare. Two things have the same bare form exactly if they differ in nothing but
places.
-/

namespace Lox

def Token.bare (t : Token) : Token := { t with line := 0, column := none }

@[simp] theorem Token.kind_bare (t : Token) : t.bare.kind = t.kind := rfl

@[simp] theorem Token.lexeme_bare (t : Token) : t.bare.lexeme = t.lexeme := rfl

@[simp] theorem Token.literal_bare (t : Token) : t.bare.literal = t.literal := rfl

/-- A diagnostic without its place. It keeps the phrase that names the place. -/
def Diagnostic.bare (d : Diagnostic) : Diagnostic := { d with line := none, column := none }

mutual

def Expr.bare : Expr → Expr
  | .literal v => .literal v
  | .grouping e => .grouping e.bare
  | .unary op right => .unary op.bare right.bare
  | .binary left op right => .binary left.bare op.bare right.bare
  | .logical left op right => .logical left.bare op.bare right.bare
  | .variable name => .variable name.bare
  | .assign name value => .assign name.bare value.bare
  | .call callee paren arguments => .call callee.bare paren.bare (bareAll arguments)

def Expr.bareAll : List Expr → List Expr
  | [] => []
  | e :: es => e.bare :: bareAll es

end

theorem Expr.bareAll_eq_map (es : List Expr) : bareAll es = es.map bare := by
  induction es with
  | nil => rfl
  | cons e es ih => rw [bareAll, ih, List.map_cons]

theorem Expr.bare_call (callee : Expr) (paren : Token) (arguments : List Expr) :
    (call callee paren arguments).bare = call callee.bare paren.bare (arguments.map bare) := by
  rw [bare, bareAll_eq_map]

mutual

def Stmt.bare : Stmt → Stmt
  | .expression e => .expression e.bare
  | .print e => .print e.bare
  | .var name initializer => .var name.bare (initializer.map Expr.bare)
  | .block body => .block (bareAll body)
  | .conditional condition thenBranch none => .conditional condition.bare thenBranch.bare none
  | .conditional condition thenBranch (some elseBranch) =>
    .conditional condition.bare thenBranch.bare (some elseBranch.bare)
  | .loop condition body => .loop condition.bare body.bare
  | .function name params body => .function name.bare (params.map Token.bare) (bareAll body)
  | .result keyword value => .result keyword.bare (value.map Expr.bare)

def Stmt.bareAll : List Stmt → List Stmt
  | [] => []
  | s :: ss => s.bare :: bareAll ss

end

theorem Stmt.bareAll_eq_map (ss : List Stmt) : bareAll ss = ss.map bare := by
  induction ss with
  | nil => rfl
  | cons s ss ih => rw [bareAll, ih, List.map_cons]

theorem Stmt.bare_block (body : List Stmt) : (block body).bare = block (body.map bare) := by
  rw [bare, bareAll_eq_map]

theorem Stmt.bare_function (name : Token) (params : List Token) (body : List Stmt) :
    (function name params body).bare =
      function name.bare (params.map Token.bare) (body.map bare) := by
  rw [bare, bareAll_eq_map]

theorem Stmt.bare_conditional (condition : Expr) (thenBranch : Stmt) (elseBranch : Option Stmt) :
    (conditional condition thenBranch elseBranch).bare =
      conditional condition.bare thenBranch.bare (elseBranch.map bare) := by
  cases elseBranch <;> rfl

def SyntaxError.bare (e : SyntaxError) : SyntaxError := ⟨e.token.bare, e.cause⟩

def Parse.State.bare (s : State) : State :=
  ⟨s.rest.map Token.bare, s.errors.map SyntaxError.bare, s.depth⟩

def Closure.bare (f : Closure) : Closure where
  identity := f.identity
  name := f.name.bare
  params := f.params.map Token.bare
  body := f.body.map Stmt.bare
  scope := f.scope

def Value.bare : Value → Value
  | .function f => .function f.bare
  | v => v

def bareBindings (bindings : List (String × Value)) : List (String × Value) :=
  bindings.map fun b => (b.1, b.2.bare)

def Scope.bare (s : Scope) : Scope := ⟨bareBindings s.bindings, s.enclosing⟩

def Store.bare (s : Store) : Store := ⟨s.scopes.map Scope.bare⟩

def Machine.bare (m : Machine) : Machine := { m with store := m.store.bare }

def Completion.bare : Completion → Completion
  | .normal => .normal
  | .returned v => .returned v.bare

def RuntimeError.bare (e : RuntimeError) : RuntimeError := ⟨e.token.bare, e.cause⟩

def Halt.bare : Halt → Halt
  | .failed e => .failed e.bare
  | .unsupported op => .unsupported op.bare
  | .recursion => .recursion
  | .exhausted => .exhausted

end Lox
