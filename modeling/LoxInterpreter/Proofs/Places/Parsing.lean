import LoxInterpreter.Proofs.Places.Bare
import LoxInterpreter.Proofs.Places.Mirrors

/-!
Parsing bare tokens. Parsers decide by the kinds of tokens only, so from bare tokens every parser
makes the bare form of what it makes from the tokens themselves, also where it skips malformed ones.
-/

namespace Lox

namespace Parse

variable {α β : Type}

abbrev Mirrors (f : α → β) (p : Parser α) (q : Parser β) : Prop := Step.Mirrors State.bare id f p q

theorem skipFrom_bare (last : Token) (ts : List Token) :
    skipFrom last.bare (ts.map Token.bare) = (skipFrom last ts).map Token.bare := by
  induction ts generalizing last with
  | nil => rfl
  | cons t ts ih =>
    rw [List.map_cons, skipFrom, skipFrom, Token.kind_bare, Token.kind_bare]
    split
    · rfl
    · exact ih t

theorem resynchronize_bare (ts : List Token) :
    resynchronize (ts.map Token.bare) = (resynchronize ts).map Token.bare := by
  cases ts with
  | nil => rfl
  | cons t ts =>
    rw [List.map_cons, resynchronize, resynchronize, Token.kind_bare]
    split
    · rfl
    · exact skipFrom_bare t ts

theorem mirrors_peek : Mirrors Token.bare peek peek := by
  rintro ⟨_ | ⟨t, ts⟩, errors, depth⟩ <;> rfl

theorem mirrors_advance : Mirrors id advance advance := by
  rintro ⟨_ | ⟨t, ts⟩, errors, depth⟩ <;> rfl

theorem mirrors_note (t : Token) (cause : SyntaxCause) :
    Mirrors id (note t cause) (note t.bare cause) := by
  intro s
  simp [note, State.bare, Step.image, SyntaxError.bare]

theorem mirrors_fail {f : α → β} (t : Token) (cause : SyntaxCause) :
    Mirrors f (fail t cause) (fail t.bare cause) :=
  .bind (mirrors_note t cause) fun _ => .throw _

theorem mirrors_check (k : Kind) : Mirrors id (check k) (check k) :=
  .bind mirrors_peek fun _ => .pure _

theorem mirrors_acceptWhen (right : Kind → Bool) :
    Mirrors (Option.map Token.bare) (acceptWhen right) (acceptWhen right) := by
  refine .bind mirrors_peek fun t => .ite _ ?_ (.pure none)
  exact .bind mirrors_advance fun _ => .pure (some t)

theorem mirrors_accept (k : Kind) : Mirrors (Option.map Token.bare) (accept k) (accept k) :=
  mirrors_acceptWhen _

theorem mirrors_expect (e : Expectation) : Mirrors Token.bare (expect e) (expect e) := by
  refine .bind mirrors_peek fun t => .ite _ ?_ (mirrors_fail t _)
  exact .bind mirrors_advance fun _ => .pure t

theorem mirrors_limit (count : Nat) (cause : SyntaxCause) :
    Mirrors id (limit count cause) (limit count cause) :=
  .ite _ (.bind mirrors_peek fun t => mirrors_note t cause) (.pure ())

theorem mirrors_afterOptional {f : α → β} {p : Parser α} {q : Parser β} (k : Kind)
    (hp : Mirrors f p q) : Mirrors (Option.map f) (afterOptional k p) (afterOptional k q) := by
  refine .bind (mirrors_accept k) fun t => ?_
  cases t with
  | some t => exact .map hp fun _ => rfl
  | none => exact .pure none

theorem mirrors_unlessNext {f : α → β} {p : Parser α} {q : Parser β} (k : Kind)
    (hp : Mirrors f p q) : Mirrors (Option.map f) (unlessNext k p) (unlessNext k q) :=
  .bind (mirrors_check k) fun _ => .ite _ (.pure none) (.map hp fun _ => rfl)

theorem mirrors_listBeforeParen {f : α → β} {p : Parser (List α)} {q : Parser (List β)}
    (hp : Mirrors (List.map f) p q) :
    Mirrors (List.map f) (listBeforeParen p) (listBeforeParen q) :=
  .bind (mirrors_check .rightParen) fun _ => .ite _ (.pure []) hp

theorem mirrors_inFunction {f : α → β} {p : Parser α} {q : Parser β} (hp : Mirrors f p q) :
    Mirrors f (inFunction p) (inFunction q) := by
  intro s
  have hbody := hp { s with depth := s.depth + 1 }
  unfold inFunction
  rw [show { s.bare with depth := s.bare.depth + 1 } = State.bare { s with depth := s.depth + 1 }
    from rfl, hbody]
  cases p { s with depth := s.depth + 1 } <;> rfl

theorem mirrors_rejectTopLevel (keyword : Token) :
    Mirrors id (rejectTopLevel keyword) (rejectTopLevel keyword.bare) :=
  fun s => by
    rw [rejectTopLevel_apply, rejectTopLevel_apply]
    exact Step.Mirrors.ite _ (mirrors_note keyword _) (.pure ()) s

theorem mirrors_recovering {f : α → β} {p : Parser α} {q : Parser β} (hp : Mirrors f p q) :
    Mirrors (Option.map f) (recovering p) (recovering q) := by
  intro s
  unfold recovering
  rw [hp s]
  cases p s with
  | ok a s' => rfl
  | error e s' =>
    cases e with
    | malformed => simp [Step.image, State.bare, resynchronize_bare]
    | noToken => rfl
    | exhausted => rfl

theorem mirrors_parameters (fuel count : Nat) :
    Mirrors (List.map Token.bare) (parameters fuel count) (parameters fuel count) := by
  induction fuel generalizing count with
  | zero => exact .throw _
  | succ fuel ih =>
    refine .bind (mirrors_limit count _) fun _ => .bind (mirrors_expect _) fun name => ?_
    refine .bind (mirrors_accept .comma) fun comma => ?_
    cases comma with
    | some _ => exact .bind (ih (count + 1)) fun names => .pure (name :: names)
    | none => exact .pure [name]

theorem Level.join_bare (l : Level) (left : Expr) (op : Token) (right : Expr) :
    l.join left.bare op.bare right.bare = (l.join left op right).bare := by
  cases l <;> rfl

structure MirrorsExpressions (fuel : Nat) : Prop where
  expression : Mirrors Expr.bare (expression fuel) (expression fuel)
  chain (l : Level) : Mirrors Expr.bare (chain fuel l) (chain fuel l)
  chainAfter (l : Level) (left : Expr) :
    Mirrors Expr.bare (chainAfter fuel l left) (chainAfter fuel l left.bare)
  operand (l : Level) : Mirrors Expr.bare (operand fuel l) (operand fuel l)
  unary : Mirrors Expr.bare (unary fuel) (unary fuel)
  callAfter (callee : Expr) :
    Mirrors Expr.bare (callAfter fuel callee) (callAfter fuel callee.bare)
  arguments (count : Nat) :
    Mirrors (List.map Expr.bare) (arguments fuel count) (arguments fuel count)
  primary : Mirrors Expr.bare (primary fuel) (primary fuel)

namespace MirrorsExpressions

variable {fuel : Nat}

theorem step_expression (ih : MirrorsExpressions fuel) :
    Mirrors Expr.bare (Parse.expression (fuel + 1)) (Parse.expression (fuel + 1)) := by
  refine .bind (ih.chain .disjunction) fun target => .bind (mirrors_accept .equal) fun equals => ?_
  cases equals with
  | none => exact .pure target
  | some equals =>
    refine .bind ih.expression fun value => ?_
    -- The bare form of a tree is a variable exactly if the tree is one.
    cases target with
    | «variable» name => exact .pure (Expr.assign name value)
    | _ => exact .bind (mirrors_note equals _) fun _ => .pure _

theorem step_chain (ih : MirrorsExpressions fuel) (l : Level) :
    Mirrors Expr.bare (Parse.chain (fuel + 1) l) (Parse.chain (fuel + 1) l) :=
  .bind (ih.operand l) fun left => ih.chainAfter l left

theorem step_chainAfter (ih : MirrorsExpressions fuel) (l : Level) (left : Expr) :
    Mirrors Expr.bare (Parse.chainAfter (fuel + 1) l left)
      (Parse.chainAfter (fuel + 1) l left.bare) := by
  refine .bind (mirrors_acceptWhen _) fun op => ?_
  cases op with
  | none => exact .pure left
  | some op =>
    refine .bind (ih.operand l) fun right => ?_
    have hrest := ih.chainAfter l (l.join left op right)
    rwa [← Level.join_bare] at hrest

theorem step_operand (ih : MirrorsExpressions fuel) (l : Level) :
    Mirrors Expr.bare (Parse.operand (fuel + 1) l) (Parse.operand (fuel + 1) l) := by
  rw [Parse.operand]
  split
  · exact ih.chain _
  · exact ih.unary

theorem step_unary (ih : MirrorsExpressions fuel) :
    Mirrors Expr.bare (Parse.unary (fuel + 1)) (Parse.unary (fuel + 1)) := by
  refine .bind (mirrors_acceptWhen _) fun op => ?_
  cases op with
  | some op => exact .bind ih.unary fun right => .pure (Expr.unary op right)
  | none => exact .bind ih.primary fun callee => ih.callAfter callee

theorem step_callAfter (ih : MirrorsExpressions fuel) (callee : Expr) :
    Mirrors Expr.bare (Parse.callAfter (fuel + 1) callee)
      (Parse.callAfter (fuel + 1) callee.bare) := by
  refine .bind (mirrors_accept .leftParen) fun opening => ?_
  cases opening with
  | none => exact .pure callee
  | some _ =>
    refine .bind (mirrors_listBeforeParen (ih.arguments 0)) fun args => ?_
    refine .bind (mirrors_expect _) fun paren => ?_
    have hrest := ih.callAfter (.call callee paren args)
    rwa [Expr.bare_call] at hrest

theorem step_arguments (ih : MirrorsExpressions fuel) (count : Nat) :
    Mirrors (List.map Expr.bare) (Parse.arguments (fuel + 1) count)
      (Parse.arguments (fuel + 1) count) := by
  refine .bind (mirrors_limit count _) fun _ => .bind ih.expression fun e => ?_
  refine .bind (mirrors_accept .comma) fun comma => ?_
  cases comma with
  | some _ => exact .bind (ih.arguments (count + 1)) fun es => .pure (e :: es)
  | none => exact .pure [e]

theorem step_primary (ih : MirrorsExpressions fuel) :
    Mirrors Expr.bare (Parse.primary (fuel + 1)) (Parse.primary (fuel + 1)) := by
  refine .bind mirrors_peek fun t => ?_
  rw [Token.kind_bare, Token.literal_bare]
  split
  · exact .bind mirrors_advance fun _ => .pure (Expr.literal (.bool false))
  · exact .bind mirrors_advance fun _ => .pure (Expr.literal (.bool true))
  · exact .bind mirrors_advance fun _ => .pure (Expr.literal .nil)
  · exact .bind mirrors_advance fun _ => .pure (Expr.literal t.literal)
  · exact .bind mirrors_advance fun _ => .pure (Expr.literal t.literal)
  · exact .bind mirrors_advance fun _ => .pure (Expr.variable t)
  · refine .bind mirrors_advance fun _ => .bind ih.expression fun inner => ?_
    exact .bind (mirrors_expect _) fun _ => .pure (Expr.grouping inner)
  · exact mirrors_fail t _

end MirrorsExpressions

theorem mirrorsExpressions (fuel : Nat) : MirrorsExpressions fuel := by
  induction fuel with
  | zero =>
    exact {
      expression := .throw _
      chain := fun _ => .throw _
      chainAfter := fun _ _ => .throw _
      operand := fun _ => .throw _
      unary := .throw _
      callAfter := fun _ => .throw _
      arguments := fun _ => .throw _
      primary := .throw _ }
  | succ fuel ih =>
    exact {
      expression := ih.step_expression
      chain := ih.step_chain
      chainAfter := ih.step_chainAfter
      operand := ih.step_operand
      unary := ih.step_unary
      callAfter := ih.step_callAfter
      arguments := ih.step_arguments
      primary := ih.step_primary }

theorem mirrors_expression (fuel : Nat) : Mirrors Expr.bare (expression fuel) (expression fuel) :=
  (mirrorsExpressions fuel).expression

theorem mirrors_expressionStatement (fuel : Nat) :
    Mirrors Stmt.bare (expressionStatement fuel) (expressionStatement fuel) := by
  refine .bind (mirrors_expression fuel) fun e => ?_
  exact .bind (mirrors_expect _) fun _ => .pure (Stmt.expression e)

theorem mirrors_varDeclaration (fuel : Nat) :
    Mirrors Stmt.bare (varDeclaration fuel) (varDeclaration fuel) := by
  refine .bind (mirrors_expect _) fun name => ?_
  refine .bind (mirrors_afterOptional .equal (mirrors_expression fuel)) fun initializer => ?_
  exact .bind (mirrors_expect _) fun _ => .pure (Stmt.var name initializer)

theorem mirrors_printStatement (fuel : Nat) :
    Mirrors Stmt.bare (printStatement fuel) (printStatement fuel) := by
  refine .bind (mirrors_expression fuel) fun e => ?_
  exact .bind (mirrors_expect _) fun _ => .pure (Stmt.print e)

theorem mirrors_returnStatement (fuel : Nat) (keyword : Token) :
    Mirrors Stmt.bare (returnStatement fuel keyword) (returnStatement fuel keyword.bare) := by
  refine .bind (mirrors_rejectTopLevel keyword) fun _ => ?_
  refine .bind (mirrors_unlessNext .semicolon (mirrors_expression fuel)) fun value => ?_
  exact .bind (mirrors_expect _) fun _ => .pure (Stmt.result keyword value)

theorem mirrors_forInitializer (fuel : Nat) :
    Mirrors (Option.map Stmt.bare) (forInitializer fuel) (forInitializer fuel) := by
  refine .bind mirrors_peek fun t => ?_
  rw [Token.kind_bare]
  split
  · exact .bind mirrors_advance fun _ => .pure none
  · exact .bind mirrors_advance fun _ => .map (mirrors_varDeclaration fuel) fun _ => rfl
  · exact .map (mirrors_expressionStatement fuel) fun _ => rfl

theorem forLoop_bare (initializer : Option Stmt) (condition increment : Option Expr)
    (body : Stmt) :
    forLoop (initializer.map Stmt.bare) (condition.map Expr.bare) (increment.map Expr.bare)
        body.bare = (forLoop initializer condition increment body).bare := by
  cases initializer <;> cases condition <;> cases increment <;> rfl

structure MirrorsPrograms (fuel : Nat) : Prop where
  declaration : Mirrors (Option.map Stmt.bare) (declaration fuel) (declaration fuel)
  declarations (inBlock : Bool) :
    Mirrors (List.map Stmt.bare) (declarations fuel inBlock) (declarations fuel inBlock)
  block : Mirrors (List.map Stmt.bare) (block fuel) (block fuel)
  functionDeclaration :
    Mirrors Stmt.bare (functionDeclaration fuel) (functionDeclaration fuel)
  statement : Mirrors Stmt.bare (statement fuel) (statement fuel)
  forStatement : Mirrors Stmt.bare (forStatement fuel) (forStatement fuel)

namespace MirrorsPrograms

variable {fuel : Nat}

theorem step_declaration (ih : MirrorsPrograms fuel) :
    Mirrors (Option.map Stmt.bare) (Parse.declaration (fuel + 1))
      (Parse.declaration (fuel + 1)) := by
  refine mirrors_recovering (.bind mirrors_peek fun t => ?_)
  rw [Token.kind_bare]
  split
  · exact .bind mirrors_advance fun _ => mirrors_varDeclaration fuel
  · exact .bind mirrors_advance fun _ => ih.functionDeclaration
  · exact ih.statement

theorem step_declarations (ih : MirrorsPrograms fuel) (inBlock : Bool) :
    Mirrors (List.map Stmt.bare) (Parse.declarations (fuel + 1) inBlock)
      (Parse.declarations (fuel + 1) inBlock) := by
  refine .bind mirrors_peek fun t => .ite _ (.pure []) (.bind ih.declaration fun s => ?_)
  cases s with
  | some s => exact .bind (ih.declarations inBlock) fun ss => .pure (s :: ss)
  | none => exact ih.declarations inBlock

theorem step_block (ih : MirrorsPrograms fuel) :
    Mirrors (List.map Stmt.bare) (Parse.block (fuel + 1)) (Parse.block (fuel + 1)) :=
  .bind (ih.declarations true) fun body => .bind (mirrors_expect _) fun _ => .pure body

theorem step_functionDeclaration (ih : MirrorsPrograms fuel) :
    Mirrors Stmt.bare (Parse.functionDeclaration (fuel + 1))
      (Parse.functionDeclaration (fuel + 1)) := by
  refine .bind (mirrors_expect _) fun name => .bind (mirrors_expect _) fun _ => ?_
  refine .bind (mirrors_listBeforeParen (mirrors_parameters fuel 0)) fun params => ?_
  refine .bind (mirrors_expect _) fun _ => .bind (mirrors_expect _) fun _ => ?_
  refine .bind (mirrors_inFunction ih.block) fun body => ?_
  rw [← Stmt.bare_function]
  exact .pure _

theorem step_statement (ih : MirrorsPrograms fuel) :
    Mirrors Stmt.bare (Parse.statement (fuel + 1)) (Parse.statement (fuel + 1)) := by
  refine .bind mirrors_peek fun t => ?_
  rw [Token.kind_bare]
  split
  · exact .bind mirrors_advance fun _ => ih.forStatement
  · refine .bind mirrors_advance fun _ => .bind (mirrors_expect _) fun _ => ?_
    refine .bind (mirrors_expression fuel) fun condition => .bind (mirrors_expect _) fun _ => ?_
    refine .bind ih.statement fun thenBranch => ?_
    refine .bind (mirrors_afterOptional _ ih.statement) fun elseBranch => ?_
    rw [← Stmt.bare_conditional]
    exact .pure _
  · exact .bind mirrors_advance fun _ => mirrors_printStatement fuel
  · exact .bind mirrors_advance fun _ => mirrors_returnStatement fuel t
  · refine .bind mirrors_advance fun _ => .bind (mirrors_expect _) fun _ => ?_
    refine .bind (mirrors_expression fuel) fun condition => .bind (mirrors_expect _) fun _ => ?_
    exact .bind ih.statement fun body => .pure (Stmt.loop condition body)
  · refine .bind mirrors_advance fun _ => .bind ih.block fun body => ?_
    rw [← Stmt.bare_block]
    exact .pure _
  · exact mirrors_expressionStatement fuel

theorem step_forStatement (ih : MirrorsPrograms fuel) :
    Mirrors Stmt.bare (Parse.forStatement (fuel + 1)) (Parse.forStatement (fuel + 1)) := by
  refine .bind (mirrors_expect _) fun _ => ?_
  refine .bind (mirrors_forInitializer fuel) fun initializer => ?_
  refine .bind (mirrors_unlessNext _ (mirrors_expression fuel)) fun condition => ?_
  refine .bind (mirrors_expect _) fun _ => ?_
  refine .bind (mirrors_unlessNext _ (mirrors_expression fuel)) fun increment => ?_
  refine .bind (mirrors_expect _) fun _ => .bind ih.statement fun body => ?_
  rw [forLoop_bare]
  exact .pure _

end MirrorsPrograms

theorem mirrorsPrograms (fuel : Nat) : MirrorsPrograms fuel := by
  induction fuel with
  | zero =>
    exact {
      declaration := .throw _
      declarations := fun _ => .throw _
      block := .throw _
      functionDeclaration := .throw _
      statement := .throw _
      forStatement := .throw _ }
  | succ fuel ih =>
    exact {
      declaration := ih.step_declaration
      declarations := ih.step_declarations
      block := ih.step_block
      functionDeclaration := ih.step_functionDeclaration
      statement := ih.step_statement
      forStatement := ih.step_forStatement }

end Parse

def Parsed.bare (p : Parsed) : Parsed :=
  ⟨p.statements.map Stmt.bare, p.errors.map SyntaxError.bare⟩

/-- The trees and the errors of bare tokens are those of the tokens, without places. -/
theorem parse_bare (ts : List Token) : parse (ts.map Token.bare) = (parse ts).bare := by
  have hdeclarations :=
    (Parse.mirrorsPrograms (Parse.fuelFor ts)).declarations false ⟨ts, [], 0⟩
  have hfuel : Parse.fuelFor (ts.map Token.bare) = Parse.fuelFor ts := by
    simp [Parse.fuelFor]
  unfold parse
  rw [hfuel]
  change Parse.declarations (Parse.fuelFor ts) false ⟨ts.map Token.bare, [], 0⟩ = _
    at hdeclarations
  rw [hdeclarations]
  cases Parse.declarations (Parse.fuelFor ts) false ⟨ts, [], 0⟩ <;> rfl

end Lox
