import LoxInterpreter.Tree.Parse

/-!
The tokens of syntax errors. A parser sees only the tokens ahead of it, and the errors that it
records are located at tokens that it sees or has taken. So whatever holds of all tokens of a text
holds of the tokens of its syntax errors.
-/

namespace Lox

namespace Parse

variable {α β : Type} {P : Token → Prop}

/-- The tokens ahead and the tokens of the errors so far satisfy `P`. -/
structure Sees (P : Token → Prop) (s : State) : Prop where
  rest : ∀ t ∈ s.rest, P t
  errors : ∀ e ∈ s.errors, P e.token

def Keeps (P : Token → Prop) (Q : α → Prop) (p : Parser α) : Prop :=
  ∀ s, Sees P s →
    match p s with
    | .ok a s' => Sees P s' ∧ Q a
    | .error _ s' => Sees P s'

namespace Keeps

abbrev Plain (P : Token → Prop) (p : Parser α) : Prop := Keeps P (fun _ => True) p

variable {p : Parser α} {Q : α → Prop} {R : β → Prop}

theorem pure {a : α} (h : Q a) : Keeps P Q (Pure.pure a) := fun _ hs => ⟨hs, h⟩

theorem throw (stop : Stop) : Keeps P Q (MonadExcept.throw stop : Parser α) := fun _ hs => hs

theorem bind {f : α → Parser β} (hp : Keeps P Q p) (hf : ∀ a, Q a → Keeps P R (f a)) :
    Keeps P R (p >>= f) := by
  intro s hs
  have hfirst := hp s hs
  rw [Step.bind_apply]
  cases hrun : p s with
  | ok a s' =>
    rw [hrun] at hfirst
    exact hf a hfirst.2 s' hfirst.1
  | error stop s' =>
    rw [hrun] at hfirst
    exact hfirst

theorem map {f : α → β} (hp : Keeps P Q p) (hf : ∀ a, Q a → R (f a)) : Keeps P R (f <$> p) := by
  intro s hs
  have hfirst := hp s hs
  rw [Step.map_apply]
  cases hrun : p s with
  | ok a s' =>
    rw [hrun] at hfirst
    exact ⟨hfirst.1, hf a hfirst.2⟩
  | error stop s' =>
    rw [hrun] at hfirst
    exact hfirst

theorem ite (c : Prop) [Decidable c] {q : Parser α} (hp : Keeps P Q p) (hq : Keeps P Q q) :
    Keeps P Q (if c then p else q) := by
  split
  · exact hp
  · exact hq

theorem peek : Keeps P P Parse.peek := by
  rintro ⟨_ | ⟨t, ts⟩, errors, depth⟩ hs
  · exact hs
  · exact ⟨hs, hs.rest t List.mem_cons_self⟩

theorem advance : Plain P Parse.advance := by
  rintro ⟨_ | ⟨t, ts⟩, errors, depth⟩ hs
  · exact ⟨hs, trivial⟩
  · exact ⟨⟨(List.forall_mem_cons.1 hs.rest).2, hs.errors⟩, trivial⟩

theorem note {t : Token} (ht : P t) (cause : SyntaxCause) : Plain P (Parse.note t cause) := by
  refine fun s hs => ⟨⟨hs.rest, fun e he => ?_⟩, trivial⟩
  rcases List.mem_append.1 he with he | he
  · exact hs.errors e he
  · exact List.mem_singleton.1 he ▸ ht

theorem fail {t : Token} (ht : P t) (cause : SyntaxCause) : Keeps P Q (Parse.fail t cause) :=
  bind (note ht cause) fun _ _ => throw _

theorem check (k : Kind) : Plain P (Parse.check k) := bind peek fun _ _ => pure trivial

theorem acceptWhen (right : Kind → Bool) :
    Keeps P (fun t? => ∀ t, t? = some t → P t) (Parse.acceptWhen right) := by
  refine bind peek fun t ht => ite _ ?_ ?_
  · refine bind advance fun _ _ => pure ?_
    rintro _ ⟨⟩
    exact ht
  · refine pure ?_
    rintro _ ⟨⟩

theorem accept (k : Kind) : Keeps P (fun t? => ∀ t, t? = some t → P t) (Parse.accept k) :=
  acceptWhen _

theorem expect (e : Expectation) : Plain P (Parse.expect e) := by
  refine bind peek fun t ht => ite _ ?_ (fail ht _)
  exact bind advance fun _ _ => pure trivial

theorem limit (count : Nat) (cause : SyntaxCause) : Plain P (Parse.limit count cause) :=
  ite _ (bind peek fun _ ht => note ht cause) (pure trivial)

theorem afterOptional (k : Kind) (hp : Plain P p) : Plain P (Parse.afterOptional k p) := by
  refine bind (accept k) fun t _ => ?_
  cases t with
  | some _ => exact hp.map fun _ _ => trivial
  | none => exact pure trivial

theorem unlessNext (k : Kind) (hp : Plain P p) : Plain P (Parse.unlessNext k p) :=
  bind (check k) fun _ _ => ite _ (pure trivial) (hp.map fun _ _ => trivial)

theorem listBeforeParen {p : Parser (List α)} (hp : Plain P p) :
    Plain P (Parse.listBeforeParen p) :=
  bind (check .rightParen) fun _ _ => ite _ (pure trivial) hp

theorem inFunction (hp : Keeps P Q p) : Keeps P Q (Parse.inFunction p) := by
  intro s hs
  have hbody := hp { s with depth := s.depth + 1 } ⟨hs.rest, hs.errors⟩
  unfold Parse.inFunction
  cases hrun : p { s with depth := s.depth + 1 } with
  | ok a s' =>
    rw [hrun] at hbody
    exact ⟨⟨hbody.1.rest, hbody.1.errors⟩, hbody.2⟩
  | error stop s' =>
    rw [hrun] at hbody
    exact ⟨hbody.rest, hbody.errors⟩

theorem rejectTopLevel {keyword : Token} (h : P keyword) : Plain P (Parse.rejectTopLevel keyword) :=
  fun s hs => by
    rw [Parse.rejectTopLevel_apply]
    exact ite _ (note h _) (pure trivial) s hs

/-- What is skipped is not ahead any more. -/
theorem recovering (hp : Plain P p) : Plain P (Parse.recovering p) := by
  intro s hs
  have hbody := hp s hs
  unfold Parse.recovering
  cases hrun : p s with
  | ok a s' =>
    rw [hrun] at hbody
    exact ⟨hbody.1, trivial⟩
  | error stop s' =>
    rw [hrun] at hbody
    cases stop with
    | malformed =>
      have hskip := (resynchronize_isSuffix s'.rest).subset
      exact ⟨⟨fun t ht => hbody.rest t (hskip ht), hbody.errors⟩, trivial⟩
    | noToken => exact hbody
    | exhausted => exact hbody

theorem parameters (fuel count : Nat) : Plain P (Parse.parameters fuel count) := by
  induction fuel generalizing count with
  | zero => exact throw _
  | succ fuel ih =>
    refine bind (limit count _) fun _ _ => bind (expect _) fun name _ => ?_
    refine bind (accept .comma) fun comma _ => ?_
    cases comma with
    | some _ => exact bind (ih (count + 1)) fun _ _ => pure trivial
    | none => exact pure trivial

end Keeps

open Keeps (Plain)

structure ExpressionsKeep (P : Token → Prop) (fuel : Nat) : Prop where
  expression : Plain P (expression fuel)
  chain (l : Level) : Plain P (chain fuel l)
  chainAfter (l : Level) (left : Expr) : Plain P (chainAfter fuel l left)
  operand (l : Level) : Plain P (operand fuel l)
  unary : Plain P (unary fuel)
  callAfter (callee : Expr) : Plain P (callAfter fuel callee)
  arguments (count : Nat) : Plain P (arguments fuel count)
  primary : Plain P (primary fuel)

namespace ExpressionsKeep

variable {fuel : Nat}

theorem step_expression (ih : ExpressionsKeep P fuel) : Plain P (Parse.expression (fuel + 1)) := by
  refine .bind (ih.chain .disjunction) fun target _ =>
    .bind (.accept .equal) fun equals hequals => ?_
  cases equals with
  | none => exact .pure trivial
  | some equals =>
    refine .bind ih.expression fun value _ => ?_
    cases target with
    | «variable» name => exact .pure trivial
    | _ => exact .bind (.note (hequals equals rfl) _) fun _ _ => .pure trivial

theorem step_chain (ih : ExpressionsKeep P fuel) (l : Level) :
    Plain P (Parse.chain (fuel + 1) l) :=
  .bind (ih.operand l) fun left _ => ih.chainAfter l left

theorem step_chainAfter (ih : ExpressionsKeep P fuel) (l : Level) (left : Expr) :
    Plain P (Parse.chainAfter (fuel + 1) l left) := by
  refine .bind (.acceptWhen _) fun op _ => ?_
  cases op with
  | none => exact .pure trivial
  | some op => exact .bind (ih.operand l) fun right _ => ih.chainAfter l _

theorem step_operand (ih : ExpressionsKeep P fuel) (l : Level) :
    Plain P (Parse.operand (fuel + 1) l) := by
  rw [Parse.operand]
  split
  · exact ih.chain _
  · exact ih.unary

theorem step_unary (ih : ExpressionsKeep P fuel) : Plain P (Parse.unary (fuel + 1)) := by
  refine .bind (.acceptWhen _) fun op _ => ?_
  cases op with
  | some op => exact .bind ih.unary fun _ _ => .pure trivial
  | none => exact .bind ih.primary fun callee _ => ih.callAfter callee

theorem step_callAfter (ih : ExpressionsKeep P fuel) (callee : Expr) :
    Plain P (Parse.callAfter (fuel + 1) callee) := by
  refine .bind (.accept .leftParen) fun opening _ => ?_
  cases opening with
  | none => exact .pure trivial
  | some _ =>
    refine .bind (.listBeforeParen (ih.arguments 0)) fun args _ => ?_
    exact .bind (.expect _) fun paren _ => ih.callAfter _

theorem step_arguments (ih : ExpressionsKeep P fuel) (count : Nat) :
    Plain P (Parse.arguments (fuel + 1) count) := by
  refine .bind (.limit count _) fun _ _ => .bind ih.expression fun e _ => ?_
  refine .bind (.accept .comma) fun comma _ => ?_
  cases comma with
  | some _ => exact .bind (ih.arguments (count + 1)) fun _ _ => .pure trivial
  | none => exact .pure trivial

theorem step_primary (ih : ExpressionsKeep P fuel) : Plain P (Parse.primary (fuel + 1)) := by
  refine .bind .peek fun t ht => ?_
  split
  case h_7 =>
    refine .bind .advance fun _ _ => .bind ih.expression fun inner _ => ?_
    exact .bind (.expect _) fun _ _ => .pure trivial
  case h_8 => exact .fail ht _
  all_goals exact .bind .advance fun _ _ => .pure trivial

end ExpressionsKeep

theorem expressionsKeep (P : Token → Prop) (fuel : Nat) : ExpressionsKeep P fuel := by
  induction fuel with
  | zero =>
    exact {
      expression := .throw _
      chain := fun _ => .throw _
      chainAfter := fun _ _ => .throw _
      operand := fun _ => .throw _
      unary := .throw _
      callAfter := fun _ => .throw _
      arguments := fun _ => .throw _
      primary := .throw _ }
  | succ fuel ih =>
    exact {
      expression := ih.step_expression
      chain := ih.step_chain
      chainAfter := ih.step_chainAfter
      operand := ih.step_operand
      unary := ih.step_unary
      callAfter := ih.step_callAfter
      arguments := ih.step_arguments
      primary := ih.step_primary }

namespace Keeps

theorem expression (fuel : Nat) : Plain P (Parse.expression fuel) :=
  (expressionsKeep P fuel).expression

theorem expressionStatement (fuel : Nat) : Plain P (Parse.expressionStatement fuel) :=
  bind (expression fuel) fun _ _ => bind (expect _) fun _ _ => pure trivial

theorem varDeclaration (fuel : Nat) : Plain P (Parse.varDeclaration fuel) := by
  refine bind (expect _) fun name _ => ?_
  refine bind (afterOptional .equal (expression fuel)) fun initializer _ => ?_
  exact bind (expect _) fun _ _ => pure trivial

theorem printStatement (fuel : Nat) : Plain P (Parse.printStatement fuel) :=
  bind (expression fuel) fun _ _ => bind (expect _) fun _ _ => pure trivial

theorem returnStatement (fuel : Nat) {keyword : Token} (h : P keyword) :
    Plain P (Parse.returnStatement fuel keyword) := by
  refine bind (rejectTopLevel h) fun _ _ => ?_
  refine bind (unlessNext .semicolon (expression fuel)) fun value _ => ?_
  exact bind (expect _) fun _ _ => pure trivial

theorem forInitializer (fuel : Nat) : Plain P (Parse.forInitializer fuel) := by
  refine bind peek fun t _ => ?_
  split
  · exact bind advance fun _ _ => pure trivial
  · exact bind advance fun _ _ => (varDeclaration fuel).map fun _ _ => trivial
  · exact (expressionStatement fuel).map fun _ _ => trivial

end Keeps

structure ProgramsKeep (P : Token → Prop) (fuel : Nat) : Prop where
  declaration : Plain P (declaration fuel)
  declarations (inBlock : Bool) : Plain P (declarations fuel inBlock)
  block : Plain P (block fuel)
  functionDeclaration : Plain P (functionDeclaration fuel)
  statement : Plain P (statement fuel)
  forStatement : Plain P (forStatement fuel)

namespace ProgramsKeep

variable {fuel : Nat}

theorem step_declaration (ih : ProgramsKeep P fuel) : Plain P (Parse.declaration (fuel + 1)) := by
  refine .recovering (.bind .peek fun t _ => ?_)
  split
  · exact .bind .advance fun _ _ => .varDeclaration fuel
  · exact .bind .advance fun _ _ => ih.functionDeclaration
  · exact ih.statement

theorem step_declarations (ih : ProgramsKeep P fuel) (inBlock : Bool) :
    Plain P (Parse.declarations (fuel + 1) inBlock) := by
  refine .bind .peek fun t _ => .ite _ (.pure trivial) (.bind ih.declaration fun s _ => ?_)
  cases s with
  | some s => exact .bind (ih.declarations inBlock) fun _ _ => .pure trivial
  | none => exact ih.declarations inBlock

theorem step_block (ih : ProgramsKeep P fuel) : Plain P (Parse.block (fuel + 1)) :=
  .bind (ih.declarations true) fun _ _ => .bind (.expect _) fun _ _ => .pure trivial

theorem step_functionDeclaration (ih : ProgramsKeep P fuel) :
    Plain P (Parse.functionDeclaration (fuel + 1)) := by
  refine .bind (.expect _) fun name _ => .bind (.expect _) fun _ _ => ?_
  refine .bind (.listBeforeParen (.parameters fuel 0)) fun params _ => ?_
  refine .bind (.expect _) fun _ _ => .bind (.expect _) fun _ _ => ?_
  exact .bind (.inFunction ih.block) fun _ _ => .pure trivial

/-- The keyword of a return statement is taken before it is found to be outside of functions. -/
theorem step_statement (ih : ProgramsKeep P fuel) : Plain P (Parse.statement (fuel + 1)) := by
  refine .bind .peek fun t ht => ?_
  split
  · exact .bind .advance fun _ _ => ih.forStatement
  · refine .bind .advance fun _ _ => .bind (.expect _) fun _ _ => ?_
    refine .bind (.expression fuel) fun _ _ => .bind (.expect _) fun _ _ => ?_
    refine .bind ih.statement fun _ _ => ?_
    exact .bind (.afterOptional _ ih.statement) fun _ _ => .pure trivial
  · exact .bind .advance fun _ _ => .printStatement fuel
  · exact .bind .advance fun _ _ => .returnStatement fuel ht
  · refine .bind .advance fun _ _ => .bind (.expect _) fun _ _ => ?_
    refine .bind (.expression fuel) fun _ _ => .bind (.expect _) fun _ _ => ?_
    exact .bind ih.statement fun _ _ => .pure trivial
  · exact .bind .advance fun _ _ => .bind ih.block fun _ _ => .pure trivial
  · exact .expressionStatement fuel

theorem step_forStatement (ih : ProgramsKeep P fuel) : Plain P (Parse.forStatement (fuel + 1)) := by
  refine .bind (.expect _) fun _ _ => .bind (.forInitializer fuel) fun _ _ => ?_
  refine .bind (.unlessNext _ (.expression fuel)) fun _ _ => .bind (.expect _) fun _ _ => ?_
  refine .bind (.unlessNext _ (.expression fuel)) fun _ _ => .bind (.expect _) fun _ _ => ?_
  exact .bind ih.statement fun _ _ => .pure trivial

end ProgramsKeep

end Parse

end Lox
