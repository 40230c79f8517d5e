import LoxInterpreter.Proofs.Grammar.Beginnings

/-!
Beginnings of programs: statements, declarations and blocks. An error in a declaration is recovered
from, but it stays the first one for which a parser gave up. So as long as there is none, the tokens
are those of derivations, up to the point where they run out.
-/

namespace Lox

namespace Grammar

open Parse (Parser State Level)

variable {α β : Type} {s : State}

namespace Spells

open Lox.Grammar.Derivation

variable {fuel : Nat} {L : α → List Token → Prop} {p : Parser α}

theorem expression (s : State) : Spells (Rows .expression []) (Parse.expression fuel) s :=
  (expressionsSpell fuel).expression s

theorem bind_expression {f : Expr → Parser α}
    (hf : ∀ tree (e : Derivation .expression) s',
      Spells (fun a us => L a (e.tokens ++ us)) (f tree) s') :
    Spells L (Parse.expression fuel >>= f) s := by
  refine bind ((expressionsBlameNext fuel).expression s) (expression s) ?_
  rintro tree _ s' ⟨e, rfl⟩
  exact hf tree e s'

theorem optionalExpression (k : Kind) :
    Spells (Rows .optionalExpression []) (Parse.unlessNext k (Parse.expression fuel)) s := by
  have hnone : Rows .optionalExpression [] (none : Option Expr) [] := ⟨noExpression, rfl⟩
  refine bind_check ⟨_, _, hnone⟩ fun _ => ite _ (fun _ => pure hnone) fun _ => ?_
  refine map (expression s) ?_
  rintro _ _ ⟨e, rfl⟩
  exact ⟨someExpression e, rfl⟩

theorem bind_optionalExpression {k : Kind} {f : Option Expr → Parser α}
    (hf : ∀ tree (e : Derivation .optionalExpression) s',
      Spells (fun a us => L a (e.tokens ++ us)) (f tree) s') :
    Spells L (Parse.unlessNext k (Parse.expression fuel) >>= f) s := by
  have hblames : BlamesNext (Parse.unlessNext k (Parse.expression fuel)) s := by
    refine .bind .check fun _ s' => .ite _ .pure ?_
    rw [map_eq_pure_bind]
    exact .bind ((expressionsBlameNext fuel).expression s') fun _ _ => .pure
  refine bind hblames (optionalExpression k) ?_
  rintro tree _ s' ⟨e, rfl⟩
  exact hf tree e s'

/-- A condition between parentheses, as after `if` and after `while`. -/
theorem bind_condition {x x' : Expectation} {f : Expr → Parser α}
    (hf : ∀ tree (opening : Mark x.kind) (condition : Derivation .expression)
      (closing : Mark x'.kind) s', Spells (fun a us =>
        L a (opening.token :: (condition.tokens ++ closing.token :: us))) (f tree) s') :
    Spells L (do
        let _ ← Parse.expect x
        let condition ← Parse.expression fuel
        let _ ← Parse.expect x'
        f condition) s :=
  bind_expect fun opening _ => bind_expression fun tree condition _ =>
    bind_expect fun closing s' => hf tree opening condition closing s'

theorem parameters (count : Nat) (s : State) :
    Spells (fun _ ts => ∃ names : Names, names.tokens = ts) (Parse.parameters fuel count) s := by
  induction fuel generalizing count s with
  | zero => exact throw_exhausted ⟨[], _, .last (Mark.any _), rfl⟩
  | succ fuel ih =>
    refine bind_limit id fun _ => bind_expect fun (name : Mark .identifier) _ => ?_
    refine bind_accept (fun _ => pure ⟨.last name, rfl⟩) fun comma s₃ => ?_
    refine bind_of_looks (fun _ _ => .pure) (ih (count + 1) s₃) ?_
    rintro _ _ _ ⟨names, rfl⟩
    exact pure ⟨.more name comma names, by simp [Names.tokens]⟩

theorem optionalParameters : Spells (fun _ ts => ∃ params : Parameters, params.tokens = ts)
    (Parse.listBeforeParen (Parse.parameters fuel 0)) s := by
  have hnone : ∃ params : Parameters, params.tokens = [] := ⟨.none, rfl⟩
  refine bind_check ⟨[], [], hnone⟩ fun _ => ite _ (fun _ => pure hnone) fun _ => ?_
  refine (parameters 0 s).mono ?_
  rintro _ _ ⟨names, rfl⟩
  exact ⟨.some names, rfl⟩

theorem expressionStatement :
    Spells (Rows .expressionStatement []) (Parse.expressionStatement fuel) s :=
  bind_expression fun _ e _ => bind_expect fun (stop : Mark .semicolon) _ =>
    pure ⟨.expressionStatement e stop, rfl⟩

theorem varDeclaration (kw : Word .varWord) :
    Spells (Rows .varDeclaration [kw.token]) (Parse.varDeclaration fuel) s := by
  refine bind_expect fun (name : Mark .identifier) _ => ?_
  simp only [Parse.afterOptional, bind_assoc]
  refine bind_accept (fun s₁ => ?_) fun equals s₁ => ?_
  · refine bind_expect fun (stop : Mark .semicolon) _ => ?_
    exact pure ⟨varWithout kw name stop, rfl⟩
  · simp only [map_eq_pure_bind, bind_assoc]
    refine bind_expression fun _ e _ => bind_expect fun (stop : Mark .semicolon) _ => ?_
    exact pure ⟨varWith kw name equals e stop, rfl⟩

theorem printStatement (kw : Word .printWord) :
    Spells (Rows .statement [kw.token]) (Parse.printStatement fuel) s :=
  bind_expression fun _ e _ => bind_expect fun (stop : Mark .semicolon) _ =>
    pure ⟨print kw e stop, rfl⟩

theorem returnStatement (kw : Word .returnWord) (t : Token) :
    Spells (Rows .statement [kw.token]) (Parse.returnStatement fuel t) s := by
  have hreject : Spells (fun _ us => us = []) (Parse.rejectTopLevel t) s :=
    congr (q := if s.depth = 0 then Parse.note t .topLevelReturn else Pure.pure ())
      (Parse.rejectTopLevel_apply t s)
      (ite _ (fun _ => note id) fun _ => pure rfl)
  refine bind_of_looks (fun _ _ => .bind (.unlessNext _ .expression) fun _ _ =>
    .bind (.expect _) fun _ _ => .pure) hreject ?_
  rintro _ _ s₁ rfl
  refine bind_optionalExpression fun _ value _ => ?_
  refine bind_expect fun (stop : Mark .semicolon) _ => ?_
  exact pure ⟨returning kw value stop, rfl⟩

theorem forInitializer :
    Spells (Rows .forInitializer []) (Parse.forInitializer fuel) s := by
  refine bind_peek ?_ fun t ts hrest => ?_
  · exact Rows.exists_nil _
  split
  next hk => exact bind_advance hrest fun _ => pure ⟨noInitializer ⟨t, by simp [hk]⟩, rfl⟩
  next hk =>
    let kw : Word .varWord := ⟨t, by simp [hk]⟩
    refine bind_advance hrest fun _ => map (varDeclaration kw) ?_
    rintro _ _ ⟨v, hv⟩
    exact ⟨varInitializer v, hv⟩
  next =>
    refine map expressionStatement ?_
    rintro _ _ ⟨e, rfl⟩
    exact ⟨simpleInitializer e, rfl⟩

theorem inFunction (hp : ∀ s, Spells L p s) : Spells L (Parse.inFunction p) s := by
  refine ⟨(hp s).possible, ?_⟩
  obtain ⟨-, herrors⟩ := Looks.final_inFunction p s
  cases (hp { s with depth := s.depth + 1 }).spelling with
  | ok hclean h hrest hL =>
    rename_i a r ts
    exact .ok (r := { r with depth := r.depth - 1 }) (hclean.congr rfl rfl)
      (by rw [Parse.inFunction, h]) hrest hL
  | short hclean h hL =>
    rename_i r a more
    exact .short (r := { r with depth := r.depth - 1 }) (hclean.congr rfl rfl)
      (by rw [Parse.inFunction, h]) hL
  | exhausted h =>
    rename_i r
    exact .exhausted (r := { r with depth := r.depth - 1 }) (by rw [Parse.inFunction, h])
  | failed h => exact .failed (h.congr rfl herrors)

/-- Where a parser recovers, its error stays the first one. -/
theorem recovering (hp : Spells L p s) :
    Spells (fun found ts => ∃ a, found = some a ∧ L a ts) (Parse.recovering p) s := by
  obtain ⟨⟨a, ts, ha⟩, hspelling⟩ := hp
  refine ⟨⟨some a, ts, a, rfl, ha⟩, ?_⟩
  cases hspelling with
  | ok hclean h hrest hL => exact .ok hclean (by rw [Parse.recovering, h]) hrest ⟨_, rfl, hL⟩
  | short hclean h hL => exact .short hclean (by rw [Parse.recovering, h]) ⟨_, rfl, hL⟩
  | exhausted h => exact .exhausted (by rw [Parse.recovering, h])
  | failed h => exact .failed (h.congr rfl (Looks.final_recovering p s).2)

end Spells

/-- Each parser of declarations and statements reads a derivation of its category, or the beginning
of one. -/
structure ProgramsSpell (fuel : Nat) : Prop where
  declaration (s : State) :
    Spells (fun found ts => ∃ a, found = some a ∧ Rows .declaration [] a ts)
      (Parse.declaration fuel) s
  declarations (inBlock : Bool) (s : State) :
    Spells (Rows .declarations []) (Parse.declarations fuel inBlock) s
  block (opening : Mark .leftBrace) (s : State) :
    Spells (Rows .block [opening.token]) (Parse.block fuel) s
  functionDeclaration (kw : Word .funWord) (s : State) :
    Spells (Rows .declaration [kw.token]) (Parse.functionDeclaration fuel) s
  statement (s : State) : Spells (Rows .statement []) (Parse.statement fuel) s
  forStatement (kw : Word .forWord) (s : State) :
    Spells (Rows .statement [kw.token]) (Parse.forStatement fuel) s

namespace ProgramsSpell

open Lox.Grammar.Derivation

variable {fuel : Nat}

theorem step_declaration (ih : ProgramsSpell fuel) :
    Spells (fun found ts => ∃ a, found = some a ∧ Rows .declaration [] a ts)
      (Parse.declaration (fuel + 1)) s := by
  refine .recovering (.bind_peek (Rows.exists_nil _) fun t ts hrest => ?_)
  split
  next hk =>
    let kw : Word .varWord := ⟨t, by simp [hk]⟩
    refine .bind_advance hrest fun _ => (Spells.varDeclaration kw).mono ?_
    rintro _ _ ⟨v, hv⟩
    exact ⟨variableDeclaration v, hv⟩
  next hk =>
    let kw : Word .funWord := ⟨t, by simp [hk]⟩
    exact .bind_advance hrest (ih.functionDeclaration kw)
  next =>
    refine (ih.statement s).mono ?_
    rintro _ _ ⟨d, rfl⟩
    exact ⟨.statement d, rfl⟩

theorem step_declarations (ih : ProgramsSpell fuel) (inBlock : Bool) :
    Spells (Rows .declarations []) (Parse.declarations (fuel + 1) inBlock) s := by
  refine .bind_peek (Rows.exists_nil _) fun t ts hrest => .ite _ (fun _ => ?_) fun _ => ?_
  · exact .pure ⟨noDeclaration, rfl⟩
  refine .bind_of_looks (fun found s' => ?_) (ih.declaration s) ?_
  · cases found with
    | some _ => exact .bind ((programsLook fuel).declarations inBlock s') fun _ _ => .pure
    | none => exact (programsLook fuel).declarations inBlock s'
  · rintro _ _ s₁ ⟨tree, rfl, first, rfl⟩
    refine .bind_of_looks (fun _ _ => .pure) (ih.declarations inBlock s₁) ?_
    rintro _ _ _ ⟨rest, rfl⟩
    exact .pure ⟨moreDeclarations first rest, by simp [tokens]⟩

theorem step_block (ih : ProgramsSpell fuel) (opening : Mark .leftBrace) :
    Spells (Rows .block [opening.token]) (Parse.block (fuel + 1)) s := by
  refine .bind_of_looks (fun _ _ => .bind (.expect _) fun _ _ => .pure) (ih.declarations true s) ?_
  rintro _ _ _ ⟨body, rfl⟩
  refine .bind_expect fun (closing : Mark .rightBrace) _ => ?_
  exact .pure ⟨.block opening body closing, rfl⟩

theorem step_functionDeclaration (ih : ProgramsSpell fuel) (kw : Word .funWord) :
    Spells (Rows .declaration [kw.token]) (Parse.functionDeclaration (fuel + 1)) s := by
  refine .bind_expect fun (name : Mark .identifier) _ => ?_
  refine .bind_expect fun (opening : Mark .leftParen) _ => ?_
  refine .bind_of_looks (fun _ _ => .bind (.expect _) fun _ _ => .bind (.expect _) fun _ _ =>
    .bind (.inFunction (programsLook fuel).block) fun _ _ => .pure) .optionalParameters ?_
  rintro _ _ _ ⟨params, rfl⟩
  refine .bind_expect fun (closing : Mark .rightParen) _ => ?_
  refine .bind_expect fun (brace : Mark .leftBrace) _ => ?_
  refine .bind_of_looks (fun _ _ => .pure) (.inFunction (ih.block brace)) ?_
  rintro _ us _ ⟨body, hbody⟩
  exact .pure ⟨function kw name opening params closing body, by simp [tokens, hbody]⟩

theorem step_statement (ih : ProgramsSpell fuel) :
    Spells (Rows .statement []) (Parse.statement (fuel + 1)) s := by
  refine .bind_peek (Rows.exists_nil _) fun t ts hrest => ?_
  split
  next hk =>
    let kw : Word .forWord := ⟨t, by simp [hk]⟩
    exact .bind_advance hrest (ih.forStatement kw)
  next hk =>
    let kw : Word .ifWord := ⟨t, by simp [hk]⟩
    refine .bind_advance hrest fun _ => .bind_condition fun _ (opening : Mark .leftParen) condition
      (closing : Mark .rightParen) s₁ => ?_
    refine .bind_of_looks (fun _ _ => .bind (.afterOptional _ (programsLook fuel).statement)
      fun _ _ => .pure) (ih.statement s₁) ?_
    rintro _ _ s₂ ⟨thenBranch, rfl⟩
    simp only [Parse.afterOptional, bind_assoc]
    refine .bind_accept (fun _ => ?_) fun elseKw s₃ => ?_
    · exact .pure ⟨ifOnly kw opening condition closing thenBranch, by simp [kw, tokens]⟩
    · simp only [map_eq_pure_bind, bind_assoc]
      refine .bind_of_looks (fun _ _ => .pure) (ih.statement s₃) ?_
      rintro _ _ _ ⟨elseBranch, rfl⟩
      exact .pure ⟨ifElse kw opening condition closing thenBranch elseKw elseBranch,
        by simp [kw, tokens]⟩
  next hk =>
    let kw : Word .printWord := ⟨t, by simp [hk]⟩
    exact .bind_advance hrest fun _ => .printStatement kw
  next hk =>
    let kw : Word .returnWord := ⟨t, by simp [hk]⟩
    exact .bind_advance hrest fun _ => .returnStatement kw t
  next hk =>
    let kw : Word .whileWord := ⟨t, by simp [hk]⟩
    refine .bind_advance hrest fun _ => .bind_condition fun _ (opening : Mark .leftParen) condition
      (closing : Mark .rightParen) s₁ => ?_
    refine .bind_of_looks (fun _ _ => .pure) (ih.statement s₁) ?_
    rintro _ _ _ ⟨body, rfl⟩
    exact .pure ⟨whileLoop kw opening condition closing body, by simp [kw, tokens]⟩
  next hk =>
    let opening : Mark .leftBrace := ⟨t, by simp [hk]⟩
    refine .bind_advance hrest fun s₁ => .bind_of_looks (fun _ _ => .pure) (ih.block opening s₁) ?_
    rintro _ us _ ⟨b, hb⟩
    exact .pure ⟨compound b, by simpa [opening, tokens] using hb⟩
  next =>
    refine Spells.expressionStatement.mono ?_
    rintro _ _ ⟨e, rfl⟩
    exact ⟨simple e, rfl⟩

theorem step_forStatement (ih : ProgramsSpell fuel) (kw : Word .forWord) :
    Spells (Rows .statement [kw.token]) (Parse.forStatement (fuel + 1)) s := by
  refine .bind_expect fun (opening : Mark .leftParen) _ => ?_
  refine .bind_of_looks (fun _ _ => .bind (.unlessNext _ .expression) fun _ _ =>
    .bind (.expect _) fun _ _ => .bind (.unlessNext _ .expression) fun _ _ =>
    .bind (.expect _) fun _ s₆ => .bind ((programsLook fuel).statement s₆) fun _ _ => .pure)
    .forInitializer ?_
  rintro _ _ _ ⟨initializer, rfl⟩
  refine .bind_optionalExpression fun _ condition _ => ?_
  refine .bind_expect fun (stop : Mark .semicolon) _ => ?_
  refine .bind_optionalExpression fun _ increment _ => ?_
  refine .bind_expect fun (closing : Mark .rightParen) s₆ => ?_
  refine .bind_of_looks (fun _ _ => .pure) (ih.statement s₆) ?_
  rintro _ _ _ ⟨body, rfl⟩
  exact .pure ⟨forLoop kw opening initializer condition stop increment closing body,
    by simp [tokens]⟩

end ProgramsSpell

theorem programsSpell (fuel : Nat) : ProgramsSpell fuel := by
  induction fuel with
  | zero =>
    have hblock : ∀ opening : Mark .leftBrace, ∃ body ts, Rows .block [opening.token] body ts :=
      fun opening => ⟨([] : List Stmt), _, .block opening .noDeclaration (Mark.any _), rfl⟩
    exact {
      declaration := fun _ => .throw_exhausted <|
        (Rows.exists_nil .declaration).elim fun a ⟨ts, h⟩ => ⟨some a, ts, a, rfl, h⟩
      declarations := fun _ _ => .throw_exhausted (Rows.exists_nil _)
      block := fun opening _ => .throw_exhausted (hblock opening)
      functionDeclaration := fun kw _ => .throw_exhausted ⟨default, _, .function kw (Mark.any _)
        (Mark.any _) .none (Mark.any _) (.block (Mark.any _) .noDeclaration (Mark.any _)), rfl⟩
      statement := fun _ => .throw_exhausted (Rows.exists_nil _)
      forStatement := fun kw _ => .throw_exhausted ⟨default, _, .forLoop kw (Mark.any _)
        (.noInitializer (Mark.any _)) .noExpression (Mark.any _) .noExpression (Mark.any _)
        (.returning (Mark.any _) .noExpression (Mark.any _)), rfl⟩ }
  | succ fuel ih =>
    exact {
      declaration := fun _ => ih.step_declaration
      declarations := fun inBlock _ => ih.step_declarations inBlock
      block := fun opening _ => ih.step_block opening
      functionDeclaration := fun kw _ => ih.step_functionDeclaration kw
      statement := fun _ => ih.step_statement
      forStatement := fun kw _ => ih.step_forStatement kw }

end Grammar

end Lox
