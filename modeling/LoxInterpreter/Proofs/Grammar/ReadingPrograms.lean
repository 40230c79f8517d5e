import LoxInterpreter.Proofs.Grammar.DanglingElse
import LoxInterpreter.Proofs.Grammar.Reading

/-!
The parser reads what the grammar derives: statements, declarations, and whole programs.
-/

namespace Lox

namespace Grammar

open Parse (Parser State Level)

namespace Derivation

/-! ### Statements -/

theorem isRead_noExpression : noExpression.IsRead := by
  intro stop _ fuel more errors depth hmore
  obtain ⟨t, ts, rfl, ht⟩ := hmore
  rw [faults, List.append_nil]
  exact .unlessNext_none ht

theorem isRead_someExpression {e : Derivation .expression} (he : e.IsRead) :
    (someExpression e).IsRead := by
  intro stop hstop fuel more errors depth hmore
  have hfollow : ∀ k ∈ [Kind.semicolon, .rightParen],
      k ∉ Kind.equal :: afterChain .disjunction := by decide
  have hfirsts : ∀ k ∈ [Kind.semicolon, .rightParen], k ∉ expressionFirsts := by decide
  have h := he fuel more errors depth (hmore.mono fun k hk => hk ▸ hfollow stop hstop)
  obtain ⟨t, ts, ht, hk⟩ := e.begins rfl
  rw [ht] at h
  rw [tokens, ht]
  exact .unlessNext_some (fun heq => hfirsts stop hstop (heq ▸ hk)) h

theorem isRead_expressionStatement {e : Derivation .expression} {stop : Mark .semicolon}
    (he : e.IsRead) : (expressionStatement e stop).IsRead := by
  intro fuel more errors depth _
  rw [tokens, List.append_assoc]
  exact .bind (he fuel _ errors depth (begins_after_expression stop _ (by simp)))
    (.bind (.expect stop.kind_eq) .pure)

theorem isRead_varWithout {kw : Word .varWord} {name : Mark .identifier}
    {stop : Mark .semicolon} : (varWithout kw name stop).IsRead := by
  refine ⟨kw, _, rfl, fun fuel more errors depth _ => ?_⟩
  rw [faults, List.append_nil]
  have hstop : stop.token.kind ≠ .equal := by simp [stop.kind_eq]
  exact .bind (.expect name.kind_eq) (.bind (.afterOptional_none hstop)
    (.bind (.expect stop.kind_eq) .pure))

theorem isRead_varWith {kw : Word .varWord} {name : Mark .identifier} {equals : Mark .equal}
    {e : Derivation .expression} {stop : Mark .semicolon} (he : e.IsRead) :
    (varWith kw name equals e stop).IsRead := by
  refine ⟨kw, _, rfl, fun fuel more errors depth _ => ?_⟩
  rw [List.cons_append, List.cons_append, List.append_assoc]
  exact .bind (.expect name.kind_eq) (.bind (.afterOptional_some equals.kind_eq
    (he fuel _ errors depth (begins_after_expression stop _ (by simp))))
    (.bind (.expect stop.kind_eq) .pure))

theorem isRead_block {opening : Mark .leftBrace} {body : Derivation .declarations}
    {closing : Mark .rightBrace} (hbody : body.IsRead) :
    (block opening body closing).IsRead := by
  refine ⟨opening, _, rfl, Reads.of_succ rfl ?_⟩
  intro fuel more errors depth _
  rw [List.append_assoc]
  exact .bind (hbody true fuel _ errors depth (.cons (Or.inr ⟨rfl, closing.kind_eq⟩) _))
    (.bind (.expect closing.kind_eq) .pure)

/-- Where an expression begins, the parser of statements takes an expression statement. -/
theorem isRead_simple {s : Derivation .expressionStatement} (hs : s.IsRead) :
    (simple s).IsRead := by
  refine Reads.of_succ rfl ?_
  intro fuel more errors depth hmore
  have h := hs fuel more errors depth (hmore.mono fun _ _ => trivial)
  obtain ⟨t, ts, ht, hk⟩ := s.begins rfl
  rw [ht] at h
  rw [tokens, ht]
  refine .bind .peek ?_
  -- No token that other statements begin with can begin an expression.
  split
  case h_7 => exact h
  all_goals
    rename_i heq
    rw [heq] at hk
    exact absurd hk (by decide)

theorem isRead_print {kw : Word .printWord} {e : Derivation .expression}
    {stop : Mark .semicolon} (he : e.IsRead) : (print kw e stop).IsRead := by
  refine Reads.of_succ rfl ?_
  intro fuel more errors depth _
  rw [tokens, List.cons_append, List.append_assoc]
  refine .bind .peek ?_
  rw [kw.kind_eq]
  exact .bind .advance
    (.bind (he fuel _ errors depth (begins_after_expression stop _ (by simp)))
      (.bind (.expect stop.kind_eq) .pure))

theorem isRead_ifOnly {kw : Word .ifWord} {opening : Mark .leftParen}
    {condition : Derivation .expression} {closing : Mark .rightParen}
    {thenBranch : Derivation .statement} (hcondition : condition.IsRead)
    (hthen : thenBranch.IsRead) :
    (ifOnly kw opening condition closing thenBranch).IsRead := by
  refine Reads.of_succ rfl ?_
  intro fuel more errors depth hmore
  have helse : Begins (· ≠ .keyword .elseWord) more := hmore.mono fun _ hk => hk rfl
  rw [tokens, List.cons_append, List.cons_append, List.append_assoc, List.cons_append, faults,
    ← List.append_assoc errors]
  refine .bind .peek ?_
  rw [kw.kind_eq]
  refine .bind .advance (.bind (.expect opening.kind_eq)
    (.bind (hcondition fuel _ errors depth (begins_after_expression closing _ (by simp)))
      (.bind (.expect closing.kind_eq)
        (.bind (hthen fuel more _ depth (helse.mono fun _ hk _ => hk)) ?_))))
  obtain ⟨t, ts, rfl, ht⟩ := helse
  exact .bind (.afterOptional_none ht) .pure

theorem isRead_ifElse {kw : Word .ifWord} {opening : Mark .leftParen}
    {condition : Derivation .expression} {closing : Mark .rightParen}
    {thenBranch elseBranch : Derivation .statement} {elseKw : Word .elseWord}
    (hcondition : condition.IsRead) (hthen : thenBranch.IsRead) (helse : elseBranch.IsRead)
    (hclosed : thenBranch.endsOpen = false) :
    (ifElse kw opening condition closing thenBranch elseKw elseBranch).IsRead := by
  refine Reads.of_succ rfl ?_
  intro fuel more errors depth hmore
  rw [tokens, List.cons_append, List.cons_append, List.append_assoc, List.cons_append,
    List.append_assoc, List.cons_append, faults, ← List.append_assoc errors,
    ← List.append_assoc errors]
  refine .bind .peek ?_
  rw [kw.kind_eq]
  refine .bind .advance (.bind (.expect opening.kind_eq)
    (.bind (hcondition fuel _ errors depth (begins_after_expression closing _ (by simp)))
      (.bind (.expect closing.kind_eq)
        (.bind (hthen fuel _ _ depth (.cons (fun hopen => ?_) _))
          (.bind (.afterOptional_some elseKw.kind_eq (helse fuel more _ depth hmore))
            .pure)))))
  rw [hclosed] at hopen
  cases hopen

theorem isRead_whileLoop {kw : Word .whileWord} {opening : Mark .leftParen}
    {condition : Derivation .expression} {closing : Mark .rightParen}
    {body : Derivation .statement} (hcondition : condition.IsRead) (hbody : body.IsRead) :
    (whileLoop kw opening condition closing body).IsRead := by
  refine Reads.of_succ rfl ?_
  intro fuel more errors depth hmore
  rw [tokens, List.cons_append, List.cons_append, List.append_assoc, List.cons_append, faults,
    ← List.append_assoc errors]
  refine .bind .peek ?_
  rw [kw.kind_eq]
  exact .bind .advance (.bind (.expect opening.kind_eq)
    (.bind (hcondition fuel _ errors depth (begins_after_expression closing _ (by simp)))
      (.bind (.expect closing.kind_eq) (.bind (hbody fuel more _ depth hmore) .pure))))

theorem isRead_noInitializer {stop : Mark .semicolon} : (noInitializer stop).IsRead := by
  intro fuel more errors depth _
  rw [faults, List.append_nil]
  refine .bind .peek ?_
  rw [stop.kind_eq]
  exact .bind .advance .pure

theorem isRead_varInitializer {v : Derivation .varDeclaration} (hv : v.IsRead) :
    (varInitializer v).IsRead := by
  obtain ⟨kw, ts, hts, hv⟩ := hv
  intro fuel more errors depth hmore
  rw [tokens, hts]
  refine .bind .peek ?_
  rw [kw.kind_eq]
  exact .bind .advance (.map (hv fuel more errors depth hmore))

theorem isRead_simpleInitializer {s : Derivation .expressionStatement} (hs : s.IsRead) :
    (simpleInitializer s).IsRead := by
  intro fuel more errors depth hmore
  have h := hs fuel more errors depth hmore
  obtain ⟨t, ts, ht, hk⟩ := s.begins rfl
  rw [ht] at h
  rw [tokens, ht]
  refine .bind .peek ?_
  split
  case h_3 => exact .map h
  all_goals
    rename_i heq
    rw [heq] at hk
    exact absurd hk (by decide)

theorem isRead_forLoop {kw : Word .forWord} {opening : Mark .leftParen}
    {initializer : Derivation .forInitializer} {condition : Derivation .optionalExpression}
    {stop : Mark .semicolon} {increment : Derivation .optionalExpression}
    {closing : Mark .rightParen} {body : Derivation .statement}
    (hinitializer : initializer.IsRead) (hcondition : condition.IsRead)
    (hincrement : increment.IsRead) (hbody : body.IsRead) :
    (forLoop kw opening initializer condition stop increment closing body).IsRead := by
  refine Reads.of_succ rfl ?_
  intro fuel more errors depth hmore
  rw [tokens, List.cons_append, List.cons_append, List.append_assoc, List.append_assoc,
    List.cons_append, List.append_assoc, List.cons_append, faults, ← List.append_assoc errors,
    ← List.append_assoc errors, ← List.append_assoc errors]
  refine .bind .peek ?_
  rw [kw.kind_eq]
  refine .bind .advance ?_
  cases fuel with
  | zero => exact .throw_exhausted
  | succ fuel =>
    have hcondition := hcondition .semicolon (by simp) fuel
    have hincrement := hincrement .rightParen (by simp) fuel
    refine .bind (.expect opening.kind_eq)
      (.bind (hinitializer fuel _ errors depth ?_)
        (.bind (hcondition _ _ depth (.cons stop.kind_eq _))
          (.bind (.expect stop.kind_eq)
            (.bind (hincrement _ _ depth (.cons closing.kind_eq _))
              (.bind (.expect closing.kind_eq)
                (.bind (hbody fuel more _ depth hmore) .pure))))))
    exact (Begins.any _ _).prepend condition.tokens

theorem isRead_returning {kw : Word .returnWord} {value : Derivation .optionalExpression}
    {stop : Mark .semicolon} (hvalue : value.IsRead) : (returning kw value stop).IsRead := by
  refine Reads.of_succ rfl ?_
  intro fuel more errors depth _
  rw [tokens, List.cons_append, List.append_assoc, faults, ← List.append_assoc errors]
  refine .bind .peek ?_
  rw [kw.kind_eq]
  have hreject : Takes (Parse.rejectTopLevel kw.token)
      ⟨value.tokens ++ ([stop.token] ++ more), errors, depth⟩ ()
      ⟨value.tokens ++ ([stop.token] ++ more),
        errors ++ (if depth = 0 then [⟨kw.token, .topLevelReturn⟩] else []), depth⟩ := by
    refine .of_eq ((Parse.rejectTopLevel_apply kw.token _).trans ?_)
    by_cases h : depth = 0
    · rw [if_pos h, if_pos h]
      rfl
    · rw [if_neg h, if_neg h, List.append_nil]
      rfl
  have hvalue := hvalue .semicolon (by simp) fuel
  exact .bind .advance (.bind hreject
    (.bind (hvalue _ _ depth (.cons stop.kind_eq _)) (.bind (.expect stop.kind_eq) .pure)))

theorem isRead_compound {b : Derivation .block} (hb : b.IsRead) : (compound b).IsRead := by
  obtain ⟨opening, ts, hts, hb⟩ := hb
  refine Reads.of_succ rfl ?_
  intro fuel more errors depth hmore
  rw [tokens, hts]
  refine .bind .peek ?_
  rw [opening.kind_eq]
  exact .bind .advance (.bind (hb fuel more errors depth (hmore.mono fun _ _ => trivial)) .pure)

/-! ### Declarations -/

theorem reads_names (names : Names) (count : Nat) :
    Reads (Parse.parameters · count) names.tokens names.list (fun _ => names.faults count)
      (· = .rightParen) := by
  induction names generalizing count with
  | last name =>
    refine Reads.of_succ rfl ?_
    intro fuel more errors depth hmore
    obtain ⟨t, ts, rfl, ht⟩ := hmore
    have hcomma : t.kind ≠ .comma := by simp [ht]
    exact .bind (.limit (.any _ _))
      (.bind (.expect name.kind_eq) (.bind (.accept_none hcomma) .pure))
  | more name comma rest ih =>
    refine Reads.of_succ rfl ?_
    intro fuel more errors depth hmore
    rw [Names.faults, ← List.append_assoc errors]
    exact .bind (.limit (.any _ _))
      (.bind (.expect name.kind_eq) (.bind (.accept comma.kind_eq)
        (.bind (ih (count + 1) fuel more _ depth hmore) .pure)))

theorem reads_parameters (params : Parameters) :
    Reads (fun fuel => Parse.listBeforeParen (Parse.parameters fuel 0)) params.tokens params.list
      (fun _ => params.faults) (· = .rightParen) := by
  intro fuel more errors depth hmore
  cases params with
  | none =>
    obtain ⟨t, ts, rfl, ht⟩ := hmore
    dsimp only
    rw [Parameters.faults, List.append_nil]
    exact .listBeforeParen_nil ht
  | some names =>
    have h := reads_names names 0 fuel more errors depth hmore
    have hbegins : ∃ (name : Mark .identifier) (ts : List Token),
        names.tokens = name.token :: ts := by
      cases names with
      | last name => exact ⟨name, _, rfl⟩
      | more name comma rest => exact ⟨name, _, rfl⟩
    obtain ⟨name, ts, hts⟩ := hbegins
    have hparen : name.token.kind ≠ .rightParen := by simp [name.kind_eq]
    rw [Parameters.tokens, hts]
    rw [hts] at h
    exact .listBeforeParen_of_takes hparen h

theorem isRead_variableDeclaration {v : Derivation .varDeclaration} (hv : v.IsRead) :
    (variableDeclaration v).IsRead := by
  obtain ⟨kw, ts, hts, hv⟩ := hv
  refine Reads.of_succ rfl ?_
  intro fuel more errors depth hmore
  rw [tokens, hts]
  refine .recovering (.bind .peek ?_)
  rw [kw.kind_eq]
  exact .bind .advance (hv fuel more errors depth (hmore.mono fun _ _ => trivial))

theorem isRead_function {kw : Word .funWord} {name : Mark .identifier}
    {opening : Mark .leftParen} {params : Parameters} {closing : Mark .rightParen}
    {body : Derivation .block} (hbody : body.IsRead) :
    (function kw name opening params closing body).IsRead := by
  obtain ⟨brace, ts, hts, hbody⟩ := hbody
  refine Reads.of_succ rfl ?_
  intro fuel more errors depth hmore
  rw [tokens, hts, List.cons_append, List.cons_append, List.cons_append, List.append_assoc,
    List.cons_append, List.cons_append, faults, ← List.append_assoc errors]
  refine .recovering (.bind .peek ?_)
  rw [kw.kind_eq]
  refine .bind .advance ?_
  cases fuel with
  | zero => exact .throw_exhausted
  | succ fuel =>
    have hblock := hbody fuel more (errors ++ params.faults) (depth + 1)
      (hmore.mono fun _ _ => trivial)
    exact .bind (.expect name.kind_eq) (.bind (.expect opening.kind_eq)
      (.bind (reads_parameters params fuel _ errors depth (.cons closing.kind_eq _))
        (.bind (.expect closing.kind_eq) (.bind (.expect brace.kind_eq)
          (.bind (.inFunction hblock) .pure)))))

theorem isRead_statement {s : Derivation .statement} (hs : s.IsRead) :
    (statement s).IsRead := by
  refine Reads.of_succ rfl ?_
  intro fuel more errors depth hmore
  have h := hs fuel more errors depth (hmore.mono fun _ hk _ => hk)
  obtain ⟨t, ts, ht, hk⟩ := s.begins rfl
  rw [ht] at h
  rw [tokens, ht]
  refine .recovering (.bind .peek ?_)
  split
  case h_3 => exact h
  all_goals
    rename_i heq
    rw [heq] at hk
    exact absurd hk (by decide)

theorem isRead_noDeclaration : noDeclaration.IsRead := by
  intro inBlock
  refine Reads.of_succ rfl ?_
  intro fuel more errors depth hmore
  obtain ⟨t, ts, rfl, ht⟩ := hmore
  rw [faults, List.append_nil]
  refine .bind .peek ?_
  have hends : (t.kind == .eof || (inBlock && t.kind == .rightBrace)) = true := by
    simpa using ht
  rw [if_pos hends]
  exact .pure

/-- No declaration begins with `else`. -/
theorem begins_after_declaration (rest : Derivation .declarations) {more : List Token}
    (h : Begins (· ≠ .keyword .elseWord) more) :
    Begins (· ≠ .keyword .elseWord) (rest.tokens ++ more) := by
  match rest with
  | noDeclaration => exact h
  | moreDeclarations first rest =>
    have hfirsts : ∀ k ∈ declarationFirsts, k ≠ .keyword .elseWord := by decide
    exact (((first.begins rfl).mono hfirsts).append _).append _

theorem isRead_moreDeclarations {first : Derivation .declaration}
    {rest : Derivation .declarations} (hfirst : first.IsRead) (hrest : rest.IsRead) :
    (moreDeclarations first rest).IsRead := by
  intro inBlock
  refine Reads.of_succ rfl ?_
  intro fuel more errors depth hmore
  -- Nothing that ends declarations is an `else` either.
  have helse : Begins (· ≠ .keyword .elseWord) more := by
    refine hmore.mono ?_
    rintro k (rfl | ⟨-, rfl⟩) <;> decide
  have hdeclaration := hfirst fuel (rest.tokens ++ more) errors depth
    (begins_after_declaration rest helse)
  obtain ⟨t, ts, ht, hk⟩ := first.begins rfl
  rw [ht] at hdeclaration
  rw [tokens, List.append_assoc, ht, faults, ← List.append_assoc errors]
  refine .bind .peek ?_
  have hends : ¬ (t.kind == .eof || (inBlock && t.kind == .rightBrace)) = true := by
    have hfirsts : ∀ k ∈ declarationFirsts, k ≠ .eof ∧ k ≠ .rightBrace := by decide
    obtain ⟨heof, hbrace⟩ := hfirsts _ hk
    simp [heof, hbrace]
  rw [if_neg hends]
  exact .bind hdeclaration (.bind (hrest inBlock fuel more _ depth hmore) .pure)

/-- What the grammar derives is read as its tree. -/
theorem isRead {c : Category} (d : Derivation c) (h : d.ElseNearest) : d.IsRead := by
  rw [ElseNearest] at h
  induction d with
  | noDeclaration => exact isRead_noDeclaration
  | moreDeclarations _ _ ihfirst ihrest =>
    exact isRead_moreDeclarations (ihfirst h.2.1) (ihrest h.2.2)
  | variableDeclaration _ ih => exact isRead_variableDeclaration (ih h.2)
  | function _ _ _ _ _ _ ih => exact isRead_function (ih (elseNearest_of_all h.2 0))
  | statement _ ih => exact isRead_statement (ih h.2)
  | varWithout => exact isRead_varWithout
  | varWith _ _ _ _ _ ih => exact isRead_varWith (ih h.2)
  | block _ _ _ ih => exact isRead_block (ih h.2)
  | simple _ ih => exact isRead_simple (ih h.2)
  | print _ _ _ ih => exact isRead_print (ih h.2)
  | ifOnly _ _ _ _ _ ihcondition ihthen =>
    exact isRead_ifOnly (ihcondition h.2.1) (ihthen h.2.2)
  | ifElse _ _ _ _ _ _ _ ihcondition ihthen ihelse =>
    exact isRead_ifElse (ihcondition h.2.1) (ihthen h.2.2.1) (ihelse h.2.2.2) h.1
  | whileLoop _ _ _ _ _ ihcondition ihbody =>
    exact isRead_whileLoop (ihcondition h.2.1) (ihbody h.2.2)
  | forLoop _ _ _ _ _ _ _ _ ihinitializer ihcondition ihincrement ihbody =>
    exact isRead_forLoop (ihinitializer h.2.1) (ihcondition h.2.2.1) (ihincrement h.2.2.2.1)
      (ihbody h.2.2.2.2)
  | returning _ _ _ ih => exact isRead_returning (ih h.2)
  | compound _ ih => exact isRead_compound (ih h.2)
  | expressionStatement _ _ ih => exact isRead_expressionStatement (ih h.2)
  | noInitializer => exact isRead_noInitializer
  | varInitializer _ ih => exact isRead_varInitializer (ih h.2)
  | simpleInitializer _ ih => exact isRead_simpleInitializer (ih h.2)
  | noExpression => exact isRead_noExpression
  | someExpression _ ih => exact isRead_someExpression (ih h.2)
  | assign _ _ _ ihtarget ihvalue => exact isRead_assign (ihtarget h.2.1) (ihvalue h.2.2)
  | disjunction _ ih => exact isRead_disjunction (ih h.2)
  | chain _ _ ihfirst ihrest => exact isRead_chain (ihfirst h.2.1) (ihrest h.2.2)
  | noOperator => exact isRead_noOperator
  | moreOperators _ _ _ ihright ihrest =>
    exact isRead_moreOperators (ihright h.2.1) (ihrest h.2.2)
  | tighter htighter _ ih => exact isRead_tighter htighter (ih h.2)
  | tightest _ ih => exact isRead_tightest (ih h.2)
  | prefixed _ _ ih => exact isRead_prefixed (ih h.2)
  | call _ _ ihcallee ihrest => exact isRead_call (ihcallee h.2.1) (ihrest h.2.2)
  | noCall => exact isRead_noCall
  | moreCalls _ _ _ _ ihargs ihrest => exact isRead_moreCalls (ihargs h.2.1) (ihrest h.2.2)
  | noArguments => exact isRead_noArguments
  | someArguments _ ih => exact isRead_someArguments (ih h.2)
  | lastArgument _ ih => exact isRead_lastArgument (ih h.2)
  | moreArguments _ _ _ ihe ihrest => exact isRead_moreArguments (ihe h.2.1) (ihrest h.2.2)
  | literal => exact isRead_literal
  | named => exact isRead_named
  | grouping _ _ _ ih => exact isRead_grouping (ih h.2)

end Derivation

end Grammar

end Lox
