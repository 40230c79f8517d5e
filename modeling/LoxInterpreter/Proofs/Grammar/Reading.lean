import LoxInterpreter.Proofs.Grammar.Takes

/-!
What the grammar derives, the parser reads. The tokens of a derivation in which each `else`
belongs to the nearest `if` are read as its tree, and exactly its faults are recorded, whatever
follows that does not go on with it. There is one lemma for each form of derivation, which says
that the form is read if its parts are, and the induction only puts them together.
-/

namespace Lox

namespace Grammar

open Parse (Parser State Level)

/-- The kinds of tokens that go on with an operand of a level. -/
def afterOperand : Level → List Kind
  | .factor => [.leftParen]
  | .term => .leftParen :: operators .factor
  | .comparison => .leftParen :: operators .factor ++ operators .term
  | .equality => .leftParen :: operators .factor ++ operators .term ++ operators .comparison
  | .conjunction =>
    .leftParen :: operators .factor ++ operators .term ++ operators .comparison ++
      operators .equality
  | .disjunction =>
    .leftParen :: operators .factor ++ operators .term ++ operators .comparison ++
      operators .equality ++ operators .conjunction

def afterChain (l : Level) : List Kind := afterOperand l ++ operators l

theorem afterChain_of_tighter {l l' : Level} (h : Tighter l l') :
    afterChain l' = afterOperand l := by
  cases h <;> rfl

theorem not_mem_afterOperand_of_mem_operators {l : Level} :
    ∀ k ∈ operators l, k ∉ afterOperand l := by
  cases l <;> decide

/-- Whatever its fuel, `p` reads `tokens` as `tree` and records `faults`, if what follows begins
with a token of a kind that is admitted. -/
def Reads {α : Type} (p : Nat → Parser α) (tokens : List Token) (tree : α)
    (faults : Nat → List SyntaxError) (admitted : Kind → Prop) : Prop :=
  ∀ fuel rest errors depth, Begins admitted rest →
    Takes (p fuel) ⟨tokens ++ rest, errors, depth⟩ tree ⟨rest, errors ++ faults depth, depth⟩

/-- Without fuel a parser reads nothing, so that it is enough to look at what it does with some. -/
theorem Reads.of_succ {α : Type} {p : Nat → Parser α} {tokens : List Token} {tree : α}
    {faults : Nat → List SyntaxError} {admitted : Kind → Prop}
    (hzero : p 0 = throw .exhausted)
    (h : ∀ fuel rest errors depth, Begins admitted rest →
      Takes (p (fuel + 1)) ⟨tokens ++ rest, errors, depth⟩ tree
        ⟨rest, errors ++ faults depth, depth⟩) :
    Reads p tokens tree faults admitted := by
  intro fuel rest errors depth hrest
  cases fuel with
  | zero =>
    rw [hzero]
    exact .throw_exhausted
  | succ fuel => exact h fuel rest errors depth hrest

namespace Derivation

def IsRead : {c : Category} → Derivation c → Prop
  | .declarations, d => ∀ inBlock, Reads (Parse.declarations · inBlock) d.tokens d.tree
      d.faults fun k => k = .eof ∨ inBlock = true ∧ k = .rightBrace
  | .declaration, d =>
    Reads Parse.declaration d.tokens (some d.tree) d.faults (· ≠ .keyword .elseWord)
  | .varDeclaration, d => ∃ (kw : Word .varWord) (ts : List Token), d.tokens = kw.token :: ts ∧
      Reads Parse.varDeclaration ts d.tree d.faults fun _ => True
  | .block, d => ∃ (opening : Mark .leftBrace) (ts : List Token),
      d.tokens = opening.token :: ts ∧ Reads Parse.block ts d.tree d.faults fun _ => True
  | .statement, d => Reads Parse.statement d.tokens d.tree d.faults fun k =>
      d.endsOpen = true → k ≠ .keyword .elseWord
  | .expressionStatement, d =>
    Reads Parse.expressionStatement d.tokens d.tree d.faults fun _ => True
  | .forInitializer, d => Reads Parse.forInitializer d.tokens d.tree d.faults fun _ => True
  | .optionalExpression, d => ∀ stop ∈ [Kind.semicolon, .rightParen],
      Reads (fun fuel => Parse.unlessNext stop (Parse.expression fuel)) d.tokens d.tree
        d.faults (· = stop)
  | .expression, d => Reads Parse.expression d.tokens d.tree d.faults fun k =>
      k ∉ .equal :: afterChain .disjunction
  | .chain l, d => Reads (Parse.chain · l) d.tokens d.tree d.faults (· ∉ afterChain l)
  | .chainRest l, d => ∀ left,
      Reads (Parse.chainAfter · l left) d.tokens (d.tree left) d.faults (· ∉ afterChain l)
  | .operand l, d => Reads (Parse.operand · l) d.tokens d.tree d.faults (· ∉ afterOperand l)
  | .unary, d => Reads Parse.unary d.tokens d.tree d.faults (· ≠ .leftParen)
  | .callRest, d => ∀ callee,
      Reads (Parse.callAfter · callee) d.tokens (d.tree callee) d.faults (· ≠ .leftParen)
  | .optionalArguments, d => Reads (fun fuel => Parse.listBeforeParen (Parse.arguments fuel 0))
      d.tokens d.tree d.faults (· = .rightParen)
  | .arguments n, d =>
    Reads (Parse.arguments · n) d.tokens d.tree d.faults (· = .rightParen)
  | .primary, d => Reads Parse.primary d.tokens d.tree d.faults fun _ => True

/-! ### Expressions -/

/-- What follows an expression in a statement does not go on with it. -/
theorem begins_after_expression {k : Kind} (m : Mark k) (ts : List Token)
    (h : k ∈ [Kind.semicolon, .rightParen, .comma]) :
    Begins (· ∉ Kind.equal :: afterChain .disjunction) (m.token :: ts) := by
  have hstop : ∀ k ∈ [Kind.semicolon, .rightParen, .comma],
      k ∉ Kind.equal :: afterChain .disjunction := by decide
  exact Begins.cons (m.kind_eq.symm ▸ hstop k h) ts

theorem begins_after_operand {l : Level} (rest : Derivation (.chainRest l)) {more : List Token}
    (h : Begins (· ∉ afterChain l) more) :
    Begins (· ∉ afterOperand l) (rest.tokens ++ more) := by
  match rest with
  | noOperator => exact h.mono fun _ hk hmem => hk (List.mem_append_left _ hmem)
  | moreOperators operator right rest =>
    exact Begins.cons (not_mem_afterOperand_of_mem_operators _ operator.kind_mem) _

theorem isRead_chain {l : Level} {first : Derivation (.operand l)}
    {rest : Derivation (.chainRest l)} (hfirst : first.IsRead) (hrest : rest.IsRead) :
    (chain first rest).IsRead := by
  refine Reads.of_succ rfl ?_
  intro fuel more errors depth hmore
  rw [tokens, List.append_assoc, faults, ← List.append_assoc errors]
  exact .bind (hfirst fuel _ errors depth (begins_after_operand rest hmore))
    (hrest first.tree fuel more _ depth hmore)

theorem isRead_noOperator {l : Level} : (noOperator (l := l)).IsRead := by
  intro left
  refine Reads.of_succ rfl ?_
  intro fuel more errors depth hmore
  obtain ⟨t, ts, rfl, ht⟩ := hmore
  rw [faults, List.append_nil]
  have hjoins : l.joins t.kind = false :=
    joins_eq_false_iff.2 fun hmem => ht (List.mem_append_right _ hmem)
  exact .bind (.acceptWhen_none hjoins) .pure

theorem isRead_moreOperators {l : Level} {operator : Terminal (operators l)}
    {right : Derivation (.operand l)} {rest : Derivation (.chainRest l)}
    (hright : right.IsRead) (hrest : rest.IsRead) :
    (moreOperators operator right rest).IsRead := by
  intro left
  refine Reads.of_succ rfl ?_
  intro fuel more errors depth hmore
  rw [tokens, List.cons_append, List.append_assoc, faults, ← List.append_assoc errors]
  have htree : (moreOperators operator right rest).tree left =
      rest.tree (l.join left operator.token right.tree) := by
    rw [join_eq]
    rfl
  rw [htree]
  exact .bind (.acceptWhen (joins_iff.2 operator.kind_mem))
    (.bind (hright fuel _ errors depth (begins_after_operand rest hmore))
      (hrest _ fuel more _ depth hmore))

theorem isRead_tighter {l l' : Level} (h : Tighter l l') {e : Derivation (.chain l')}
    (he : e.IsRead) : (tighter h e).IsRead := by
  refine Reads.of_succ rfl ?_
  intro fuel more errors depth hmore
  rw [← afterChain_of_tighter h] at hmore
  rw [Parse.operand, tighter?_eq_some_iff.2 h]
  exact he fuel more errors depth hmore

theorem isRead_tightest {e : Derivation .unary} (he : e.IsRead) : (tightest e).IsRead := by
  refine Reads.of_succ rfl ?_
  intro fuel more errors depth hmore
  exact he fuel more errors depth (hmore.mono fun _ hk h => hk (List.mem_singleton.2 h))

theorem isRead_prefixed {operator : Terminal [.bang, .minus]} {right : Derivation .unary}
    (hright : right.IsRead) : (prefixed operator right).IsRead := by
  refine Reads.of_succ rfl ?_
  intro fuel more errors depth hmore
  have hop : Parse.isUnaryOperator operator.token.kind = true := by
    have h := operator.kind_mem
    simpa [Parse.isUnaryOperator] using h
  exact .bind (.acceptWhen hop) (.bind (hright fuel more errors depth hmore) .pure)

theorem isRead_call {callee : Derivation .primary} {rest : Derivation .callRest}
    (hcallee : callee.IsRead) (hrest : rest.IsRead) : (call callee rest).IsRead := by
  refine Reads.of_succ rfl ?_
  intro fuel more errors depth hmore
  obtain ⟨t, ts, ht, hk⟩ := callee.begins rfl
  have hprimary := hcallee fuel (rest.tokens ++ more) errors depth (hmore.prepend _)
  rw [ht] at hprimary
  rw [tokens, List.append_assoc, ht, faults, ← List.append_assoc errors]
  have hop : Parse.isUnaryOperator t.kind = false := by
    have hfirsts : ∀ k ∈ primaryFirsts, Parse.isUnaryOperator k = false := by decide
    exact hfirsts _ hk
  exact .bind (.acceptWhen_none hop)
    (.bind hprimary (hrest callee.tree fuel more _ depth hmore))

theorem isRead_noCall : noCall.IsRead := by
  intro callee
  refine Reads.of_succ rfl ?_
  intro fuel more errors depth hmore
  obtain ⟨t, ts, rfl, ht⟩ := hmore
  rw [faults, List.append_nil]
  exact .bind (.accept_none ht) .pure

theorem isRead_moreCalls {opening : Mark .leftParen} {args : Derivation .optionalArguments}
    {closing : Mark .rightParen} {rest : Derivation .callRest} (hargs : args.IsRead)
    (hrest : rest.IsRead) : (moreCalls opening args closing rest).IsRead := by
  intro callee
  refine Reads.of_succ rfl ?_
  intro fuel more errors depth hmore
  rw [tokens, List.cons_append, List.append_assoc, List.cons_append, faults,
    ← List.append_assoc errors]
  exact .bind (.accept opening.kind_eq)
    (.bind (hargs fuel _ errors depth (.cons closing.kind_eq _))
      (.bind (.expect closing.kind_eq) (hrest _ fuel more _ depth hmore)))

theorem isRead_noArguments : noArguments.IsRead := by
  intro fuel more errors depth hmore
  obtain ⟨t, ts, rfl, ht⟩ := hmore
  rw [faults, List.append_nil]
  exact .listBeforeParen_nil ht

theorem isRead_someArguments {args : Derivation (.arguments 0)} (hargs : args.IsRead) :
    (someArguments args).IsRead := by
  intro fuel more errors depth hmore
  have h := hargs fuel more errors depth hmore
  obtain ⟨t, ts, ht, hk⟩ := args.begins rfl
  rw [ht] at h
  rw [tokens, ht]
  exact .listBeforeParen_of_takes (fun heq => by rw [heq] at hk; revert hk; decide) h

theorem isRead_lastArgument {n : Nat} {e : Derivation .expression} (he : e.IsRead) :
    (lastArgument (n := n) e).IsRead := by
  refine Reads.of_succ rfl ?_
  intro fuel more errors depth hmore
  have hbegins := (e.begins rfl)
  obtain ⟨t, ts, rfl, ht⟩ := hmore
  rw [tokens, faults, ← List.append_assoc errors, ← overlong_append hbegins (t :: ts)]
  refine .bind (.limit (hbegins.append _)) (.bind (he fuel _ _ depth ?_)
    (.bind (.accept_none ?_) .pure))
  · exact Begins.cons (by rw [ht]; decide) _
  · rw [ht]
    decide

theorem isRead_moreArguments {n : Nat} {e : Derivation .expression} {comma : Mark .comma}
    {rest : Derivation (.arguments (n + 1))} (he : e.IsRead) (hrest : rest.IsRead) :
    (moreArguments e comma rest).IsRead := by
  refine Reads.of_succ rfl ?_
  intro fuel more errors depth hmore
  have hbegins := (e.begins rfl)
  rw [tokens, List.append_assoc, List.cons_append, faults, ← List.append_assoc errors,
    ← List.append_assoc errors, ← overlong_append hbegins (comma.token :: (rest.tokens ++ more))]
  exact .bind (.limit (hbegins.append _))
    (.bind (he fuel _ _ depth (begins_after_expression comma _ (by simp)))
      (.bind (.accept comma.kind_eq) (.bind (hrest fuel more _ depth hmore) .pure)))

theorem isRead_literal {t : Terminal literals} : (literal t).IsRead := by
  refine Reads.of_succ rfl ?_
  intro fuel more errors depth _
  have hk := t.kind_mem
  rw [faults, List.append_nil]
  refine .bind .peek ?_
  simp only [literals, List.mem_cons, List.not_mem_nil, or_false] at hk
  rcases hk with h | h | h | h | h <;> rw [h, tree, literalOf, h] <;> exact .bind .advance .pure

theorem isRead_named {t : Mark .identifier} : (named t).IsRead := by
  refine Reads.of_succ rfl ?_
  intro fuel more errors depth _
  rw [faults, List.append_nil]
  refine .bind .peek ?_
  rw [t.kind_eq]
  exact .bind .advance .pure

theorem isRead_grouping {opening : Mark .leftParen} {e : Derivation .expression}
    {closing : Mark .rightParen} (he : e.IsRead) : (grouping opening e closing).IsRead := by
  refine Reads.of_succ rfl ?_
  intro fuel more errors depth _
  rw [tokens, List.cons_append, List.append_assoc]
  refine .bind .peek ?_
  rw [opening.kind_eq]
  exact .bind .advance
    (.bind (he fuel _ errors depth (begins_after_expression closing _ (by simp)))
      (.bind (.expect closing.kind_eq) .pure))

theorem isRead_assign {target : Derivation (.chain .disjunction)} {equals : Mark .equal}
    {value : Derivation .expression} (htarget : target.IsRead) (hvalue : value.IsRead) :
    (assign target equals value).IsRead := by
  refine Reads.of_succ rfl ?_
  intro fuel more errors depth hmore
  have hequals : Begins (· ∉ afterChain .disjunction)
      (equals.token :: (value.tokens ++ more)) :=
    Begins.cons (by rw [equals.kind_eq]; decide) _
  rw [tokens, List.append_assoc, List.cons_append, tree, faults, ← List.append_assoc errors,
    ← List.append_assoc errors]
  refine .bind (htarget fuel _ errors depth hequals) (.bind (.accept equals.kind_eq)
    (.bind (hvalue fuel more _ depth hmore) ?_))
  cases target.tree with
  | «variable» name =>
    rw [List.append_nil]
    exact .pure
  | _ => exact .bind (.of_eq rfl) .pure

theorem isRead_disjunction {e : Derivation (.chain .disjunction)} (he : e.IsRead) :
    (disjunction e).IsRead := by
  refine Reads.of_succ rfl ?_
  intro fuel more errors depth hmore
  have h := he fuel more errors depth
    (hmore.mono fun _ hk hmem => hk (List.mem_cons_of_mem _ hmem))
  obtain ⟨t, ts, rfl, ht⟩ := hmore
  exact .bind h (.bind (.accept_none fun heq => ht (heq ▸ List.mem_cons_self)) .pure)

end Derivation

end Grammar

end Lox
