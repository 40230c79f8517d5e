import LoxInterpreter.Proofs.Grammar.Lookahead
import LoxInterpreter.Proofs.Grammar.Progress

/-!
Beginnings of programs. Where the tokens run out before a parser gives up, they can be completed:
the grammar derives a row of tokens that begins with them. `Spells L p s` says so of a parser and
of the rows that it is there to read. The tokens of the state need not end with an end of text, and
the fuel need not be enough for them.
-/

namespace Lox

namespace Grammar

open Parse (Parser State Level)

variable {α β : Type} {s : State}

/-! ### Rows of tokens -/

/-- With `front` before it, the row of tokens is derived. -/
def Rows (c : Category) (front : List Token) (_ : α) (ts : List Token) : Prop :=
  ∃ d : Derivation c, d.tokens = front ++ ts

theorem Tighter.nonempty_operand {l l' : Level} (h : Tighter l l')
    (d : Nonempty (Derivation (.operand l'))) : Nonempty (Derivation (.operand l)) := by
  obtain ⟨d⟩ := d
  exact ⟨.tighter h (.chain d .noOperator)⟩

theorem nonempty_operand (l : Level) : Nonempty (Derivation (.operand l)) := by
  have hfactor : Nonempty (Derivation (.operand .factor)) :=
    ⟨.tightest (.call (.named (Mark.any _)) .noCall)⟩
  have hterm := Tighter.factors.nonempty_operand hfactor
  have hcomparison := Tighter.terms.nonempty_operand hterm
  have hequality := Tighter.comparisons.nonempty_operand hcomparison
  have hconjunction := Tighter.equalities.nonempty_operand hequality
  cases l with
  | disjunction => exact Tighter.conjunctions.nonempty_operand hconjunction
  | conjunction => exact hconjunction
  | equality => exact hequality
  | comparison => exact hcomparison
  | term => exact hterm
  | factor => exact hfactor

/-- The grammar derives something of each category. -/
theorem Derivation.nonempty (c : Category) : Nonempty (Derivation c) := by
  have hchain (l : Level) : Nonempty (Derivation (.chain l)) := by
    obtain ⟨d⟩ := nonempty_operand l
    exact ⟨.chain d .noOperator⟩
  obtain ⟨e⟩ := hchain .disjunction
  let statement : Derivation .statement := .returning (Mark.any _) .noExpression (Mark.any _)
  cases c with
  | declarations => exact ⟨.noDeclaration⟩
  | declaration => exact ⟨.statement statement⟩
  | varDeclaration => exact ⟨.varWithout (Mark.any _) (Mark.any _) (Mark.any _)⟩
  | block => exact ⟨.block (Mark.any _) .noDeclaration (Mark.any _)⟩
  | statement => exact ⟨statement⟩
  | expressionStatement => exact ⟨.expressionStatement (.disjunction e) (Mark.any _)⟩
  | forInitializer => exact ⟨.noInitializer (Mark.any _)⟩
  | optionalExpression => exact ⟨.noExpression⟩
  | expression => exact ⟨.disjunction e⟩
  | chain l => exact hchain l
  | chainRest l => exact ⟨.noOperator⟩
  | operand l => exact nonempty_operand l
  | unary => exact ⟨.call (.named (Mark.any _)) .noCall⟩
  | callRest => exact ⟨.noCall⟩
  | optionalArguments => exact ⟨.noArguments⟩
  | arguments n => exact ⟨.lastArgument (.disjunction e)⟩
  | primary => exact ⟨.named (Mark.any _)⟩

theorem Rows.exists_nil [Inhabited α] (c : Category) :
    ∃ (a : α) (ts : List Token), Rows c [] a ts := by
  obtain ⟨d⟩ := Derivation.nonempty c
  exact ⟨default, d.tokens, d, rfl⟩

/-! ### The judgment -/

/-- How `p` ends on the tokens of a state. Unless it gives up or the fuel runs out, it reads one of
the rows `L`, or the tokens run out and one of the rows begins with them. -/
inductive Spelling (L : α → List Token → Prop) (p : Parser α) (s : State) : Prop
  | ok {a : α} {r : State} {ts : List Token} (hclean : Noted s r) (h : p s = .ok a r)
      (hrest : s.rest = ts ++ r.rest) (hL : L a ts)
  | short {r : State} {a : α} {more : List Token} (hclean : Noted s r)
      (h : p s = .error .noToken r) (hL : L a (s.rest ++ more))
  | exhausted {r : State} (h : p s = .error .exhausted r)
  | failed {e : SyntaxError} (h : FirstFatal s (final p s) e)

structure Spells (L : α → List Token → Prop) (p : Parser α) (s : State) : Prop where
  possible : ∃ a ts, L a ts
  spelling : Spelling L p s

namespace Spells

variable {L L' : α → List Token → Prop} {M : β → List Token → Prop} {p q : Parser α}

theorem mono (hp : Spells L p s) (h : ∀ a ts, L a ts → L' a ts) : Spells L' p s := by
  obtain ⟨⟨a, ts, ha⟩, hspelling⟩ := hp
  refine ⟨⟨a, ts, h a ts ha⟩, ?_⟩
  cases hspelling with
  | ok hclean hrun hrest hL => exact .ok hclean hrun hrest (h _ _ hL)
  | short hclean hrun hL => exact .short hclean hrun (h _ _ hL)
  | exhausted hrun => exact .exhausted hrun
  | failed hfirst => exact .failed hfirst

theorem congr (h : p s = q s) (hq : Spells L q s) : Spells L p s := by
  refine ⟨hq.possible, ?_⟩
  cases hq.spelling with
  | ok hclean hrun hrest hL => exact .ok hclean (h.trans hrun) hrest hL
  | short hclean hrun hL => exact .short hclean (h.trans hrun) hL
  | exhausted hrun => exact .exhausted (h.trans hrun)
  | failed hfirst =>
    have hfinal : final p s = final q s := by rw [final, h, final]
    exact .failed (hfinal ▸ hfirst)

theorem pure {a : α} (h : L a []) : Spells L (Pure.pure a) s :=
  ⟨⟨a, [], h⟩, .ok (.refl s) rfl rfl h⟩

theorem throw_exhausted (h : ∃ a ts, L a ts) : Spells L (throw .exhausted) s :=
  ⟨h, .exhausted rfl⟩

theorem fail {t : Token} {cause : SyntaxCause} (h : ∃ a ts, L a ts) (hcause : IsFatal cause) :
    Spells L (Parse.fail t cause) s :=
  ⟨h, .failed ⟨[], [], rfl, fun _ hf => absurd hf List.not_mem_nil, hcause⟩⟩

/-- Where the tokens run out in `p`, what is missing in a row of `p` is followed by some row of what
comes after `p`. A first error that `p` recovered from has to stay the first one. -/
theorem bind_of_firstFatal {f : α → Parser β} (hp : Spells L p s)
    (hf : ∀ a ts s', L a ts → Spells (fun b us => M b (ts ++ us)) (f a) s')
    (hstays : ∀ a r e, p s = .ok a r → FirstFatal s r e → FirstFatal s (final (f a) r) e) :
    Spells M (p >>= f) s := by
  constructor
  · obtain ⟨a, ts, ha⟩ := hp.possible
    obtain ⟨b, us, hb⟩ := (hf a ts s ha).possible
    exact ⟨b, ts ++ us, hb⟩
  cases hp.spelling with
  | short hclean h hL =>
    obtain ⟨b, us, hb⟩ := (hf _ _ s hL).possible
    rw [List.append_assoc] at hb
    exact .short hclean (Step.bind_of_error h f) hb
  | exhausted h => exact .exhausted (Step.bind_of_error h f)
  | failed hfirst =>
    cases hrun : p s with
    | ok a r =>
      rw [final_of_ok hrun] at hfirst
      have hfinal : final (p >>= f) s = final (f a) r := by rw [final, Step.bind_of_ok hrun, final]
      exact .failed (hfinal ▸ hstays a r _ hrun hfirst)
    | error stop r =>
      rw [final_of_error hrun] at hfirst
      have hfinal := final_of_error (Step.bind_of_error hrun f)
      exact .failed (hfinal ▸ hfirst)
  | ok hclean h hrest hL =>
    rename_i a r ts
    have hbind := Step.bind_of_ok h f
    cases (hf a ts r hL).spelling with
    | ok hclean' h' hrest' hM =>
      exact .ok (hclean.trans hclean') (hbind.trans h')
        (by rw [hrest, hrest', List.append_assoc]) hM
    | short hclean' h' hM =>
      rw [← List.append_assoc, ← hrest] at hM
      exact .short (hclean.trans hclean') (hbind.trans h') hM
    | exhausted h' => exact .exhausted (hbind.trans h')
    | failed hfirst =>
      have hfinal : final (p >>= f) s = final (f a) r := by rw [final, hbind, final]
      exact .failed (hfinal ▸ FirstFatal.of_noted hclean hfirst)

/-- A parser that recovers from no errors is followed by another one. -/
theorem bind {f : α → Parser β} (hblames : BlamesNext p s) (hp : Spells L p s)
    (hf : ∀ a ts s', L a ts → Spells (fun b us => M b (ts ++ us)) (f a) s') :
    Spells M (p >>= f) s :=
  hp.bind_of_firstFatal hf fun _ _ _ hrun hfirst => absurd (hblames.noted hrun) hfirst.not_noted

/-- A parser is followed by another one that does not go back. -/
theorem bind_of_looks {f : α → Parser β} (hlooks : ∀ a s', Looks (f a) s') (hp : Spells L p s)
    (hf : ∀ a ts s', L a ts → Spells (fun b us => M b (ts ++ us)) (f a) s') :
    Spells M (p >>= f) s :=
  hp.bind_of_firstFatal hf fun a r _ _ hfirst => hfirst.onward (hlooks a r).onward

theorem map {f : α → β} (hp : Spells L p s) (hf : ∀ a ts, L a ts → M (f a) ts) :
    Spells M (f <$> p) s := by
  refine congr (by rw [map_eq_pure_bind]) (bind_of_looks (fun _ _ => .pure) hp fun a ts s' ha => ?_)
  exact pure (by rw [List.append_nil]; exact hf a ts ha)

theorem ite (c : Prop) [Decidable c] (hp : c → Spells L p s) (hq : ¬ c → Spells L q s) :
    Spells L (if c then p else q) s := by
  split
  · exact hp ‹_›
  · exact hq ‹_›

/-! ### Parsers that look at one token -/

/-- Where there is no next token, any row begins with the tokens. -/
theorem bind_peek {f : Token → Parser α} (hL : ∃ a ts, L a ts)
    (hf : ∀ t ts, s.rest = t :: ts → Spells L (f t) s) : Spells L (Parse.peek >>= f) s := by
  obtain ⟨_ | ⟨t, ts⟩, errors, depth⟩ := s
  · refine ⟨hL, ?_⟩
    obtain ⟨a, more, hmore⟩ := hL
    exact .short (.refl _) rfl hmore
  · exact congr (q := f t) rfl (hf t ts rfl)

theorem bind_advance {f : Unit → Parser α} {t : Token} {ts : List Token} (hrest : s.rest = t :: ts)
    (hf : ∀ s', Spells (fun a us => L a (t :: us)) (f ()) s') :
    Spells L (Parse.advance >>= f) s := by
  have htake : Spells (fun _ us => us = [t]) Parse.advance s := by
    refine ⟨⟨(), [t], rfl⟩, ?_⟩
    obtain ⟨rest, errors, depth⟩ := s
    cases hrest
    exact .ok (.refl ⟨ts, errors, depth⟩) rfl rfl rfl
  refine bind .advance htake ?_
  rintro _ _ s' rfl
  exact hf s'

theorem note {t : Token} {cause : SyntaxCause} (h : ¬ IsFatal cause) :
    Spells (fun _ us => us = []) (Parse.note t cause) s := by
  refine ⟨⟨(), [], rfl⟩, .ok ⟨[⟨t, cause⟩], rfl, fun e he => ?_⟩ rfl rfl rfl⟩
  rw [List.mem_singleton.1 he]
  exact h

theorem bind_note {f : Unit → Parser α} {t : Token} {cause : SyntaxCause} (h : ¬ IsFatal cause)
    (hf : ∀ s', Spells L (f ()) s') : Spells L (Parse.note t cause >>= f) s := by
  refine bind (.note h) (note h) ?_
  rintro _ _ s' rfl
  exact hf s'

inductive Accepted (right : Kind → Bool) : Option Token → List Token → Prop
  | none : Accepted right none []
  | some {t : Token} (h : right t.kind = true) : Accepted right (some t) [t]

theorem bind_acceptWhen {right : Kind → Bool} {f : Option Token → Parser α}
    (hnone : ∀ s', Spells L (f none) s')
    (hsome : ∀ t s', right t.kind = true → Spells (fun a us => L a (t :: us)) (f (some t)) s') :
    Spells L (Parse.acceptWhen right >>= f) s := by
  have haccept : Spells (Accepted right) (Parse.acceptWhen right) s := by
    refine bind_peek ⟨_, _, .none⟩ fun t ts hrest => ite _ (fun ht => ?_) fun _ => pure .none
    exact bind_advance hrest fun s' => pure (.some ht)
  refine bind .acceptWhen haccept fun found us s' h => ?_
  cases h with
  | none => exact hnone s'
  | some ht => exact hsome _ s' ht

theorem bind_accept {k : Kind} {f : Option Token → Parser α} (hnone : ∀ s', Spells L (f none) s')
    (hsome : ∀ (m : Mark k) s',
      Spells (fun a us => L a (m.token :: us)) (f (some m.token)) s') :
    Spells L (Parse.accept k >>= f) s :=
  bind_acceptWhen hnone fun t s' ht => hsome ⟨t, List.mem_singleton.2 (beq_iff_eq.1 ht)⟩ s'

/-- The token that is asked for may be missing, so that what comes behind it has to have rows. -/
theorem bind_expect {x : Expectation} {f : Token → Parser α}
    (hf : ∀ (m : Mark x.kind) s', Spells (fun a us => L a (m.token :: us)) (f m.token) s') :
    Spells L (Parse.expect x >>= f) s := by
  have hpossible : ∃ t us, ∃ m : Mark x.kind, t = m.token ∧ us = [m.token] :=
    ⟨_, _, Mark.any _, rfl, rfl⟩
  have hexpect : Spells (fun t us => ∃ m : Mark x.kind, t = m.token ∧ us = [m.token])
      (Parse.expect x) s := by
    refine bind_peek hpossible fun t ts hrest => ite _ (fun ht => ?_) fun _ => ?_
    · let m : Mark x.kind := ⟨t, List.mem_singleton.2 (beq_iff_eq.1 ht)⟩
      exact bind_advance hrest fun s' => pure ⟨m, rfl, rfl⟩
    · exact fail hpossible trivial
  refine bind .expect hexpect ?_
  rintro _ _ s' ⟨m, rfl, rfl⟩
  exact hf m s'

theorem bind_limit {count : Nat} {cause : SyntaxCause} {f : Unit → Parser α} (h : ¬ IsFatal cause)
    (hf : ∀ s', Spells L (f ()) s') : Spells L (Parse.limit count cause >>= f) s := by
  have hlimit : Spells (fun _ us => us = []) (Parse.limit count cause) s :=
    ite _ (fun _ => bind_peek ⟨(), [], rfl⟩ fun _ _ _ => note h) fun _ => pure rfl
  refine bind (.limit h) hlimit ?_
  rintro _ _ s' rfl
  exact hf s'

theorem bind_check {k : Kind} {f : Bool → Parser α} (hL : ∃ a ts, L a ts)
    (hf : ∀ found, Spells L (f found) s) : Spells L (Parse.check k >>= f) s := by
  have hassoc : Parse.check k >>= f = Parse.peek >>= fun t => f (t.kind == k) := by
    rw [Parse.check, bind_assoc]
    rfl
  rw [hassoc]
  exact bind_peek hL fun t _ _ => hf _

end Spells

/-! ### Expressions -/

structure ExpressionsSpell (fuel : Nat) : Prop where
  expression (s : State) : Spells (Rows .expression []) (Parse.expression fuel) s
  chain (l : Level) (s : State) : Spells (Rows (.chain l) []) (Parse.chain fuel l) s
  chainAfter (l : Level) (left : Expr) (s : State) :
    Spells (Rows (.chainRest l) []) (Parse.chainAfter fuel l left) s
  operand (l : Level) (s : State) : Spells (Rows (.operand l) []) (Parse.operand fuel l) s
  unary (s : State) : Spells (Rows .unary []) (Parse.unary fuel) s
  callAfter (callee : Expr) (s : State) : Spells (Rows .callRest []) (Parse.callAfter fuel callee) s
  arguments (count : Nat) (s : State) :
    Spells (Rows (.arguments count) []) (Parse.arguments fuel count) s
  primary (s : State) : Spells (Rows .primary []) (Parse.primary fuel) s

namespace ExpressionsSpell

open Lox.Grammar.Derivation

variable {fuel : Nat}

theorem step_expression (ih : ExpressionsSpell fuel) :
    Spells (Rows .expression []) (Parse.expression (fuel + 1)) s := by
  refine .bind ((expressionsBlameNext fuel).chain .disjunction s) (ih.chain .disjunction s) ?_
  rintro tree _ _ ⟨target, rfl⟩
  refine .bind_accept (fun _ => .pure ⟨disjunction target, by simp [tokens]⟩) fun equals s₂ => ?_
  refine .bind ((expressionsBlameNext fuel).expression s₂) (ih.expression s₂) ?_
  rintro _ _ s₃ ⟨value, rfl⟩
  have hassign : Rows .expression [] tree
      (target.tokens ++ (equals.token :: (value.tokens ++ []))) :=
    ⟨assign target equals value, by simp [tokens]⟩
  cases tree with
  | «variable» name => exact .pure hassign
  | _ => exact .bind_note id fun _ => .pure hassign

theorem step_chain (ih : ExpressionsSpell fuel) (l : Level) :
    Spells (Rows (.chain l) []) (Parse.chain (fuel + 1) l) s := by
  refine .bind ((expressionsBlameNext fuel).operand l s) (ih.operand l s) ?_
  rintro left _ s₁ ⟨first, rfl⟩
  refine (ih.chainAfter l left s₁).mono ?_
  rintro _ _ ⟨rest, rfl⟩
  exact ⟨.chain first rest, rfl⟩

theorem step_chainAfter (ih : ExpressionsSpell fuel) (l : Level) (left : Expr) :
    Spells (Rows (.chainRest l) []) (Parse.chainAfter (fuel + 1) l left) s := by
  refine .bind_acceptWhen (fun _ => .pure ⟨noOperator, rfl⟩) fun operator s₁ hk => ?_
  refine .bind ((expressionsBlameNext fuel).operand l s₁) (ih.operand l s₁) ?_
  rintro _ _ s₂ ⟨right, rfl⟩
  refine (ih.chainAfter l _ s₂).mono ?_
  rintro _ _ ⟨rest, rfl⟩
  exact ⟨moreOperators ⟨operator, joins_iff.1 hk⟩ right rest, rfl⟩

theorem step_operand (ih : ExpressionsSpell fuel) (l : Level) :
    Spells (Rows (.operand l) []) (Parse.operand (fuel + 1) l) s := by
  rw [Parse.operand]
  cases hl : l.tighter? with
  | some next =>
    refine (ih.chain next s).mono ?_
    rintro _ _ ⟨e, rfl⟩
    exact ⟨tighter (tighter?_eq_some_iff.1 hl) e, rfl⟩
  | none =>
    obtain rfl : l = .factor := tighter?_eq_none_iff.1 hl
    refine (ih.unary s).mono ?_
    rintro _ _ ⟨e, rfl⟩
    exact ⟨tightest e, rfl⟩

theorem step_unary (ih : ExpressionsSpell fuel) :
    Spells (Rows .unary []) (Parse.unary (fuel + 1)) s := by
  refine .bind_acceptWhen (fun s₁ => ?_) fun operator s₁ hk => ?_
  · refine .bind ((expressionsBlameNext fuel).primary s₁) (ih.primary s₁) ?_
    rintro tree _ s₂ ⟨callee, rfl⟩
    refine (ih.callAfter tree s₂).mono ?_
    rintro _ _ ⟨rest, rfl⟩
    exact ⟨call callee rest, rfl⟩
  · have hmem : operator.kind ∈ [Kind.bang, .minus] := by simpa [Parse.isUnaryOperator] using hk
    refine .bind ((expressionsBlameNext fuel).unary s₁) (ih.unary s₁) ?_
    rintro _ _ _ ⟨right, rfl⟩
    exact .pure ⟨prefixed ⟨operator, hmem⟩ right, by simp [tokens]⟩

theorem optionalArguments (ih : ExpressionsSpell fuel) :
    Spells (Rows .optionalArguments []) (Parse.listBeforeParen (Parse.arguments fuel 0)) s := by
  have hnone : Rows .optionalArguments [] ([] : List Expr) [] := ⟨noArguments, rfl⟩
  refine .bind_check ⟨_, _, hnone⟩ fun _ => .ite _ (fun _ => .pure hnone) fun _ => ?_
  refine (ih.arguments 0 s).mono ?_
  rintro _ _ ⟨args, rfl⟩
  exact ⟨someArguments args, rfl⟩

theorem step_callAfter (ih : ExpressionsSpell fuel) (callee : Expr) :
    Spells (Rows .callRest []) (Parse.callAfter (fuel + 1) callee) s := by
  refine .bind_accept (fun _ => .pure ⟨noCall, rfl⟩) fun opening s₁ => ?_
  refine .bind (.listBeforeParen ((expressionsBlameNext fuel).arguments 0)) ih.optionalArguments ?_
  rintro _ _ _ ⟨args, rfl⟩
  refine .bind_expect fun (closing : Mark .rightParen) s₃ => ?_
  refine (ih.callAfter _ s₃).mono ?_
  rintro _ _ ⟨rest, rfl⟩
  exact ⟨moreCalls opening args closing rest, rfl⟩

theorem step_arguments (ih : ExpressionsSpell fuel) (count : Nat) :
    Spells (Rows (.arguments count) []) (Parse.arguments (fuel + 1) count) s := by
  refine .bind_limit id fun s₁ => ?_
  refine .bind ((expressionsBlameNext fuel).expression s₁) (ih.expression s₁) ?_
  rintro _ _ _ ⟨e, rfl⟩
  refine .bind_accept (fun _ => .pure ⟨lastArgument e, by simp [tokens]⟩) fun comma s₃ => ?_
  refine .bind ((expressionsBlameNext fuel).arguments (count + 1) s₃)
    (ih.arguments (count + 1) s₃) ?_
  rintro _ _ _ ⟨rest, rfl⟩
  exact .pure ⟨moreArguments e comma rest, by simp [tokens]⟩

theorem step_primary (ih : ExpressionsSpell fuel) :
    Spells (Rows .primary []) (Parse.primary (fuel + 1)) s := by
  refine .bind_peek (Rows.exists_nil _) fun t ts hrest => ?_
  have hliteral : ∀ hk : t.kind ∈ literals, ∀ e : Expr, Rows .primary [] e [t] := fun hk _ =>
    ⟨literal ⟨t, hk⟩, rfl⟩
  split
  case h_6 hk =>
    exact .bind_advance hrest fun _ => .pure ⟨named ⟨t, by simp [hk]⟩, rfl⟩
  case h_7 hk =>
    refine .bind_advance hrest fun s₁ => ?_
    refine .bind ((expressionsBlameNext fuel).expression s₁) (ih.expression s₁) ?_
    rintro _ _ _ ⟨e, rfl⟩
    refine .bind_expect fun (closing : Mark .rightParen) _ => ?_
    exact .pure ⟨grouping ⟨t, by simp [hk]⟩ e closing, by simp [tokens]⟩
  case h_8 => exact .fail (Rows.exists_nil _) trivial
  -- The five kinds of literals.
  all_goals
    rename_i hk
    exact .bind_advance hrest fun _ => .pure (hliteral (by simp [literals, hk]) _)

end ExpressionsSpell

theorem expressionsSpell (fuel : Nat) : ExpressionsSpell fuel := by
  induction fuel with
  | zero =>
    have hthrow : ∀ {c : Category} {s : State},
        Spells (Rows c []) (throw .exhausted : Parser Expr) s :=
      .throw_exhausted (Rows.exists_nil _)
    exact {
      expression := fun _ => hthrow
      chain := fun _ _ => hthrow
      chainAfter := fun _ _ _ => hthrow
      operand := fun _ _ => hthrow
      unary := fun _ => hthrow
      callAfter := fun _ _ => hthrow
      arguments := fun _ _ => .throw_exhausted (Rows.exists_nil _)
      primary := fun _ => hthrow }
  | succ fuel ih =>
    exact {
      expression := fun _ => ih.step_expression
      chain := fun l _ => ih.step_chain l
      chainAfter := fun l left _ => ih.step_chainAfter l left
      operand := fun l _ => ih.step_operand l
      unary := fun _ => ih.step_unary
      callAfter := fun callee _ => ih.step_callAfter callee
      arguments := fun count _ => ih.step_arguments count
      primary := fun _ => ih.step_primary }

end Grammar

end Lox
