import LoxInterpreter.Tree.Parse

/-!
What a parser does not look at. It never reads the errors that are recorded already, and it does
not look behind the first token that it cannot take. So a parser may be moved from one setting to
another: `Agree` says that in the second setting a parser does what it does in the first one. The
fuel may be larger in the second setting, as more tokens may stand there, so the parser of the
first setting is allowed to run out of it.
-/

namespace Lox

namespace Parse

/-- What a parser leaves alone: the errors before its own ones, and the tokens behind the first
one that it cannot take. -/
structure Setting where
  before : List SyntaxError
  behind : List Token

def Setting.place (e : Setting) (g : Token) (s : State) : State :=
  ⟨s.rest ++ g :: e.behind, e.before ++ s.errors, s.depth⟩

variable {α β : Type} {g : Token} {e e' : Setting}

/-- What `p` does in the setting `e`, `q` does in the setting `e'`, unless `p` runs out of fuel.
Neither takes `g`. -/
inductive Agree (g : Token) (e e' : Setting) (p q : Parser α) (s : State) : Prop
  | exhausted {r : State} (hp : p (e.place g s) = .error .exhausted r)
  | ok {a : α} {r : State} (hrest : r.rest <:+ s.rest)
      (hp : p (e.place g s) = .ok a (e.place g r)) (hq : q (e'.place g s) = .ok a (e'.place g r))
  | error {stop : Stop} {r : State} (hrest : r.rest <:+ s.rest)
      (hp : p (e.place g s) = .error stop (e.place g r))
      (hq : q (e'.place g s) = .error stop (e'.place g r))

namespace Agree

variable {p q : Parser α} {s : State}

theorem pure {a : α} : Agree g e e' (Pure.pure a) (Pure.pure a) s :=
  .ok List.suffix_rfl rfl rfl

theorem throw {stop : Stop} :
    Agree g e e' (MonadExcept.throw stop : Parser α) (MonadExcept.throw stop) s :=
  .error List.suffix_rfl rfl rfl

theorem throw_exhausted : Agree g e e' (MonadExcept.throw .exhausted) q s := .exhausted rfl

/-- Both may be replaced by parsers that do the same in that state. -/
theorem congr {u v : Parser α} (hp : p (e.place g s) = u (e.place g s))
    (hq : q (e'.place g s) = v (e'.place g s)) (h : Agree g e e' u v s) :
    Agree g e e' p q s := by
  cases h with
  | exhausted h => exact .exhausted (hp.trans h)
  | ok hrest h h' => exact .ok hrest (hp.trans h) (hq.trans h')
  | error hrest h h' => exact .error hrest (hp.trans h) (hq.trans h')

theorem bind {f f' : α → Parser β} (hp : Agree g e e' p q s)
    (hf : ∀ a s', Agree g e e' (f a) (f' a) s') : Agree g e e' (p >>= f) (q >>= f') s := by
  cases hp with
  | exhausted h => exact .exhausted (Step.bind_of_error h f)
  | error hrest h h' => exact .error hrest (Step.bind_of_error h f) (Step.bind_of_error h' f')
  | ok hrest h h' =>
    have hbind := Step.bind_of_ok h f
    have hbind' := Step.bind_of_ok h' f'
    cases hf _ _ with
    | exhausted hf => exact .exhausted (hbind.trans hf)
    | ok hrest' hf hf' => exact .ok (hrest'.trans hrest) (hbind.trans hf) (hbind'.trans hf')
    | error hrest' hf hf' => exact .error (hrest'.trans hrest) (hbind.trans hf) (hbind'.trans hf')

theorem map {f : α → β} (hp : Agree g e e' p q s) : Agree g e e' (f <$> p) (f <$> q) s := by
  cases hp with
  | exhausted h => exact .exhausted (by rw [Step.map_apply, h])
  | ok hrest h h' =>
    exact .ok hrest (by rw [Step.map_apply, h]) (by rw [Step.map_apply, h'])
  | error hrest h h' =>
    exact .error hrest (by rw [Step.map_apply, h]) (by rw [Step.map_apply, h'])

theorem ite (c : Prop) [Decidable c] {p' q' : Parser α} (hp : c → Agree g e e' p q s)
    (hp' : ¬ c → Agree g e e' p' q' s) :
    Agree g e e' (if c then p else p') (if c then q else q') s := by
  split
  · exact hp ‹_›
  · exact hp' ‹_›

/-! ### Parsers that look at one token -/

theorem note {t : Token} {cause : SyntaxCause} :
    Agree g e e' (Parse.note t cause) (Parse.note t cause) s := by
  have hnote : ∀ e : Setting, Parse.note t cause (e.place g s) =
      .ok () (e.place g { s with errors := s.errors ++ [⟨t, cause⟩] }) := fun e => by
    simp [Parse.note, Setting.place]
  exact .ok (r := { s with errors := s.errors ++ [⟨t, cause⟩] }) List.suffix_rfl (hnote e)
    (hnote e')

theorem fail {t : Token} {cause : SyntaxCause} :
    Agree g e e' (Parse.fail t cause : Parser α) (Parse.fail t cause) s :=
  bind note fun _ _ => throw

/-- The next token is one of the state, or `g` if there are no more. -/
theorem bind_peek {f f' : Token → Parser β} (hend : s.rest = [] → Agree g e e' (f g) (f' g) s)
    (hnext : ∀ t ts, s.rest = t :: ts → Agree g e e' (f t) (f' t) s) :
    Agree g e e' (Parse.peek >>= f) (Parse.peek >>= f') s := by
  obtain ⟨_ | ⟨t, ts⟩, errors, depth⟩ := s
  · exact congr (u := f g) (v := f' g) rfl rfl (hend rfl)
  · exact congr (u := f t) (v := f' t) rfl rfl (hnext t ts rfl)

theorem peek : Agree g e e' Parse.peek Parse.peek s := by
  obtain ⟨_ | ⟨t, ts⟩, errors, depth⟩ := s
  · exact .ok List.suffix_rfl rfl rfl
  · exact .ok List.suffix_rfl rfl rfl

theorem advance {t : Token} {ts : List Token} (h : s.rest = t :: ts) :
    Agree g e e' Parse.advance Parse.advance s := by
  obtain ⟨rest, errors, depth⟩ := s
  cases h
  exact .ok (r := ⟨ts, errors, depth⟩) (List.suffix_cons t ts) rfl rfl

theorem check (k : Kind) : Agree g e e' (Parse.check k) (Parse.check k) s :=
  bind peek fun _ _ => pure

theorem acceptWhen {right : Kind → Bool} (h : right g.kind = false) :
    Agree g e e' (Parse.acceptWhen right) (Parse.acceptWhen right) s := by
  refine bind_peek (fun _ => ite _ (fun hg => ?_) fun _ => pure) fun t ts hrest => ?_
  · rw [h] at hg
    cases hg
  · exact ite _ (fun _ => bind (advance hrest) fun _ _ => pure) fun _ => pure

theorem accept {k : Kind} (h : g.kind ≠ k) : Agree g e e' (Parse.accept k) (Parse.accept k) s :=
  acceptWhen (beq_eq_false_iff_ne.2 h)

theorem expect {x : Expectation} (h : g.kind ≠ x.kind) :
    Agree g e e' (Parse.expect x) (Parse.expect x) s := by
  refine bind_peek (fun _ => ite _ (fun hg => ?_) fun _ => fail) fun t ts hrest => ?_
  · exact absurd (beq_iff_eq.1 hg) h
  · exact ite _ (fun _ => bind (advance hrest) fun _ _ => pure) fun _ => fail

theorem limit (count : Nat) (cause : SyntaxCause) :
    Agree g e e' (Parse.limit count cause) (Parse.limit count cause) s :=
  ite _ (fun _ => bind peek fun _ _ => note) fun _ => pure

theorem afterOptional {k : Kind} (h : g.kind ≠ k) (hp : ∀ s, Agree g e e' p q s) :
    Agree g e e' (Parse.afterOptional k p) (Parse.afterOptional k q) s := by
  refine bind (accept h) fun t s' => ?_
  cases t with
  | some _ => exact map (hp s')
  | none => exact pure

theorem unlessNext (k : Kind) (hp : ∀ s, Agree g e e' p q s) :
    Agree g e e' (Parse.unlessNext k p) (Parse.unlessNext k q) s :=
  bind (check k) fun _ s' => ite _ (fun _ => pure) fun _ => map (hp s')

theorem listBeforeParen {p q : Parser (List α)} (hp : ∀ s, Agree g e e' p q s) :
    Agree g e e' (Parse.listBeforeParen p) (Parse.listBeforeParen q) s :=
  bind (check .rightParen) fun _ s' => ite _ (fun _ => pure) fun _ => hp s'

theorem inFunction (hp : ∀ s, Agree g e e' p q s) :
    Agree g e e' (Parse.inFunction p) (Parse.inFunction q) s := by
  have hplace : ∀ e : Setting, { e.place g s with depth := (e.place g s).depth + 1 } =
      e.place g { s with depth := s.depth + 1 } := fun _ => rfl
  cases hp { s with depth := s.depth + 1 } with
  | exhausted h => exact .exhausted (by rw [Parse.inFunction, hplace, h])
  | ok hrest h h' =>
    rename_i a s'
    exact .ok (r := { s' with depth := s'.depth - 1 }) hrest
      (by rw [Parse.inFunction, hplace, h]; rfl) (by rw [Parse.inFunction, hplace, h']; rfl)
  | error hrest h h' =>
    rename_i stop s'
    exact .error (r := { s' with depth := s'.depth - 1 }) hrest
      (by rw [Parse.inFunction, hplace, h]; rfl) (by rw [Parse.inFunction, hplace, h']; rfl)

theorem rejectTopLevel (keyword : Token) :
    Agree g e e' (Parse.rejectTopLevel keyword) (Parse.rejectTopLevel keyword) s :=
  congr (u := if s.depth = 0 then Parse.note keyword .topLevelReturn else Pure.pure ())
    (v := if s.depth = 0 then Parse.note keyword .topLevelReturn else Pure.pure ())
    (Parse.rejectTopLevel_apply keyword _) (Parse.rejectTopLevel_apply keyword _)
    (ite _ (fun _ => note) fun _ => pure)

end Agree

/-! ### The end of the text

Nothing is skipped behind the end of the text. -/

theorem skipFrom_append {last : Token} (hg : g.kind = .eof) (ts us : List Token) :
    skipFrom last (ts ++ g :: us) = skipFrom last ts ++ g :: us := by
  induction ts generalizing last with
  | nil => simp [skipFrom, hg]
  | cons t ts ih =>
    rw [List.cons_append, skipFrom, skipFrom, ih]
    split <;> rfl

theorem resynchronize_append (hg : g.kind = .eof) (ts us : List Token) :
    resynchronize (ts ++ g :: us) = resynchronize ts ++ g :: us := by
  cases ts with
  | nil => simp [resynchronize, hg]
  | cons t ts =>
    rw [List.cons_append, resynchronize, resynchronize, skipFrom_append hg]
    split <;> rfl

theorem Agree.recovering {p q : Parser α} {s : State} (hg : g.kind = .eof)
    (hp : Agree g e e' p q s) :
    Agree g e e' (Parse.recovering p) (Parse.recovering q) s := by
  cases hp with
  | exhausted h => exact .exhausted (by rw [Parse.recovering, h])
  | ok hrest h h' =>
    exact .ok hrest (by rw [Parse.recovering, h]) (by rw [Parse.recovering, h'])
  | error hrest h h' =>
    rename_i stop s'
    cases stop with
    | malformed =>
      have hplace : ∀ e : Setting, { e.place g s' with rest := resynchronize (e.place g s').rest } =
          e.place g { s' with rest := resynchronize s'.rest } := fun e =>
        congrArg (State.mk · (e.before ++ s'.errors) s'.depth) (resynchronize_append hg _ _)
      refine .ok (a := none) (r := { s' with rest := resynchronize s'.rest })
        ((resynchronize_isSuffix _).trans hrest) ?_ ?_
      · rw [Parse.recovering, h, ← hplace]
      · rw [Parse.recovering, h', ← hplace]
    | noToken =>
      exact .error hrest (by rw [Parse.recovering, h]) (by rw [Parse.recovering, h'])
    | exhausted => exact .exhausted (by rw [Parse.recovering, h])

/-! ### Expressions -/

def expressionKinds : List Kind :=
  [.leftParen, .rightParen, .comma, .minus, .plus, .slash, .star, .bang, .bangEqual, .equal,
    .equalEqual, .greater, .greaterEqual, .less, .lessEqual, .identifier, .string, .number,
    .keyword .andWord, .keyword .orWord, .keyword .trueWord, .keyword .falseWord,
    .keyword .nilWord]

theorem joins_eq_false {k : Kind} (hk : k ∉ expressionKinds) (l : Level) : l.joins k = false := by
  cases l <;> simp_all [expressionKinds, Level.joins]

theorem isUnaryOperator_eq_false {k : Kind} (hk : k ∉ expressionKinds) :
    isUnaryOperator k = false := by
  simp_all [expressionKinds, isUnaryOperator]

theorem ne_of_notMem {k k' : Kind} (hk : k ∉ expressionKinds) (hk' : k' ∈ expressionKinds) :
    k ≠ k' := fun h => hk (h ▸ hk')

structure ExpressionsAgree (g : Token) (e e' : Setting) (fuel fuel' : Nat) : Prop where
  expression (s : State) : Agree g e e' (expression fuel) (expression fuel') s
  chain (l : Level) (s : State) : Agree g e e' (chain fuel l) (chain fuel' l) s
  chainAfter (l : Level) (left : Expr) (s : State) :
    Agree g e e' (chainAfter fuel l left) (chainAfter fuel' l left) s
  operand (l : Level) (s : State) : Agree g e e' (operand fuel l) (operand fuel' l) s
  unary (s : State) : Agree g e e' (unary fuel) (unary fuel') s
  callAfter (callee : Expr) (s : State) :
    Agree g e e' (callAfter fuel callee) (callAfter fuel' callee) s
  arguments (count : Nat) (s : State) :
    Agree g e e' (arguments fuel count) (arguments fuel' count) s
  primary (s : State) : Agree g e e' (primary fuel) (primary fuel') s

namespace ExpressionsAgree

variable {fuel fuel' : Nat} {s : State}

theorem step_expression (ih : ExpressionsAgree g e e' fuel fuel')
    (hg : g.kind ∉ expressionKinds) :
    Agree g e e' (Parse.expression (fuel + 1)) (Parse.expression (fuel' + 1)) s := by
  refine .bind (ih.chain .disjunction s) fun target s₁ =>
    .bind (.accept (ne_of_notMem hg (by decide))) fun equals s₂ => ?_
  cases equals with
  | none => exact .pure
  | some equals =>
    refine .bind (ih.expression s₂) fun value s₃ => ?_
    cases target with
    | «variable» name => exact .pure
    | _ => exact .bind .note fun _ _ => .pure

theorem step_chainAfter (ih : ExpressionsAgree g e e' fuel fuel')
    (hg : g.kind ∉ expressionKinds) (l : Level) (left : Expr) :
    Agree g e e' (Parse.chainAfter (fuel + 1) l left) (Parse.chainAfter (fuel' + 1) l left) s := by
  refine .bind (.acceptWhen (joins_eq_false hg l)) fun op s₁ => ?_
  cases op with
  | none => exact .pure
  | some op => exact .bind (ih.operand l s₁) fun right s₂ => ih.chainAfter l _ s₂

theorem step_operand (ih : ExpressionsAgree g e e' fuel fuel') (l : Level) :
    Agree g e e' (Parse.operand (fuel + 1) l) (Parse.operand (fuel' + 1) l) s := by
  rw [Parse.operand, Parse.operand]
  cases l.tighter? with
  | some next => exact ih.chain next s
  | none => exact ih.unary s

theorem step_unary (ih : ExpressionsAgree g e e' fuel fuel') (hg : g.kind ∉ expressionKinds) :
    Agree g e e' (Parse.unary (fuel + 1)) (Parse.unary (fuel' + 1)) s := by
  refine .bind (.acceptWhen (isUnaryOperator_eq_false hg)) fun op s₁ => ?_
  cases op with
  | some op => exact .bind (ih.unary s₁) fun _ _ => .pure
  | none => exact .bind (ih.primary s₁) fun callee s₂ => ih.callAfter callee s₂

theorem step_callAfter (ih : ExpressionsAgree g e e' fuel fuel') (hg : g.kind ∉ expressionKinds)
    (callee : Expr) :
    Agree g e e' (Parse.callAfter (fuel + 1) callee) (Parse.callAfter (fuel' + 1) callee) s := by
  refine .bind (.accept (ne_of_notMem hg (by decide))) fun opening s₁ => ?_
  cases opening with
  | none => exact .pure
  | some _ =>
    refine .bind (.listBeforeParen (ih.arguments 0)) fun args s₂ => ?_
    exact .bind (.expect (ne_of_notMem hg (by decide))) fun paren s₃ => ih.callAfter _ s₃

theorem step_arguments (ih : ExpressionsAgree g e e' fuel fuel') (hg : g.kind ∉ expressionKinds)
    (count : Nat) :
    Agree g e e' (Parse.arguments (fuel + 1) count) (Parse.arguments (fuel' + 1) count) s := by
  refine .bind (.limit count _) fun _ s₁ => .bind (ih.expression s₁) fun value s₂ => ?_
  refine .bind (.accept (ne_of_notMem hg (by decide))) fun comma s₃ => ?_
  cases comma with
  | some _ => exact .bind (ih.arguments (count + 1) s₃) fun _ _ => .pure
  | none => exact .pure

/-- The token `g` begins no expression, and every other one may be taken. -/
theorem step_primary (ih : ExpressionsAgree g e e' fuel fuel') (hg : g.kind ∉ expressionKinds) :
    Agree g e e' (Parse.primary (fuel + 1)) (Parse.primary (fuel' + 1)) s := by
  refine .bind_peek (fun _ => ?_) fun t ts hrest => ?_
  · split
    case h_8 => exact .fail
    all_goals
      rename_i hk
      rw [hk] at hg
      exact absurd (by decide) hg
  · split
    case h_7 =>
      refine .bind (.advance hrest) fun _ s₁ => .bind (ih.expression s₁) fun inner s₂ => ?_
      exact .bind (.expect (ne_of_notMem hg (by decide))) fun _ _ => .pure
    case h_8 => exact .fail
    all_goals exact .bind (.advance hrest) fun _ _ => .pure

end ExpressionsAgree

theorem expressionsAgree (hg : g.kind ∉ expressionKinds) {fuel fuel' : Nat} (h : fuel ≤ fuel') :
    ExpressionsAgree g e e' fuel fuel' := by
  induction fuel generalizing fuel' with
  | zero =>
    exact {
      expression := fun _ => .throw_exhausted
      chain := fun _ _ => .throw_exhausted
      chainAfter := fun _ _ _ => .throw_exhausted
      operand := fun _ _ => .throw_exhausted
      unary := fun _ => .throw_exhausted
      callAfter := fun _ _ => .throw_exhausted
      arguments := fun _ _ => .throw_exhausted
      primary := fun _ => .throw_exhausted }
  | succ fuel ih =>
    obtain ⟨fuel', rfl⟩ := Nat.exists_eq_succ_of_ne_zero (Nat.ne_zero_of_lt h)
    have ih := ih (Nat.le_of_succ_le_succ h)
    exact {
      expression := fun _ => ih.step_expression hg
      chain := fun l s => .bind (ih.operand l s) (ih.chainAfter l)
      chainAfter := fun l left _ => ih.step_chainAfter hg l left
      operand := fun l _ => ih.step_operand l
      unary := fun _ => ih.step_unary hg
      callAfter := fun callee _ => ih.step_callAfter hg callee
      arguments := fun count _ => ih.step_arguments hg count
      primary := fun _ => ih.step_primary hg }

end Parse

end Lox
