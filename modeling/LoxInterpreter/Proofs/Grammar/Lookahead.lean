import LoxInterpreter.Proofs.Grammar.Blame

/-!
How far the parsers look. A parser asks for one token after the other. So where the tokens are cut
off, it does what it does on all of them until it asks for a token that was cut off, and the first
error that makes a parser give up is the same if it is noticed before. `Looks` says so of one
parser; it is closed under putting parsers together, with or without recovery.
-/

namespace Lox

namespace Grammar

open Parse (Parser State Level)

variable {α β : Type} {s s' s'' : State}

/-- The state with more tokens behind those that are ahead. -/
def followedBy (s : State) (more : List Token) : State := { s with rest := s.rest ++ more }

def final (p : Parser α) (s : State) : State :=
  match p s with
  | .ok _ s' => s'
  | .error _ s' => s'

theorem final_of_ok {p : Parser α} {a : α} (h : p s = .ok a s') : final p s = s' := by
  rw [final, h]

theorem final_of_error {p : Parser α} {stop : Parse.Stop} (h : p s = .error stop s') :
    final p s = s' := by
  rw [final, h]

/-! ### Relations between states -/

/-- From the first state to the second, no parser went back, and what made one give up stands at a
token that was ahead. -/
structure Onward (s s' : State) : Prop where
  rest : s'.rest <:+ s.rest
  errors : ∃ es, s'.errors = s.errors ++ es ∧ ∀ e ∈ es, IsFatal e.cause → e.token ∈ s.rest

/-- The error is the first one between the two states that made a parser give up. -/
def FirstFatal (s s' : State) (e : SyntaxError) : Prop :=
  ∃ es fs, s'.errors = s.errors ++ (es ++ e :: fs) ∧ (∀ f ∈ es, ¬ IsFatal f.cause) ∧
    IsFatal e.cause

namespace Onward

theorem refl (s : State) : Onward s s :=
  ⟨List.suffix_rfl, [], (List.append_nil _).symm, fun _ he => absurd he List.not_mem_nil⟩

theorem trans (h : Onward s s') (h' : Onward s' s'') : Onward s s'' := by
  obtain ⟨es, heq, hes⟩ := h.errors
  obtain ⟨fs, heq', hfs⟩ := h'.errors
  refine ⟨h'.rest.trans h.rest, es ++ fs, by rw [heq', heq, List.append_assoc], ?_⟩
  intro e he hfatal
  rcases List.mem_append.1 he with he | he
  · exact hes e he hfatal
  · exact h.rest.subset (hfs e he hfatal)

/-- Only the tokens ahead and the errors matter. -/
theorem congr {r r' : State} (h : Onward s s') (hrest : r.rest = s.rest)
    (herrors : r.errors = s.errors) (hrest' : r'.rest <:+ s'.rest)
    (herrors' : r'.errors = s'.errors) : Onward r r' := by
  obtain ⟨es, heq, hes⟩ := h.errors
  refine ⟨?_, es, by rw [herrors', herrors, heq], fun e he hfatal => ?_⟩
  · rw [hrest]
    exact hrest'.trans h.rest
  · rw [hrest]
    exact hes e he hfatal

end Onward

theorem Noted.congr {r r' : State} (h : Noted s s') (herrors : r.errors = s.errors)
    (herrors' : r'.errors = s'.errors) : Noted r r' := by
  rw [Noted, herrors, herrors']
  exact h

namespace FirstFatal

variable {e e' : SyntaxError}

theorem congr {r r' : State} (h : FirstFatal s s' e) (herrors : r.errors = s.errors)
    (herrors' : r'.errors = s'.errors) : FirstFatal r r' e := by
  rw [FirstFatal, herrors, herrors']
  exact h

theorem of_noted (h : Noted s s') (h' : FirstFatal s' s'' e) : FirstFatal s s'' e := by
  obtain ⟨es, heq, hes⟩ := h
  obtain ⟨fs, gs, heq', hfs, hfatal⟩ := h'
  refine ⟨es ++ fs, gs, by rw [heq', heq]; simp, fun f hf => ?_, hfatal⟩
  exact (List.mem_append.1 hf).elim (hes f) (hfs f)

/-- It stays the first one. -/
theorem onward (h : FirstFatal s s' e) (h' : Onward s' s'') : FirstFatal s s'' e := by
  obtain ⟨es, fs, heq, hes, hfatal⟩ := h
  obtain ⟨gs, heq', -⟩ := h'.errors
  exact ⟨es, fs ++ gs, by rw [heq', heq]; simp, hes, hfatal⟩

theorem not_noted (h : FirstFatal s s' e) : ¬ Noted s s' := by
  rintro ⟨gs, heq', hgs⟩
  obtain ⟨es, fs, heq, -, hfatal⟩ := h
  rw [heq, List.append_cancel_left_eq] at heq'
  exact hgs e (heq' ▸ by simp) hfatal

theorem unique (h : FirstFatal s s' e) (h' : FirstFatal s s' e') : e = e' := by
  obtain ⟨es, fs, heq, hes, hfatal⟩ := h
  obtain ⟨es', fs', heq', hes', hfatal'⟩ := h'
  rw [heq, List.append_cancel_left_eq] at heq'
  rcases List.append_eq_append_iff.1 heq' with ⟨us, rfl, hus⟩ | ⟨us, rfl, hus⟩
  · cases us with
    | nil => exact (List.cons.inj hus).1
    | cons u us =>
      obtain ⟨rfl, -⟩ := List.cons.inj hus
      exact absurd hfatal (hes' e (by simp))
  · cases us with
    | nil => exact (List.cons.inj hus).1.symm
    | cons u us =>
      obtain ⟨rfl, -⟩ := List.cons.inj hus
      exact absurd hfatal' (hes e' (by simp))

end FirstFatal

/-- Either no parser gave up between the two states, or there was a first error for that. -/
theorem Onward.noted_or_firstFatal (h : Onward s s') : Noted s s' ∨ ∃ e, FirstFatal s s' e := by
  obtain ⟨es, heq, -⟩ := h.errors
  rw [Noted]
  simp only [FirstFatal, heq, List.append_cancel_left_eq, exists_eq_left']
  clear heq
  induction es with
  | nil => exact Or.inl fun _ he => absurd he List.not_mem_nil
  | cons e es ih =>
    by_cases hfatal : IsFatal e.cause
    · exact Or.inr ⟨e, [], es, rfl, fun _ hf => absurd hf List.not_mem_nil, hfatal⟩
    · rcases ih with hnoted | ⟨f, fs, gs, rfl, hfs, hf⟩
      · exact Or.inl (List.forall_mem_cons.2 ⟨hfatal, hnoted⟩)
      · exact Or.inr ⟨f, e :: fs, gs, rfl, List.forall_mem_cons.2 ⟨hfatal, hfs⟩, hf⟩

/-! ### What a parser does where the tokens are cut off -/

/-- What `p` does on the tokens of a state, and what it does if there are more behind them: the same
without an error that makes a parser give up, or the same first error for that. Only where `p` asks
for a token behind those of the state, it may go on in its own way with the tokens that follow. -/
inductive CutOff (p : Parser α) (s : State) (more : List Token) : Prop
  | ok {a : α} {r : State} (hclean : Noted s r) (h : p s = .ok a r)
      (h' : p (followedBy s more) = .ok a (followedBy r more))
  | exhausted {r : State} (hclean : Noted s r) (h : p s = .error .exhausted r)
      (h' : p (followedBy s more) = .error .exhausted (followedBy r more))
  | short {r : State} (hclean : Noted s r) (h : p s = .error .noToken r)
      (h' : Onward ⟨more, r.errors, r.depth⟩ (final p (followedBy s more)))
  | failed {e : SyntaxError} (h : FirstFatal s (final p s) e)
      (h' : FirstFatal s (final p (followedBy s more)) e)

/-- A parser that goes forward and looks only at tokens that it asks for. -/
structure Looks (p : Parser α) (s : State) : Prop where
  onward : Onward s (final p s)
  cutOff : ∀ more, CutOff p s more

namespace Looks

variable {p q : Parser α}

theorem congr (h : ∀ more, p (followedBy s more) = q (followedBy s more)) (hq : Looks q s) :
    Looks p s := by
  have hs : p s = q s := by
    have hnil := h []
    rwa [followedBy, List.append_nil] at hnil
  have hfinal : ∀ {s'}, p s' = q s' → final p s' = final q s' := fun h => by
    rw [final, final, h]
  refine ⟨hfinal hs ▸ hq.onward, fun more => ?_⟩
  cases hq.cutOff more with
  | ok hclean hrun hrun' => exact .ok hclean (hs.trans hrun) ((h more).trans hrun')
  | exhausted hclean hrun hrun' =>
    exact .exhausted hclean (hs.trans hrun) ((h more).trans hrun')
  | short hclean hrun hrun' =>
    exact .short hclean (hs.trans hrun) (hfinal (h more) ▸ hrun')
  | failed hfirst hfirst' => exact .failed (hfinal hs ▸ hfirst) (hfinal (h more) ▸ hfirst')

theorem pure {a : α} : Looks (Pure.pure a) s :=
  ⟨.refl s, fun _ => .ok (.refl s) rfl rfl⟩

theorem throw_exhausted : Looks (throw .exhausted : Parser α) s :=
  ⟨.refl s, fun _ => .exhausted (.refl s) rfl rfl⟩

theorem note {t : Token} {cause : SyntaxCause} (h : ¬ IsFatal cause) :
    Looks (Parse.note t cause) s := by
  have hes : ∀ e ∈ [SyntaxError.mk t cause], ¬ IsFatal e.cause := by
    intro e he
    rw [List.mem_singleton.1 he]
    exact h
  exact ⟨⟨List.suffix_rfl, _, rfl, fun e he hfatal => absurd hfatal (hes e he)⟩,
    fun _ => .ok ⟨_, rfl, hes⟩ rfl rfl⟩

theorem advance {t : Token} {ts : List Token} (hrest : s.rest = t :: ts) :
    Looks Parse.advance s := by
  obtain ⟨rest, errors, depth⟩ := s
  cases hrest
  have herrors := (Onward.refl ⟨t :: ts, errors, depth⟩).errors
  exact ⟨⟨List.suffix_cons t ts, herrors⟩,
    fun _ => .ok (r := ⟨ts, errors, depth⟩) (.refl ⟨ts, errors, depth⟩) rfl rfl⟩

/-- A parser gives up at a token that is ahead. -/
theorem fail {t : Token} {ts : List Token} {cause : SyntaxCause} (hrest : s.rest = t :: ts)
    (h : IsFatal cause) : Looks (Parse.fail t cause : Parser α) s := by
  have hmem : t ∈ s.rest := by
    rw [hrest]
    exact List.mem_cons_self
  have hfirst : ∀ s : State, FirstFatal s (final (Parse.fail t cause : Parser α) s) ⟨t, cause⟩ :=
    fun _ => ⟨[], [], rfl, fun _ hf => absurd hf List.not_mem_nil, h⟩
  refine ⟨⟨List.suffix_rfl, [⟨t, cause⟩], rfl, fun e he _ => ?_⟩,
    fun more => .failed (hfirst s) (hfirst (followedBy s more))⟩
  rw [List.mem_singleton.1 he]
  exact hmem

theorem final_bind (f : α → Parser β) (hf : ∀ a s, Onward s (final (f a) s)) (s : State) :
    Onward (final p s) (final (p >>= f) s) := by
  cases hrun : p s with
  | ok a s' =>
    have hbind : final (p >>= f) s = final (f a) s' := by
      rw [final, Step.bind_of_ok hrun, final]
    rw [final_of_ok hrun, hbind]
    exact hf a s'
  | error stop s' =>
    rw [final_of_error hrun, final_of_error (Step.bind_of_error hrun f)]
    exact .refl s'

theorem bind {f : α → Parser β} (hp : Looks p s) (hf : ∀ a s', Looks (f a) s') :
    Looks (p >>= f) s := by
  have hgoes := final_bind (p := p) f fun a s' => (hf a s').onward
  refine ⟨hp.onward.trans (hgoes s), fun more => ?_⟩
  cases hp.cutOff more with
  | exhausted hclean h h' =>
    exact .exhausted hclean (Step.bind_of_error h f) (Step.bind_of_error h' f)
  | short hclean h h' =>
    exact .short hclean (Step.bind_of_error h f) (h'.trans (hgoes _))
  | failed h h' => exact .failed (h.onward (hgoes s)) (h'.onward (hgoes _))
  | ok hclean h h' =>
    rename_i a r
    have hbind := Step.bind_of_ok h f
    have hbind' := Step.bind_of_ok h' f
    have hfinal : final (p >>= f) s = final (f a) r := by rw [final, hbind, final]
    have hfinal' : final (p >>= f) (followedBy s more) = final (f a) (followedBy r more) := by
      rw [final, hbind', final]
    cases (hf a r).cutOff more with
    | ok hclean' hf hf' => exact .ok (hclean.trans hclean') (hbind.trans hf) (hbind'.trans hf')
    | exhausted hclean' hf hf' =>
      exact .exhausted (hclean.trans hclean') (hbind.trans hf) (hbind'.trans hf')
    | short hclean' hf hf' =>
      exact .short (hclean.trans hclean') (hbind.trans hf) (hfinal' ▸ hf')
    | failed hf hf' =>
      have hfirst := FirstFatal.of_noted hclean hf
      have hclean' : Noted (followedBy s more) (followedBy r more) := hclean.congr rfl rfl
      have hfirst' := FirstFatal.of_noted hclean' hf'
      exact .failed (hfinal ▸ hfirst) (hfinal' ▸ hfirst')

theorem map {f : α → β} (hp : Looks p s) : Looks (f <$> p) s :=
  congr (fun _ => by rw [map_eq_pure_bind]) (bind hp fun _ _ => pure)

theorem ite (c : Prop) [Decidable c] {q : Parser α} (hp : Looks p s) (hq : Looks q s) :
    Looks (if c then p else q) s := by
  split
  · exact hp
  · exact hq

/-- Where no token is ahead, it is asked for the first one of those that follow. -/
theorem bind_peek {f : Token → Parser β} (hf : ∀ t ts s, s.rest = t :: ts → Looks (f t) s) :
    Looks (Parse.peek >>= f) s := by
  obtain ⟨_ | ⟨t, ts⟩, errors, depth⟩ := s
  · refine ⟨.refl _, fun more => .short (.refl _) rfl ?_⟩
    cases more with
    | nil => exact .refl ⟨[], errors, depth⟩
    | cons u us => exact (hf u us ⟨u :: us, errors, depth⟩ rfl).onward
  · exact congr (q := f t) (fun _ => rfl) (hf t ts _ rfl)

theorem check (k : Kind) : Looks (Parse.check k) s := bind_peek fun _ _ _ _ => pure

theorem acceptWhen (right : Kind → Bool) : Looks (Parse.acceptWhen right) s :=
  bind_peek fun _ _ _ hrest => ite _ (bind (advance hrest) fun _ _ => pure) pure

theorem accept (k : Kind) : Looks (Parse.accept k) s := acceptWhen _

theorem expect (x : Expectation) : Looks (Parse.expect x) s :=
  bind_peek fun _ _ _ hrest =>
    ite _ (bind (advance hrest) fun _ _ => pure) (fail hrest trivial)

theorem limit (count : Nat) {cause : SyntaxCause} (h : ¬ IsFatal cause) :
    Looks (Parse.limit count cause) s :=
  ite _ (bind_peek fun _ _ _ _ => note h) pure

theorem afterOptional (k : Kind) (hp : ∀ s, Looks p s) : Looks (Parse.afterOptional k p) s := by
  refine bind (accept k) fun t s' => ?_
  cases t with
  | some _ => exact map (hp s')
  | none => exact pure

theorem unlessNext (k : Kind) (hp : ∀ s, Looks p s) : Looks (Parse.unlessNext k p) s :=
  bind (check k) fun _ s' => ite _ pure (map (hp s'))

theorem listBeforeParen {p : Parser (List α)} (hp : ∀ s, Looks p s) :
    Looks (Parse.listBeforeParen p) s :=
  bind (check .rightParen) fun _ s' => ite _ pure (hp s')

theorem rejectTopLevel (keyword : Token) : Looks (Parse.rejectTopLevel keyword) s :=
  congr (q := if s.depth = 0 then Parse.note keyword .topLevelReturn else Pure.pure ())
    (fun _ => Parse.rejectTopLevel_apply keyword _) (ite _ (note id) pure)

theorem final_inFunction (p : Parser α) (s : State) :
    (final (Parse.inFunction p) s).rest = (final p { s with depth := s.depth + 1 }).rest ∧
      (final (Parse.inFunction p) s).errors =
        (final p { s with depth := s.depth + 1 }).errors := by
  unfold final Parse.inFunction
  cases p { s with depth := s.depth + 1 } <;> exact ⟨rfl, rfl⟩

theorem inFunction (hp : ∀ s, Looks p s) : Looks (Parse.inFunction p) s := by
  have hinside := hp { s with depth := s.depth + 1 }
  obtain ⟨hrest, herrors⟩ := final_inFunction p s
  refine ⟨hinside.onward.congr rfl rfl (hrest ▸ List.suffix_rfl) herrors, fun more => ?_⟩
  obtain ⟨hrest', herrors'⟩ := final_inFunction p (followedBy s more)
  have hdeeper : { followedBy s more with depth := (followedBy s more).depth + 1 } =
      followedBy { s with depth := s.depth + 1 } more := rfl
  rw [hdeeper] at hrest' herrors'
  cases hinside.cutOff more with
  | ok hclean h h' =>
    rename_i a r
    exact .ok (r := { r with depth := r.depth - 1 }) (hclean.congr rfl rfl)
      (by rw [Parse.inFunction, h]) (by rw [Parse.inFunction, hdeeper, h']; rfl)
  | exhausted hclean h h' =>
    rename_i r
    exact .exhausted (r := { r with depth := r.depth - 1 }) (hclean.congr rfl rfl)
      (by rw [Parse.inFunction, h]) (by rw [Parse.inFunction, hdeeper, h']; rfl)
  | short hclean h h' =>
    rename_i r
    exact .short (r := { r with depth := r.depth - 1 }) (hclean.congr rfl rfl)
      (by rw [Parse.inFunction, h]) (h'.congr rfl rfl (hrest' ▸ List.suffix_rfl) herrors')
  | failed h h' => exact .failed (h.congr rfl herrors) (h'.congr rfl herrors')

theorem final_recovering (p : Parser α) (s : State) :
    (final (Parse.recovering p) s).rest <:+ (final p s).rest ∧
      (final (Parse.recovering p) s).errors = (final p s).errors := by
  unfold final Parse.recovering
  cases p s with
  | ok a s' => exact ⟨List.suffix_rfl, rfl⟩
  | error stop s' =>
    cases stop with
    | malformed => exact ⟨Parse.resynchronize_isSuffix _, rfl⟩
    | noToken => exact ⟨List.suffix_rfl, rfl⟩
    | exhausted => exact ⟨List.suffix_rfl, rfl⟩

/-- What is skipped after an error may depend on all tokens, but the error stays the first one. -/
theorem recovering (hp : Looks p s) : Looks (Parse.recovering p) s := by
  obtain ⟨hrest, herrors⟩ := final_recovering p s
  refine ⟨hp.onward.congr rfl rfl hrest herrors, fun more => ?_⟩
  obtain ⟨hrest', herrors'⟩ := final_recovering p (followedBy s more)
  cases hp.cutOff more with
  | ok hclean h h' =>
    exact .ok hclean (by rw [Parse.recovering, h]) (by rw [Parse.recovering, h'])
  | exhausted hclean h h' =>
    exact .exhausted hclean (by rw [Parse.recovering, h]) (by rw [Parse.recovering, h'])
  | short hclean h h' =>
    exact .short hclean (by rw [Parse.recovering, h]) (h'.congr rfl rfl hrest' herrors')
  | failed h h' => exact .failed (h.congr rfl herrors) (h'.congr rfl herrors')

end Looks

/-! ### Expressions -/

structure ExpressionsLook (fuel : Nat) : Prop where
  expression (s : State) : Looks (Parse.expression fuel) s
  chain (l : Level) (s : State) : Looks (Parse.chain fuel l) s
  chainAfter (l : Level) (left : Expr) (s : State) : Looks (Parse.chainAfter fuel l left) s
  operand (l : Level) (s : State) : Looks (Parse.operand fuel l) s
  unary (s : State) : Looks (Parse.unary fuel) s
  callAfter (callee : Expr) (s : State) : Looks (Parse.callAfter fuel callee) s
  arguments (count : Nat) (s : State) : Looks (Parse.arguments fuel count) s
  primary (s : State) : Looks (Parse.primary fuel) s

namespace ExpressionsLook

variable {fuel : Nat}

theorem step_expression (ih : ExpressionsLook fuel) : Looks (Parse.expression (fuel + 1)) s := by
  refine .bind (ih.chain .disjunction s) fun target _ => .bind (.accept _) fun equals s₂ => ?_
  cases equals with
  | none => exact .pure
  | some equals =>
    refine .bind (ih.expression s₂) fun value _ => ?_
    cases target with
    | «variable» name => exact .pure
    | _ => exact .bind (.note id) fun _ _ => .pure

theorem step_chainAfter (ih : ExpressionsLook fuel) (l : Level) (left : Expr) :
    Looks (Parse.chainAfter (fuel + 1) l left) s := by
  refine .bind (.acceptWhen _) fun op s₁ => ?_
  cases op with
  | none => exact .pure
  | some op => exact .bind (ih.operand l s₁) fun right s₂ => ih.chainAfter l _ s₂

theorem step_operand (ih : ExpressionsLook fuel) (l : Level) :
    Looks (Parse.operand (fuel + 1) l) s := by
  rw [Parse.operand]
  cases l.tighter? with
  | some next => exact ih.chain next s
  | none => exact ih.unary s

theorem step_unary (ih : ExpressionsLook fuel) : Looks (Parse.unary (fuel + 1)) s := by
  refine .bind (.acceptWhen _) fun op s₁ => ?_
  cases op with
  | some op => exact .bind (ih.unary s₁) fun _ _ => .pure
  | none => exact .bind (ih.primary s₁) ih.callAfter

theorem step_callAfter (ih : ExpressionsLook fuel) (callee : Expr) :
    Looks (Parse.callAfter (fuel + 1) callee) s := by
  refine .bind (.accept _) fun opening _ => ?_
  cases opening with
  | none => exact .pure
  | some _ =>
    refine .bind (.listBeforeParen (ih.arguments 0)) fun args _ => ?_
    exact .bind (.expect _) fun paren s₃ => ih.callAfter _ s₃

theorem step_arguments (ih : ExpressionsLook fuel) (count : Nat) :
    Looks (Parse.arguments (fuel + 1) count) s := by
  refine .bind (.limit _ id) fun _ s₁ => .bind (ih.expression s₁) fun e _ => ?_
  refine .bind (.accept _) fun comma s₃ => ?_
  cases comma with
  | some _ => exact .bind (ih.arguments (count + 1) s₃) fun _ _ => .pure
  | none => exact .pure

theorem step_primary (ih : ExpressionsLook fuel) : Looks (Parse.primary (fuel + 1)) s := by
  refine .bind_peek fun t ts s hrest => ?_
  split
  case h_7 =>
    refine .bind (.advance hrest) fun _ s₁ => .bind (ih.expression s₁) fun inner _ => ?_
    exact .bind (.expect _) fun _ _ => .pure
  case h_8 => exact .fail hrest trivial
  all_goals exact .bind (.advance hrest) fun _ _ => .pure

end ExpressionsLook

theorem expressionsLook (fuel : Nat) : ExpressionsLook fuel := by
  induction fuel with
  | zero =>
    exact {
      expression := fun _ => .throw_exhausted
      chain := fun _ _ => .throw_exhausted
      chainAfter := fun _ _ _ => .throw_exhausted
      operand := fun _ _ => .throw_exhausted
      unary := fun _ => .throw_exhausted
      callAfter := fun _ _ => .throw_exhausted
      arguments := fun _ _ => .throw_exhausted
      primary := fun _ => .throw_exhausted }
  | succ fuel ih =>
    exact {
      expression := fun _ => ih.step_expression
      chain := fun l s => .bind (ih.operand l s) (ih.chainAfter l)
      chainAfter := fun l left _ => ih.step_chainAfter l left
      operand := fun l _ => ih.step_operand l
      unary := fun _ => ih.step_unary
      callAfter := fun callee _ => ih.step_callAfter callee
      arguments := fun count _ => ih.step_arguments count
      primary := fun _ => ih.step_primary }

/-! ### Declarations and statements -/

namespace Looks

variable {fuel : Nat}

theorem expression (s : State) : Looks (Parse.expression fuel) s :=
  (expressionsLook fuel).expression s

theorem parameters (count : Nat) (s : State) : Looks (Parse.parameters fuel count) s := by
  induction fuel generalizing count s with
  | zero => exact throw_exhausted
  | succ fuel ih =>
    refine bind (limit _ id) fun _ _ => bind (expect _) fun name _ => ?_
    refine bind (accept _) fun comma s₃ => ?_
    cases comma with
    | some _ => exact bind (ih (count + 1) s₃) fun _ _ => pure
    | none => exact pure

theorem expressionStatement : Looks (Parse.expressionStatement fuel) s :=
  bind (expression s) fun _ _ => bind (expect _) fun _ _ => pure

theorem varDeclaration : Looks (Parse.varDeclaration fuel) s := by
  refine bind (expect _) fun name _ => bind (afterOptional _ expression) fun initializer _ => ?_
  exact bind (expect _) fun _ _ => pure

theorem printStatement : Looks (Parse.printStatement fuel) s :=
  bind (expression s) fun _ _ => bind (expect _) fun _ _ => pure

theorem returnStatement (keyword : Token) : Looks (Parse.returnStatement fuel keyword) s := by
  refine bind (rejectTopLevel keyword) fun _ _ => bind (unlessNext _ expression) fun value _ => ?_
  exact bind (expect _) fun _ _ => pure

theorem forInitializer : Looks (Parse.forInitializer fuel) s := by
  refine bind_peek fun t ts s hrest => ?_
  split
  · exact bind (advance hrest) fun _ _ => pure
  · exact bind (advance hrest) fun _ _ => map varDeclaration
  · exact map expressionStatement

end Looks

structure ProgramsLook (fuel : Nat) : Prop where
  declaration (s : State) : Looks (Parse.declaration fuel) s
  declarations (inBlock : Bool) (s : State) : Looks (Parse.declarations fuel inBlock) s
  block (s : State) : Looks (Parse.block fuel) s
  functionDeclaration (s : State) : Looks (Parse.functionDeclaration fuel) s
  statement (s : State) : Looks (Parse.statement fuel) s
  forStatement (s : State) : Looks (Parse.forStatement fuel) s

namespace ProgramsLook

variable {fuel : Nat}

theorem step_declaration (ih : ProgramsLook fuel) : Looks (Parse.declaration (fuel + 1)) s := by
  refine .recovering (.bind_peek fun t ts s hrest => ?_)
  split
  · exact .bind (.advance hrest) fun _ _ => .varDeclaration
  · exact .bind (.advance hrest) fun _ s₁ => ih.functionDeclaration s₁
  · exact ih.statement s

theorem step_declarations (ih : ProgramsLook fuel) (inBlock : Bool) :
    Looks (Parse.declarations (fuel + 1) inBlock) s := by
  refine .bind_peek fun t ts s hrest => .ite _ .pure (.bind (ih.declaration s) fun first s₂ => ?_)
  cases first with
  | some _ => exact .bind (ih.declarations inBlock s₂) fun _ _ => .pure
  | none => exact ih.declarations inBlock s₂

theorem step_functionDeclaration (ih : ProgramsLook fuel) :
    Looks (Parse.functionDeclaration (fuel + 1)) s := by
  refine .bind (.expect _) fun name _ => .bind (.expect _) fun _ _ => ?_
  refine .bind (.listBeforeParen (.parameters 0)) fun params _ => ?_
  refine .bind (.expect _) fun _ _ => .bind (.expect _) fun _ _ => ?_
  exact .bind (.inFunction ih.block) fun _ _ => .pure

theorem step_statement (ih : ProgramsLook fuel) : Looks (Parse.statement (fuel + 1)) s := by
  refine .bind_peek fun t ts s hrest => ?_
  split
  · exact .bind (.advance hrest) fun _ s₁ => ih.forStatement s₁
  · refine .bind (.advance hrest) fun _ _ => .bind (.expect _) fun _ s₂ => ?_
    refine .bind (.expression s₂) fun condition _ => .bind (.expect _) fun _ s₄ => ?_
    refine .bind (ih.statement s₄) fun _ _ => ?_
    exact .bind (.afterOptional _ ih.statement) fun _ _ => .pure
  · exact .bind (.advance hrest) fun _ _ => .printStatement
  · exact .bind (.advance hrest) fun _ _ => .returnStatement t
  · refine .bind (.advance hrest) fun _ _ => .bind (.expect _) fun _ s₂ => ?_
    refine .bind (.expression s₂) fun condition _ => .bind (.expect _) fun _ s₄ => ?_
    exact .bind (ih.statement s₄) fun _ _ => .pure
  · exact .bind (.advance hrest) fun _ s₁ => .bind (ih.block s₁) fun _ _ => .pure
  · exact .expressionStatement

theorem step_forStatement (ih : ProgramsLook fuel) :
    Looks (Parse.forStatement (fuel + 1)) s := by
  refine .bind (.expect _) fun _ _ => .bind .forInitializer fun initializer _ => ?_
  refine .bind (.unlessNext _ .expression) fun condition _ => .bind (.expect _) fun _ _ => ?_
  refine .bind (.unlessNext _ .expression) fun increment _ => .bind (.expect _) fun _ s₆ => ?_
  exact .bind (ih.statement s₆) fun _ _ => .pure

end ProgramsLook

theorem programsLook (fuel : Nat) : ProgramsLook fuel := by
  induction fuel with
  | zero =>
    exact {
      declaration := fun _ => .throw_exhausted
      declarations := fun _ _ => .throw_exhausted
      block := fun _ => .throw_exhausted
      functionDeclaration := fun _ => .throw_exhausted
      statement := fun _ => .throw_exhausted
      forStatement := fun _ => .throw_exhausted }
  | succ fuel ih =>
    exact {
      declaration := fun _ => ih.step_declaration
      declarations := fun inBlock _ => ih.step_declarations inBlock
      block := fun s => .bind (ih.declarations true s) fun _ _ =>
        .bind (.expect _) fun _ _ => .pure
      functionDeclaration := fun _ => ih.step_functionDeclaration
      statement := fun _ => ih.step_statement
      forStatement := fun _ => ih.step_forStatement }

end Grammar

end Lox
