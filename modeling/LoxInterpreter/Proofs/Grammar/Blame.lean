import LoxInterpreter.Proofs.Grammar.Meets

/-!
Which token is blamed. An error that makes the parser of an expression give up is the last one that
it records, and it stands at the next token. The errors before it are those after which a parser
goes on.
-/

namespace Lox

namespace Grammar

open Parse (Parser State Level)

variable {α β : Type} {s s' s'' : State}

/-- Between the two states, errors were recorded after which a parser goes on. -/
def Noted (s s' : State) : Prop :=
  ∃ es, s'.errors = s.errors ++ es ∧ ∀ e ∈ es, ¬ IsFatal e.cause

/-- Between the two states, a parser gave up, and the error for that stands at the next token. -/
def BlamedNext (s s' : State) : Prop :=
  ∃ es e, s'.errors = s.errors ++ (es ++ [e]) ∧ (∀ f ∈ es, ¬ IsFatal f.cause) ∧
    IsFatal e.cause ∧ s'.rest.head? = some e.token

theorem Noted.refl (s : State) : Noted s s :=
  ⟨[], (List.append_nil _).symm, fun _ he => absurd he List.not_mem_nil⟩

theorem Noted.trans (h : Noted s s') (h' : Noted s' s'') : Noted s s'' := by
  obtain ⟨es, heq, hes⟩ := h
  obtain ⟨fs, heq', hfs⟩ := h'
  refine ⟨es ++ fs, by rw [heq', heq, List.append_assoc], fun e he => ?_⟩
  exact (List.mem_append.1 he).elim (hes e) (hfs e)

theorem Noted.blamedNext (h : Noted s s') (h' : BlamedNext s' s'') : BlamedNext s s'' := by
  obtain ⟨es, heq, hes⟩ := h
  obtain ⟨fs, e, heq', hfs, hfatal, hhead⟩ := h'
  refine ⟨es ++ fs, e, by simp [heq', heq], fun f hf => ?_, hfatal, hhead⟩
  exact (List.mem_append.1 hf).elim (hes f) (hfs f)

/-- Started in the state, a parser blames the next token for giving up, and no token before. -/
def BlamesNext (p : Parser α) (s : State) : Prop :=
  match p s with
  | .ok _ s' => Noted s s'
  | .error .malformed s' => BlamedNext s s'
  | .error _ _ => True

namespace BlamesNext

variable {p : Parser α}

theorem noted {a : α} (h : BlamesNext p s) (hp : p s = .ok a s') : Noted s s' := by
  rw [BlamesNext, hp] at h
  exact h

theorem blamedNext (h : BlamesNext p s) (hp : p s = .error .malformed s') : BlamedNext s s' := by
  rw [BlamesNext, hp] at h
  exact h

theorem pure {a : α} : BlamesNext (Pure.pure a) s := Noted.refl s

theorem throw_exhausted : BlamesNext (throw .exhausted : Parser α) s := trivial

theorem bind {f : α → Parser β} (hp : BlamesNext p s) (hf : ∀ a s', BlamesNext (f a) s') :
    BlamesNext (p >>= f) s := by
  rw [BlamesNext, Step.bind_apply]
  cases hrun : p s with
  | ok a s₁ =>
    have hnoted := hp.noted hrun
    dsimp only
    cases hrun' : f a s₁ with
    | ok b s₂ => exact hnoted.trans ((hf a s₁).noted hrun')
    | error stop s₂ =>
      cases stop with
      | malformed => exact hnoted.blamedNext ((hf a s₁).blamedNext hrun')
      | noToken => trivial
      | exhausted => trivial
  | error stop s₁ =>
    cases stop with
    | malformed => exact hp.blamedNext hrun
    | noToken => trivial
    | exhausted => trivial

theorem ite (c : Prop) [Decidable c] {q : Parser α} (hp : BlamesNext p s) (hq : BlamesNext q s) :
    BlamesNext (if c then p else q) s := by
  split
  · exact hp
  · exact hq

theorem advance : BlamesNext Parse.advance s := by
  obtain ⟨_ | ⟨t, ts⟩, errors, depth⟩ := s
  · exact Noted.refl _
  · exact ⟨[], (List.append_nil errors).symm, fun _ he => absurd he List.not_mem_nil⟩

theorem note {t : Token} {cause : SyntaxCause} (h : ¬ IsFatal cause) :
    BlamesNext (Parse.note t cause) s := by
  refine ⟨[⟨t, cause⟩], rfl, fun e he => ?_⟩
  rw [List.mem_singleton.1 he]
  exact h

/-- The token that is blamed is the next one. -/
theorem fail {t : Token} {ts : List Token} {cause : SyntaxCause} (hrest : s.rest = t :: ts)
    (h : IsFatal cause) : BlamesNext (Parse.fail t cause : Parser α) s :=
  ⟨[], ⟨t, cause⟩, rfl, fun _ he => absurd he List.not_mem_nil, h, by rw [hrest]; rfl⟩

theorem bind_peek {f : Token → Parser β}
    (hf : ∀ t ts, s.rest = t :: ts → BlamesNext (f t) s) : BlamesNext (Parse.peek >>= f) s := by
  obtain ⟨_ | ⟨t, ts⟩, errors, depth⟩ := s
  · trivial
  · exact hf t ts rfl

theorem check {k : Kind} : BlamesNext (Parse.check k) s := bind_peek fun _ _ _ => pure

theorem acceptWhen {right : Kind → Bool} : BlamesNext (Parse.acceptWhen right) s :=
  bind_peek fun _ _ _ => ite _ (bind advance fun _ _ => pure) pure

theorem accept {k : Kind} : BlamesNext (Parse.accept k) s := acceptWhen

theorem expect {e : Expectation} : BlamesNext (Parse.expect e) s :=
  bind_peek fun _ _ hrest => ite _ (bind advance fun _ _ => pure) (fail hrest trivial)

theorem limit {count : Nat} {cause : SyntaxCause} (h : ¬ IsFatal cause) :
    BlamesNext (Parse.limit count cause) s :=
  ite _ (bind_peek fun _ _ _ => note h) pure

theorem listBeforeParen {p : Parser (List α)} (hp : ∀ s, BlamesNext p s) :
    BlamesNext (Parse.listBeforeParen p) s :=
  bind check fun _ s' => ite _ pure (hp s')

end BlamesNext

structure ExpressionsBlameNext (fuel : Nat) : Prop where
  expression (s : State) : BlamesNext (Parse.expression fuel) s
  chain (l : Level) (s : State) : BlamesNext (Parse.chain fuel l) s
  chainAfter (l : Level) (left : Expr) (s : State) : BlamesNext (Parse.chainAfter fuel l left) s
  operand (l : Level) (s : State) : BlamesNext (Parse.operand fuel l) s
  unary (s : State) : BlamesNext (Parse.unary fuel) s
  callAfter (callee : Expr) (s : State) : BlamesNext (Parse.callAfter fuel callee) s
  arguments (count : Nat) (s : State) : BlamesNext (Parse.arguments fuel count) s
  primary (s : State) : BlamesNext (Parse.primary fuel) s

namespace ExpressionsBlameNext

variable {fuel : Nat}

theorem step_expression (ih : ExpressionsBlameNext fuel) :
    BlamesNext (Parse.expression (fuel + 1)) s := by
  refine .bind (ih.chain .disjunction s) fun target _ => .bind .accept fun equals s₂ => ?_
  cases equals with
  | none => exact .pure
  | some equals =>
    refine .bind (ih.expression s₂) fun value _ => ?_
    cases target with
    | «variable» name => exact .pure
    | _ => exact .bind (.note id) fun _ _ => .pure

theorem step_chainAfter (ih : ExpressionsBlameNext fuel) (l : Level) (left : Expr) :
    BlamesNext (Parse.chainAfter (fuel + 1) l left) s := by
  refine .bind .acceptWhen fun op s₁ => ?_
  cases op with
  | none => exact .pure
  | some op => exact .bind (ih.operand l s₁) fun right s₂ => ih.chainAfter l _ s₂

theorem step_operand (ih : ExpressionsBlameNext fuel) (l : Level) :
    BlamesNext (Parse.operand (fuel + 1) l) s := by
  rw [Parse.operand]
  cases l.tighter? with
  | some next => exact ih.chain next s
  | none => exact ih.unary s

theorem step_unary (ih : ExpressionsBlameNext fuel) : BlamesNext (Parse.unary (fuel + 1)) s := by
  refine .bind .acceptWhen fun op s₁ => ?_
  cases op with
  | some op => exact .bind (ih.unary s₁) fun _ _ => .pure
  | none => exact .bind (ih.primary s₁) ih.callAfter

theorem step_callAfter (ih : ExpressionsBlameNext fuel) (callee : Expr) :
    BlamesNext (Parse.callAfter (fuel + 1) callee) s := by
  refine .bind .accept fun opening _ => ?_
  cases opening with
  | none => exact .pure
  | some _ =>
    refine .bind (.listBeforeParen (ih.arguments 0)) fun args _ => ?_
    exact .bind .expect fun paren s₃ => ih.callAfter _ s₃

theorem step_arguments (ih : ExpressionsBlameNext fuel) (count : Nat) :
    BlamesNext (Parse.arguments (fuel + 1) count) s := by
  refine .bind (.limit id) fun _ s₁ => .bind (ih.expression s₁) fun e _ => ?_
  refine .bind .accept fun comma s₃ => ?_
  cases comma with
  | some _ => exact .bind (ih.arguments (count + 1) s₃) fun _ _ => .pure
  | none => exact .pure

theorem step_primary (ih : ExpressionsBlameNext fuel) :
    BlamesNext (Parse.primary (fuel + 1)) s := by
  refine .bind_peek fun t ts hrest => ?_
  split
  case h_7 =>
    refine .bind .advance fun _ s₁ => .bind (ih.expression s₁) fun inner _ => ?_
    exact .bind .expect fun _ _ => .pure
  case h_8 => exact .fail hrest trivial
  all_goals exact .bind .advance fun _ _ => .pure

end ExpressionsBlameNext

theorem expressionsBlameNext (fuel : Nat) : ExpressionsBlameNext fuel := by
  induction fuel with
  | zero =>
    exact {
      expression := fun _ => .throw_exhausted
      chain := fun _ _ => .throw_exhausted
      chainAfter := fun _ _ _ => .throw_exhausted
      operand := fun _ _ => .throw_exhausted
      unary := fun _ => .throw_exhausted
      callAfter := fun _ _ => .throw_exhausted
      arguments := fun _ _ => .throw_exhausted
      primary := fun _ => .throw_exhausted }
  | succ fuel ih =>
    exact {
      expression := fun _ => ih.step_expression
      chain := fun l s => .bind (ih.operand l s) (ih.chainAfter l)
      chainAfter := fun l left _ => ih.step_chainAfter l left
      operand := fun l _ => ih.step_operand l
      unary := fun _ => ih.step_unary
      callAfter := fun callee _ => ih.step_callAfter callee
      arguments := fun count _ => ih.step_arguments count
      primary := fun _ => ih.step_primary }

end Grammar

end Lox
