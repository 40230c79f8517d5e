import LoxInterpreter.Proofs.Grammar.Faults

/-!
A judgment about parsers that leaves their fuel out. `Takes p s a s'` says that `p`, started in
`s`, ends in `s'` with the result `a`, unless it runs out of fuel before. Parsers that follow each
other are put together by `Takes.bind`, so that a proof about a parser goes through it from top
to bottom and never counts fuel. That the fuel suffices is proved apart.
-/

namespace Lox

namespace Grammar

open Parse (Parser State Level)

variable {α β : Type}

/-- The parser ends in the second state with the result, or runs out of fuel. -/
def Takes (p : Parser α) (s : State) (a : α) (s' : State) : Prop :=
  p s = .ok a s' ∨ ∃ s'', p s = .error .exhausted s''

namespace Takes

theorem of_eq {p : Parser α} {s s' : State} {a : α} (h : p s = .ok a s') : Takes p s a s' :=
  Or.inl h

theorem throw_exhausted {s s' : State} {a : α} : Takes (throw .exhausted) s a s' :=
  Or.inr ⟨s, rfl⟩

theorem pure {s : State} {a : α} : Takes (Pure.pure a) s a s := of_eq rfl

theorem bind {p : Parser α} {f : α → Parser β} {s s' s'' : State} {a : α} {b : β}
    (hp : Takes p s a s') (hf : Takes (f a) s' b s'') : Takes (p >>= f) s b s'' := by
  rcases hp with hp | ⟨t, hp⟩
  · rw [Takes, Step.bind_apply, hp]
    exact hf
  · exact Or.inr ⟨t, by rw [Step.bind_apply, hp]⟩

theorem map {p : Parser α} {f : α → β} {s s' : State} {a : α} (hp : Takes p s a s') :
    Takes (f <$> p) s (f a) s' := by
  rcases hp with hp | ⟨t, hp⟩
  · exact of_eq (by rw [Step.map_apply, hp])
  · exact Or.inr ⟨t, by rw [Step.map_apply, hp]⟩

theorem inFunction {p : Parser α} {rest rest' : List Token} {errors errors' : List SyntaxError}
    {depth : Nat} {a : α}
    (hp : Takes p ⟨rest, errors, depth + 1⟩ a ⟨rest', errors', depth + 1⟩) :
    Takes (Parse.inFunction p) ⟨rest, errors, depth⟩ a ⟨rest', errors', depth⟩ := by
  rcases hp with hp | ⟨t, hp⟩
  · exact of_eq (by simp [Parse.inFunction, hp])
  · exact Or.inr ⟨{ t with depth := t.depth - 1 }, by simp [Parse.inFunction, hp]⟩

theorem recovering {p : Parser α} {s s' : State} {a : α} (hp : Takes p s a s') :
    Takes (Parse.recovering p) s (some a) s' := by
  rcases hp with hp | ⟨t, hp⟩
  · exact of_eq (by simp [Parse.recovering, hp])
  · exact Or.inr ⟨t, by simp [Parse.recovering, hp]⟩

/-! ### Parsers that look at one token -/

variable {t : Token} {ts : List Token} {errors : List SyntaxError} {depth : Nat}

theorem peek : Takes Parse.peek ⟨t :: ts, errors, depth⟩ t ⟨t :: ts, errors, depth⟩ := of_eq rfl

theorem advance : Takes Parse.advance ⟨t :: ts, errors, depth⟩ () ⟨ts, errors, depth⟩ :=
  of_eq rfl

theorem check {k : Kind} :
    Takes (Parse.check k) ⟨t :: ts, errors, depth⟩ (t.kind == k) ⟨t :: ts, errors, depth⟩ :=
  of_eq rfl

theorem acceptWhen {right : Kind → Bool} (h : right t.kind = true) :
    Takes (Parse.acceptWhen right) ⟨t :: ts, errors, depth⟩ (some t) ⟨ts, errors, depth⟩ := by
  refine bind peek ?_
  rw [if_pos h]
  exact bind advance pure

theorem acceptWhen_none {right : Kind → Bool} (h : right t.kind = false) :
    Takes (Parse.acceptWhen right) ⟨t :: ts, errors, depth⟩ none ⟨t :: ts, errors, depth⟩ := by
  refine bind peek ?_
  rw [if_neg (by simp [h])]
  exact pure

theorem accept {k : Kind} (h : t.kind = k) :
    Takes (Parse.accept k) ⟨t :: ts, errors, depth⟩ (some t) ⟨ts, errors, depth⟩ :=
  acceptWhen (beq_iff_eq.2 h)

theorem accept_none {k : Kind} (h : t.kind ≠ k) :
    Takes (Parse.accept k) ⟨t :: ts, errors, depth⟩ none ⟨t :: ts, errors, depth⟩ :=
  acceptWhen_none (beq_eq_false_iff_ne.2 h)

theorem expect {e : Expectation} (h : t.kind = e.kind) :
    Takes (Parse.expect e) ⟨t :: ts, errors, depth⟩ t ⟨ts, errors, depth⟩ := by
  refine bind peek ?_
  rw [if_pos (beq_iff_eq.2 h)]
  exact bind advance pure

theorem limit {count : Nat} {cause : SyntaxCause} {right : Kind → Prop} (h : Begins right ts) :
    Takes (Parse.limit count cause) ⟨ts, errors, depth⟩ ()
      ⟨ts, errors ++ overlong cause count ts, depth⟩ := by
  obtain ⟨t, ts, rfl, -⟩ := h
  by_cases h : count < 255
  · have hle : ¬ Parse.maxArguments ≤ count := Nat.not_le.2 h
    rw [Parse.limit, if_neg hle, overlong, if_pos h, List.append_nil]
    exact pure
  · have hle : Parse.maxArguments ≤ count := Nat.not_lt.1 h
    rw [Parse.limit, if_pos hle, overlong, if_neg h]
    exact bind peek (of_eq rfl)

theorem unlessNext_none {k : Kind} {p : Parser α} (h : t.kind = k) :
    Takes (Parse.unlessNext k p) ⟨t :: ts, errors, depth⟩ none ⟨t :: ts, errors, depth⟩ := by
  refine bind check ?_
  rw [if_pos (beq_iff_eq.2 h)]
  exact pure

theorem unlessNext_some {k : Kind} {p : Parser α} {a : α} {s : State} (h : t.kind ≠ k)
    (hp : Takes p ⟨t :: ts, errors, depth⟩ a s) :
    Takes (Parse.unlessNext k p) ⟨t :: ts, errors, depth⟩ (some a) s := by
  refine bind check ?_
  rw [if_neg (by simpa using h)]
  exact hp.map

theorem afterOptional_none {k : Kind} {p : Parser α} (h : t.kind ≠ k) :
    Takes (Parse.afterOptional k p) ⟨t :: ts, errors, depth⟩ none ⟨t :: ts, errors, depth⟩ :=
  bind (accept_none h) pure

theorem afterOptional_some {k : Kind} {p : Parser α} {a : α} {s : State} (h : t.kind = k)
    (hp : Takes p ⟨ts, errors, depth⟩ a s) :
    Takes (Parse.afterOptional k p) ⟨t :: ts, errors, depth⟩ (some a) s :=
  bind (accept h) hp.map

theorem listBeforeParen_nil {p : Parser (List α)} (h : t.kind = .rightParen) :
    Takes (Parse.listBeforeParen p) ⟨t :: ts, errors, depth⟩ [] ⟨t :: ts, errors, depth⟩ := by
  refine bind check ?_
  rw [if_pos (beq_iff_eq.2 h)]
  exact pure

theorem listBeforeParen_of_takes {p : Parser (List α)} {as : List α} {s : State}
    (h : t.kind ≠ .rightParen) (hp : Takes p ⟨t :: ts, errors, depth⟩ as s) :
    Takes (Parse.listBeforeParen p) ⟨t :: ts, errors, depth⟩ as s := by
  refine bind check ?_
  rw [if_neg (by simpa using h)]
  exact hp

end Takes

end Grammar

end Lox
