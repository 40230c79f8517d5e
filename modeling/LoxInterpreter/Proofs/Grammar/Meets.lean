import LoxInterpreter.Proofs.Grammar.Faults

/-!
A judgment about how parsers end. `Meets p s Q R` says that `p`, started in `s`, ends with a
result and a state that satisfy `Q`, or gives up on malformed tokens in a state that satisfies
`R`. So it neither runs out of fuel nor asks for a token behind the last one. What a parser does
on its way is said by two relations between states: `Passes` names the tokens that are taken and
the errors that are recorded, and `Ahead` only says that the parser did not go back.
-/

namespace Lox

namespace Grammar

open Parse (Parser State)

inductive Terminated : List Token → Prop
  | stop {t : Token} (h : t.kind = .eof) : Terminated [t]
  | cons {t : Token} {ts : List Token} (h : t.kind ≠ .eof) (hts : Terminated ts) :
      Terminated (t :: ts)

namespace Terminated

variable {t : Token} {ts : List Token}

theorem begins (h : Terminated ts) : Begins (fun _ => True) ts := by
  cases h with
  | stop => exact .any _ _
  | cons => exact .any _ _

theorem tail (h : Terminated (t :: ts)) (ht : t.kind ≠ .eof) : Terminated ts := by
  cases h with
  | stop heof => exact absurd heof ht
  | cons _ hts => exact hts

theorem eq_nil (h : Terminated (t :: ts)) (ht : t.kind = .eof) : ts = [] := by
  cases h with
  | stop => rfl
  | cons hne _ => exact absurd ht hne

theorem length_pos (h : Terminated ts) : 0 < ts.length := by
  cases h <;> simp

theorem append {body : List Token} {stop : Token} (hbody : ∀ t ∈ body, t.kind ≠ .eof)
    (hstop : stop.kind = .eof) : Terminated (body ++ [stop]) := by
  induction body with
  | nil => exact .stop hstop
  | cons t body ih =>
    have ht : t.kind ≠ .eof := hbody t List.mem_cons_self
    exact .cons ht (ih fun u hu => hbody u (List.mem_cons_of_mem t hu))

theorem skipFrom {last : Token} (h : Terminated ts) : Terminated (Parse.skipFrom last ts) := by
  induction h generalizing last with
  | stop ht =>
    rw [Parse.skipFrom, if_pos (by simp [ht])]
    exact .stop ht
  | cons ht hts ih =>
    rw [Parse.skipFrom]
    split
    · exact .cons ht hts
    · exact ih

theorem resynchronize (h : Terminated ts) : Terminated (Parse.resynchronize ts) := by
  cases h with
  | stop ht =>
    rw [Parse.resynchronize, if_pos ht]
    exact .stop ht
  | cons ht hts =>
    rw [Parse.resynchronize, if_neg ht]
    exact hts.skipFrom

end Terminated

/-- Whether an error makes the parser give up. -/
def IsFatal : SyntaxCause → Prop
  | .expected _ | .expectedExpression => True
  | .tooManyParameters | .tooManyArguments | .invalidTarget | .topLevelReturn => False

def HasFatal (s : State) : Prop := ∃ e ∈ s.errors, IsFatal e.cause

/-- From the first state to the second, some tokens were taken and some errors recorded. -/
structure Ahead (s s' : State) : Prop where
  rest : s'.rest <:+ s.rest
  errors : s.errors <+: s'.errors
  depth : s'.depth = s.depth
  terminated : Terminated s'.rest

structure Passes (s : State) (tokens : List Token) (errors : List SyntaxError) (s' : State) :
    Prop where
  rest : s.rest = tokens ++ s'.rest
  errors : s'.errors = s.errors ++ errors
  depth : s'.depth = s.depth
  terminated : Terminated s'.rest

def Broken (s s' : State) : Prop := Ahead s s' ∧ HasFatal s'

variable {s s' s'' : State}

namespace Ahead

theorem refl (h : Terminated s.rest) : Ahead s s :=
  ⟨List.suffix_rfl, List.prefix_rfl, rfl, h⟩

theorem trans (h : Ahead s s') (h' : Ahead s' s'') : Ahead s s'' :=
  ⟨h'.rest.trans h.rest, h.errors.trans h'.errors, h'.depth.trans h.depth, h'.terminated⟩

theorem length_le (h : Ahead s s') : s'.rest.length ≤ s.rest.length := h.rest.length_le

theorem hasFatal (h : Ahead s s') (hs : HasFatal s) : HasFatal s' := by
  obtain ⟨e, he, hfatal⟩ := hs
  exact ⟨e, h.errors.subset he, hfatal⟩

theorem broken (h : Ahead s s') (h' : Broken s' s'') : Broken s s'' := ⟨h.trans h'.1, h'.2⟩

end Ahead

namespace Passes

variable {ts us : List Token} {es fs : List SyntaxError}

theorem refl (h : Terminated s.rest) : Passes s [] [] s :=
  ⟨rfl, (List.append_nil _).symm, rfl, h⟩

theorem trans (h : Passes s ts es s') (h' : Passes s' us fs s'') :
    Passes s (ts ++ us) (es ++ fs) s'' :=
  ⟨by rw [h.rest, h'.rest, List.append_assoc],
    by rw [h'.errors, h.errors, List.append_assoc], h'.depth.trans h.depth, h'.terminated⟩

theorem ahead (h : Passes s ts es s') : Ahead s s' :=
  ⟨⟨ts, h.rest.symm⟩, ⟨es, h.errors.symm⟩, h.depth, h.terminated⟩

theorem length_eq (h : Passes s ts es s') : s.rest.length = ts.length + s'.rest.length := by
  rw [h.rest, List.length_append]

theorem cast {ts' : List Token} {es' : List SyntaxError} (h : Passes s ts es s') (hts : ts = ts')
    (hes : es = es') : Passes s ts' es' s' := by
  rw [← hts, ← hes]
  exact h

theorem token {t : Token} (hs : Terminated s.rest) (hrest : s.rest = t :: ts)
    (ht : t.kind ≠ .eof) : Passes s [t] [] { s with rest := ts } :=
  ⟨hrest, (List.append_nil _).symm, rfl, (hrest ▸ hs).tail ht⟩

end Passes

variable {α β : Type}

/-- The parser ends well with `Q`, or gives up with `R`. -/
def Meets (p : Parser α) (s : State) (Q : α → State → Prop) (R : State → Prop) : Prop :=
  match p s with
  | .ok a s' => Q a s'
  | .error .malformed s' => R s'
  | .error _ _ => False

namespace Meets

variable {p : Parser α} {f : α → Parser β} {Q Q' : α → State → Prop}
  {T : β → State → Prop} {R R' : State → Prop}

theorem congr {q : Parser α} (h : p s = q s) (hq : Meets q s Q R) : Meets p s Q R := by
  rw [Meets, h]
  exact hq

theorem ok_iff {a : α} (h : p s = .ok a s') : Meets p s Q R ↔ Q a s' := by
  rw [Meets, h]

theorem malformed_iff (h : p s = .error .malformed s') : Meets p s Q R ↔ R s' := by
  rw [Meets, h]

/-- There are two ways to end. -/
theorem ends (h : Meets p s Q R) :
    (∃ a s', p s = .ok a s' ∧ Q a s') ∨ ∃ s', p s = .error .malformed s' ∧ R s' := by
  unfold Meets at h
  cases hp : p s with
  | ok a s' =>
    rw [hp] at h
    exact Or.inl ⟨a, s', rfl, h⟩
  | error e s' =>
    rw [hp] at h
    cases e with
    | malformed => exact Or.inr ⟨s', rfl, h⟩
    | noToken => exact h.elim
    | exhausted => exact h.elim

theorem mono (h : Meets p s Q R) (hQ : ∀ a s', Q a s' → Q' a s') (hR : ∀ s', R s' → R' s') :
    Meets p s Q' R' := by
  rcases h.ends with ⟨a, s', hp, ha⟩ | ⟨s', hp, hs'⟩
  · exact (ok_iff hp).2 (hQ a s' ha)
  · exact (malformed_iff hp).2 (hR s' hs')

theorem imp (h : Meets p s Q R) (hQ : ∀ a s', Q a s' → Q' a s') : Meets p s Q' R :=
  h.mono hQ fun _ hR => hR

theorem pure {a : α} (h : Q a s) : Meets (Pure.pure a) s Q R := h

theorem bind (hp : Meets p s Q R) (hf : ∀ a s', Q a s' → Meets (f a) s' T R) :
    Meets (p >>= f) s T R := by
  rcases hp.ends with ⟨a, s', hrun, ha⟩ | ⟨s', hrun, hs'⟩
  · rw [Meets, Step.bind_apply, hrun]
    exact hf a s' ha
  · exact (malformed_iff (by rw [Step.bind_apply, hrun])).2 hs'

theorem map {g : α → β} (hp : Meets p s (fun a => T (g a)) R) : Meets (g <$> p) s T R := by
  rcases hp.ends with ⟨a, s', hrun, ha⟩ | ⟨s', hrun, hs'⟩
  · exact (ok_iff (by rw [Step.map_apply, hrun])).2 ha
  · exact (malformed_iff (by rw [Step.map_apply, hrun])).2 hs'

/-- What breaks from a state on, breaks from each state before. -/
theorem after (h : Ahead s s') (hp : Meets p s' Q (Broken s')) : Meets p s' Q (Broken s) :=
  hp.mono (fun _ _ hQ => hQ) fun _ hR => h.broken hR

/-! ### Parsers that look at one token -/

variable {t : Token} {ts : List Token}

theorem bind_peek {f : Token → Parser β} (hrest : s.rest = t :: ts) (hf : Meets (f t) s T R) :
    Meets (Parse.peek >>= f) s T R := by
  obtain ⟨rest, errors, depth⟩ := s
  cases hrest
  exact hf

theorem bind_advance {f : Unit → Parser β} (hrest : s.rest = t :: ts)
    (hf : Meets (f ()) { s with rest := ts } T R) : Meets (Parse.advance >>= f) s T R := by
  obtain ⟨rest, errors, depth⟩ := s
  cases hrest
  exact hf

theorem note {cause : SyntaxCause} (hs : Terminated s.rest) :
    Meets (Parse.note t cause) s (fun _ s' => Passes s [] [⟨t, cause⟩] s') R :=
  ⟨rfl, rfl, rfl, hs⟩

theorem fail {cause : SyntaxCause} (hs : Terminated s.rest) (hcause : IsFatal cause) :
    Meets (Parse.fail t cause) s Q (Broken s) := by
  refine ⟨⟨List.suffix_rfl, List.prefix_append _ _, rfl, hs⟩, ⟨t, cause⟩, ?_, hcause⟩
  exact List.mem_append_right _ List.mem_cons_self

theorem acceptWhen {right : Kind → Bool} (hs : Terminated s.rest) (hright : right .eof = false) :
    Meets (Parse.acceptWhen right) s
      (fun found s' => match found with
        | some t => right t.kind = true ∧ Passes s [t] [] s'
        | none => s' = s ∧ Begins (fun k => right k = false) s.rest) R := by
  obtain ⟨t, ts, hrest, -⟩ := hs.begins
  refine bind_peek hrest ?_
  split
  next h =>
    have ht : t.kind ≠ .eof := by
      intro heq
      rw [heq, hright] at h
      cases h
    exact bind_advance hrest (pure ⟨h, .token hs hrest ht⟩)
  next h => exact pure ⟨rfl, hrest ▸ .cons (Bool.eq_false_iff.2 h) ts⟩

theorem accept {k : Kind} (hs : Terminated s.rest) (hk : k ≠ .eof) :
    Meets (Parse.accept k) s
      (fun found s' => match found with
        | some t => t.kind = k ∧ Passes s [t] [] s'
        | none => s' = s ∧ Begins (· ≠ k) s.rest) R := by
  rw [Parse.accept]
  refine (acceptWhen hs ?_).mono ?_ fun _ hR => hR
  · exact beq_eq_false_iff_ne.2 hk.symm
  rintro (_ | t) s' ⟨h, hrest⟩
  · exact ⟨h, hrest.mono fun _ hk => beq_eq_false_iff_ne.1 hk⟩
  · exact ⟨beq_iff_eq.1 h, hrest⟩

theorem expect {e : Expectation} (hs : Terminated s.rest) :
    Meets (Parse.expect e) s (fun t s' => t.kind = e.kind ∧ Passes s [t] [] s') (Broken s) := by
  obtain ⟨t, ts, hrest, -⟩ := hs.begins
  refine bind_peek hrest ?_
  split
  next h =>
    have hk : t.kind = e.kind := beq_iff_eq.1 h
    have ht : t.kind ≠ .eof := by
      rw [hk]
      cases e <;> decide
    exact bind_advance hrest (pure ⟨hk, .token hs hrest ht⟩)
  next => exact fail hs trivial

/-- The token that is asked for is of the right kind, or there is an error. -/
theorem bind_expect {e : Expectation} {f : Token → Parser β} (h : Ahead s s')
    (hf : ∀ (m : Mark e.kind) s'', Passes s' [m.token] [] s'' →
      Meets (f m.token) s'' T (Broken s)) :
    Meets (Parse.expect e >>= f) s' T (Broken s) := by
  refine bind (after h (expect h.terminated)) ?_
  rintro t s'' ⟨hk, ht⟩
  exact hf ⟨t, List.mem_singleton.2 hk⟩ s'' ht

theorem limit {count : Nat} {cause : SyntaxCause} (hs : Terminated s.rest) :
    Meets (Parse.limit count cause) s (fun _ s' => Passes s [] (overlong cause count s.rest) s')
      R := by
  by_cases h : count < 255
  · have hle : ¬ Parse.maxArguments ≤ count := Nat.not_le.2 h
    rw [Parse.limit, if_neg hle, overlong, if_pos h]
    exact pure (.refl hs)
  · have hle : Parse.maxArguments ≤ count := Nat.not_lt.1 h
    obtain ⟨t, ts, hrest, -⟩ := hs.begins
    rw [Parse.limit, if_pos hle, overlong, if_neg h, hrest]
    exact bind_peek hrest (note hs)

theorem check {k : Kind} {f : Bool → Parser β} (hs : Terminated s.rest)
    (hyes : Begins (· = k) s.rest → Meets (f true) s T R)
    (hno : Begins (· ≠ k) s.rest → Meets (f false) s T R) :
    Meets (Parse.check k >>= f) s T R := by
  obtain ⟨t, ts, hrest, -⟩ := hs.begins
  have hcheck : Meets (Parse.check k) s (fun found s' => s' = s ∧ found = (t.kind == k)) R :=
    bind_peek hrest (pure ⟨rfl, rfl⟩)
  refine bind hcheck ?_
  rintro found s' ⟨rfl, rfl⟩
  by_cases h : t.kind = k
  · rw [beq_iff_eq.2 h]
    exact hyes (hrest ▸ .cons h ts)
  · rw [beq_eq_false_iff_ne.2 h]
    exact hno (hrest ▸ .cons h ts)

theorem unlessNext {k : Kind} {T : Option α → State → Prop} (hs : Terminated s.rest)
    (hnone : Begins (· = k) s.rest → T none s)
    (hp : Begins (· ≠ k) s.rest → Meets p s (fun a => T (some a)) R) :
    Meets (Parse.unlessNext k p) s T R :=
  check hs (fun h => pure (hnone h)) fun h => map (hp h)

theorem listBeforeParen {p : Parser (List α)} {T : List α → State → Prop}
    (hs : Terminated s.rest) (hnil : Begins (· = .rightParen) s.rest → T [] s)
    (hp : Begins (· ≠ .rightParen) s.rest → Meets p s T R) :
    Meets (Parse.listBeforeParen p) s T R :=
  check hs (fun h => pure (hnil h)) hp

theorem afterOptional {k : Kind} {T : Option α → State → Prop} (hs : Terminated s.rest)
    (hk : k ≠ .eof) (hnone : Begins (· ≠ k) s.rest → T none s)
    (hp : ∀ t s', t.kind = k → Passes s [t] [] s' → Meets p s' (fun a => T (some a)) R) :
    Meets (Parse.afterOptional k p) s T R := by
  refine bind (accept hs hk) ?_
  rintro (_ | t) s' h
  · obtain ⟨rfl, hne⟩ := h
    exact pure (hnone hne)
  · exact map (hp t s' h.1 h.2)

theorem inFunction (h : Meets p { s with depth := s.depth + 1 }
      (fun a s' => Q a { s' with depth := s'.depth - 1 })
      (fun s' => R { s' with depth := s'.depth - 1 })) :
    Meets (Parse.inFunction p) s Q R := by
  rcases h.ends with ⟨a, s', hrun, ha⟩ | ⟨s', hrun, hs'⟩
  · exact (ok_iff (by rw [Parse.inFunction, hrun])).2 ha
  · exact (malformed_iff (by rw [Parse.inFunction, hrun])).2 hs'

theorem recovering {T : Option α → State → Prop} (hp : Meets p s (fun a => T (some a)) R')
    (hR : ∀ s', R' s' → T none { s' with rest := Parse.resynchronize s'.rest }) :
    Meets (Parse.recovering p) s T R := by
  rcases hp.ends with ⟨a, s', hrun, ha⟩ | ⟨s', hrun, hs'⟩
  · exact (ok_iff (by rw [Parse.recovering, hrun])).2 ha
  · exact (ok_iff (by rw [Parse.recovering, hrun])).2 (hR s' hs')

end Meets

end Grammar

end Lox
