import LoxInterpreter.Proofs.Grammar.Blame
import LoxInterpreter.Proofs.Grammar.SettingsPrograms

/-!
Recovery from errors. A simple statement stands between two semicolons, so that what is wrong with
it is told from what follows by where the parser goes on: behind the semicolon, or before a token
that begins a statement.
-/

namespace Lox

namespace Grammar

open Parse (Parser State Setting Agree)

variable {α β : Type}

/-! ### Skipping -/

/-- A token that neither begins nor ends a statement. -/
def IsPlain (t : Token) : Prop :=
  t.kind ∉ [.leftBrace, .rightBrace, .semicolon, .eof] ∧ Parse.startsStatement t.kind = false

instance : DecidablePred IsPlain := fun _ => inferInstanceAs (Decidable (_ ∧ _))

namespace IsPlain

variable {t : Token}

theorem ne_semicolon (h : IsPlain t) : t.kind ≠ .semicolon := fun hk => h.1 (by simp [hk])

theorem ne_eof (h : IsPlain t) : t.kind ≠ .eof := fun hk => h.1 (by simp [hk])

end IsPlain

variable {g last : Token} {ts us : List Token}

/-- Plain tokens are skipped. -/
theorem skipFrom_append (us : List Token) (hts : ∀ t ∈ ts, IsPlain t)
    (hlast : last.kind ≠ .semicolon) :
    ∃ last' : Token, last'.kind ≠ .semicolon ∧
      Parse.skipFrom last (ts ++ us) = Parse.skipFrom last' us := by
  induction ts generalizing last with
  | nil => exact ⟨last, hlast, rfl⟩
  | cons t ts ih =>
    have ht := hts t List.mem_cons_self
    obtain ⟨last', hlast', heq⟩ :=
      ih (fun u hu => hts u (List.mem_cons_of_mem t hu)) ht.ne_semicolon
    refine ⟨last', hlast', ?_⟩
    rw [List.cons_append, Parse.skipFrom, if_neg (by simp [ht.ne_eof, hlast, ht.2]), heq]

theorem skipFrom_of_semicolon (h : last.kind = .semicolon) : Parse.skipFrom last us = us := by
  cases us with
  | nil => rfl
  | cons t us => rw [Parse.skipFrom, if_pos (by simp [h])]

/-- The semicolon behind plain tokens is the last token that is skipped. -/
theorem resynchronize_semicolon (hts : ∀ t ∈ ts, IsPlain t) (hg : g.kind = .semicolon) :
    Parse.resynchronize (ts ++ g :: us) = us := by
  cases ts with
  | nil =>
    rw [List.nil_append, Parse.resynchronize, if_neg (by simp [hg]), skipFrom_of_semicolon hg]
  | cons t ts =>
    have ht := hts t List.mem_cons_self
    obtain ⟨last, hlast, heq⟩ := skipFrom_append (g :: us)
      (fun u hu => hts u (List.mem_cons_of_mem t hu)) ht.ne_semicolon
    rw [List.cons_append, Parse.resynchronize, if_neg ht.ne_eof, heq, Parse.skipFrom,
      if_neg (by simp [hg, hlast, Parse.startsStatement]), skipFrom_of_semicolon hg]

/-- Behind at least one plain token, a token that begins a statement is not skipped. -/
theorem resynchronize_startsStatement (hts : ∀ t ∈ ts, IsPlain t) (hne : ts ≠ [])
    (hg : Parse.startsStatement g.kind = true) :
    Parse.resynchronize (ts ++ g :: us) = g :: us := by
  cases ts with
  | nil => exact absurd rfl hne
  | cons t ts =>
    have ht := hts t List.mem_cons_self
    obtain ⟨last, hlast, heq⟩ := skipFrom_append (g :: us)
      (fun u hu => hts u (List.mem_cons_of_mem t hu)) ht.ne_semicolon
    rw [List.cons_append, Parse.resynchronize, if_neg ht.ne_eof, heq, Parse.skipFrom,
      if_pos (by simp [hg])]

/-! ### Programs, one declaration after the other -/

theorem Terminated.prepend (h : Terminated us) (hts : ∀ t ∈ ts, t.kind ≠ .eof) :
    Terminated (ts ++ us) := by
  induction ts with
  | nil => exact h
  | cons t ts ih =>
    have ht : t.kind ≠ .eof := hts t List.mem_cons_self
    exact .cons ht (ih fun u hu => hts u (List.mem_cons_of_mem t hu))

theorem Begins.of_prepend (hts : ∀ t ∈ ts, t.kind ≠ .eof) (hne : ts ≠ []) (us : List Token) :
    Begins (· ≠ .eof) (ts ++ us) := by
  cases ts with
  | nil => exact absurd rfl hne
  | cons t ts => exact .cons (hts t List.mem_cons_self) _

/-- A program is its first declaration and the program behind it, even if that declaration is
malformed. -/
theorem parse_step {tokens : List Token} (h : Terminated tokens)
    (hbegins : Begins (· ≠ .eof) tokens) {fuel : Nat} (hfuel : Parse.fuelFor tokens = fuel + 1) :
    ∃ first rest errors, Parse.declaration fuel ⟨tokens, [], 0⟩ = .ok first ⟨rest, errors, 0⟩ ∧
      Terminated rest ∧ parse tokens =
        ⟨first.toList ++ (parse rest).statements, errors ++ (parse rest).errors⟩ := by
  have henough : Parse.fuelFor tokens = 32 * (tokens.length + 1) := rfl
  have hmeets := (recognizesPrograms fuel).declaration (s := ⟨tokens, [], 0⟩) h hbegins
    (by simp only; omega)
  obtain ⟨first, ⟨rest, errors, depth⟩, hrun, hlt, hahead, -⟩ :=
    hmeets.ends.resolve_right fun ⟨_, _, hfalse⟩ => hfalse
  obtain rfl : depth = 0 := hahead.depth
  refine ⟨first, rest, errors, hrun, hahead.terminated, ?_⟩
  obtain ⟨body, stop, -, hrest⟩ := hahead.terminated.exists_body
  have hrest : rest = body ++ [stop] := hrest
  subst hrest
  have hmore : Parse.fuelFor (body ++ [stop]) ≤ fuel := by
    have hlt : (body ++ [stop]).length < tokens.length := hlt
    rw [Parse.fuelFor]
    omega
  have hafter := declarations_after hahead.terminated errors hmore
  obtain ⟨t, ts, rfl, ht⟩ := hbegins
  have hdeclarations : Parse.declarations (fuel + 1) false ⟨t :: ts, [], 0⟩ =
      .ok (first.toList ++ (parse (body ++ [stop])).statements)
        ⟨[stop], errors ++ (parse (body ++ [stop])).errors, 0⟩ := by
    rw [Parse.declarations, Step.bind_of_ok (Parse.peek_cons t ts [] 0),
      if_neg (by simp [ht]), Step.bind_of_ok hrun]
    cases first with
    | none => exact hafter
    | some s => exact (Step.bind_of_ok hafter _).trans rfl
  rw [parse, hfuel, hdeclarations]

theorem parse_stop {stop : Token} (h : stop.kind = .eof) : parse [stop] = ⟨[], []⟩ := by
  have hpeek : Parse.declarations 64 false ⟨[stop], [], 0⟩ = .ok [] ⟨[stop], [], 0⟩ := by
    rw [Parse.declarations, Step.bind_of_ok (Parse.peek_cons stop [] [] 0), if_pos (by simp [h])]
    rfl
  have hfuel : Parse.fuelFor [stop] = 64 := rfl
  rw [parse, hfuel, hpeek]

/-! ### Simple statements -/

/-- The parser of a simple statement behind its keyword, if it begins with one. -/
def simpleStatement (fuel : Nat) : Option Token → Parser Stmt
  | none => Parse.expressionStatement fuel
  | some t =>
    match t.kind with
    | .keyword .varWord => Parse.varDeclaration (fuel + 1)
    | .keyword .printWord => Parse.printStatement fuel
    | _ => Parse.returnStatement fuel t

def simpleKeywords : List Kind := [.keyword .printWord, .keyword .varWord, .keyword .returnWord]

theorem recovering_congr {p q : Parser α} {s s' : State} (h : p s = q s') :
    Parse.recovering p s = Parse.recovering q s' := by
  rw [Parse.recovering, Parse.recovering, h]

/-- Behind its keyword, a simple statement is read by its own parser. -/
theorem declaration_keyword {t : Token} (ht : t.kind ∈ simpleKeywords) (fuel : Nat)
    (errors : List SyntaxError) (depth : Nat) :
    Parse.declaration (fuel + 2) ⟨t :: ts, errors, depth⟩ =
      Parse.recovering (simpleStatement fuel (some t)) ⟨ts, errors, depth⟩ := by
  rw [Parse.declaration]
  apply recovering_congr
  rw [Step.bind_of_ok (Parse.peek_cons t ts errors depth), simpleStatement]
  simp only [simpleKeywords, List.mem_cons, List.not_mem_nil, or_false] at ht
  rcases ht with hk | hk | hk
  · rw [hk]
    simp only [Parse.statement]
    rw [Step.bind_of_ok (Parse.peek_cons t ts errors depth), hk]
    rfl
  · rw [hk]
    rfl
  · rw [hk]
    simp only [Parse.statement]
    rw [Step.bind_of_ok (Parse.peek_cons t ts errors depth), hk]
    rfl

/-- What begins with no keyword of a statement and with no brace is read as an expression. -/
theorem declaration_plain {t : Token} (ht : t.kind = .semicolon ∨ IsPlain t) (fuel : Nat)
    (errors : List SyntaxError) (depth : Nat) :
    Parse.declaration (fuel + 2) ⟨t :: ts, errors, depth⟩ =
      Parse.recovering (Parse.expressionStatement fuel) ⟨t :: ts, errors, depth⟩ := by
  have hne : ∀ k : Kind, k = .leftBrace ∨ Parse.startsStatement k = true → t.kind ≠ k := by
    rintro k hk rfl
    rcases ht with hs | ⟨hnot, hstarts⟩
    · rw [hs] at hk
      revert hk
      decide
    · rcases hk with hk | hk
      · exact hnot (by simp [hk])
      · rw [hk] at hstarts
        cases hstarts
  rw [Parse.declaration]
  apply recovering_congr
  rw [Step.bind_of_ok (Parse.peek_cons t ts errors depth)]
  simp only [Parse.statement]
  cases hk : t.kind with
  | leftBrace => exact absurd hk (hne _ (by decide))
  | keyword k =>
    cases k with
    | varWord | funWord | classWord | forWord | ifWord | whileWord | printWord | returnWord =>
      exact absurd hk (hne _ (by decide))
    | _ =>
      dsimp only
      rw [Step.bind_of_ok (Parse.peek_cons t ts errors depth), hk]
  | _ =>
    dsimp only
    rw [Step.bind_of_ok (Parse.peek_cons t ts errors depth), hk]

theorem expect_of_eq {t : Token} {x : Expectation} (h : t.kind = x.kind) (ts : List Token)
    (errors : List SyntaxError) (depth : Nat) :
    Parse.expect x ⟨t :: ts, errors, depth⟩ = .ok t ⟨ts, errors, depth⟩ := by
  rw [Parse.expect, Step.bind_of_ok (Parse.peek_cons t ts errors depth), if_pos (beq_iff_eq.2 h)]
  rfl

theorem expect_of_ne {t : Token} {x : Expectation} (h : t.kind ≠ x.kind) (ts : List Token)
    (errors : List SyntaxError) (depth : Nat) :
    Parse.expect x ⟨t :: ts, errors, depth⟩ =
      .error .malformed ⟨t :: ts, errors ++ [⟨t, .expected x⟩], depth⟩ := by
  rw [Parse.expect, Step.bind_of_ok (Parse.peek_cons t ts errors depth),
    if_neg (by rw [beq_iff_eq]; exact h)]
  rfl

/-- What `p` does up to the token `g` and with it in the setting `e`, `q` does in the setting `e'`,
unless the parser in the first setting runs out of fuel. -/
inductive Finishes (g : Token) (e e' : Setting) (p q : Parser α) (s : State) : Prop
  | stopped {stop : Parse.Stop} {s' : State} (hstop : stop ≠ .malformed)
      (hp : p (e.place g s) = .error stop s')
  | ok {a : α} {errors : List SyntaxError} {depth : Nat}
      (hp : p (e.place g s) = .ok a ⟨e.behind, e.before ++ errors, depth⟩)
      (hq : q (e'.place g s) = .ok a ⟨e'.behind, e'.before ++ errors, depth⟩)
  | malformed {r : State} (hrest : r.rest <:+ s.rest)
      (hp : p (e.place g s) = .error .malformed (e.place g r))
      (hq : q (e'.place g s) = .error .malformed (e'.place g r))

namespace Finishes

variable {e e' : Setting} {p q : Parser α} {s : State} {fuel fuel' : Nat}

theorem bind {f f' : α → Parser β} (hp : Agree g e e' p q s)
    (hf : ∀ a s', s'.rest <:+ s.rest → Finishes g e e' (f a) (f' a) s') :
    Finishes g e e' (p >>= f) (q >>= f') s := by
  cases hp with
  | exhausted h => exact .stopped (by simp) (Step.bind_of_error h f)
  | error hrest h h' =>
    rename_i stop s'
    cases stop with
    | malformed => exact .malformed hrest (Step.bind_of_error h f) (Step.bind_of_error h' f')
    | noToken => exact .stopped (by simp) (Step.bind_of_error h f)
    | exhausted => exact .stopped (by simp) (Step.bind_of_error h f)
  | ok hrest h h' =>
    have hbind := Step.bind_of_ok h f
    have hbind' := Step.bind_of_ok h' f'
    cases hf _ _ hrest with
    | stopped hstop hf => exact .stopped hstop (hbind.trans hf)
    | ok hf hf' => exact .ok (hbind.trans hf) (hbind'.trans hf')
    | malformed hrest' hf hf' =>
      exact .malformed (hrest'.trans hrest) (hbind.trans hf) (hbind'.trans hf')

/-- The token `g` is asked for last. -/
theorem expect {x : Expectation} (hg : g.kind = x.kind) (hs : ∀ t ∈ s.rest, t.kind ≠ x.kind)
    {b : β} : Finishes g e e' (Parse.expect x >>= fun _ => pure b)
      (Parse.expect x >>= fun _ => pure b) s := by
  obtain ⟨rest, errors, depth⟩ := s
  cases rest with
  | nil =>
    have htake : ∀ e : Setting,
        (Parse.expect x >>= fun _ => pure b) (e.place g ⟨[], errors, depth⟩) =
          .ok b ⟨e.behind, e.before ++ errors, depth⟩ := fun e =>
      Step.bind_of_ok (expect_of_eq hg e.behind _ depth) _
    exact .ok (htake e) (htake e')
  | cons t ts =>
    have hfail : ∀ e : Setting,
        (Parse.expect x >>= fun _ => pure b) (e.place g ⟨t :: ts, errors, depth⟩) =
          .error .malformed (e.place g ⟨t :: ts, errors ++ [⟨t, .expected x⟩], depth⟩) := by
      intro e
      have hx := expect_of_ne (hs t List.mem_cons_self) (ts ++ g :: e.behind)
        (e.before ++ errors) depth
      rw [List.append_assoc] at hx
      exact Step.bind_of_error hx _
    exact .malformed (r := ⟨t :: ts, errors ++ [⟨t, .expected x⟩], depth⟩) List.suffix_rfl
      (hfail e) (hfail e')

/-- Before a semicolon, the parsers of simple statements agree. -/
theorem simpleStatement {first : Option Token} (hfirst : ∀ t ∈ first, t.kind ∈ simpleKeywords)
    (hg : g.kind = .semicolon) (hs : ∀ t ∈ s.rest, t.kind ≠ .semicolon) (h : fuel ≤ fuel') :
    Finishes g e e' (simpleStatement fuel first) (simpleStatement fuel' first) s := by
  have hnot : g.kind ∉ Parse.expressionKinds := by
    rw [hg]
    decide
  have hends : ∀ {x : Expectation} {s' : State} {b : Stmt}, x.kind = .semicolon →
      s'.rest <:+ s.rest → Finishes g e e' (Parse.expect x >>= fun _ => pure b)
        (Parse.expect x >>= fun _ => pure b) s' := fun hx hrest =>
    expect (hg.trans hx.symm) (hx ▸ fun t ht => hs t (hrest.subset ht))
  cases first with
  | none => exact bind (.expression hnot h s) fun value _ hrest => hends rfl hrest
  | some t =>
    have ht := hfirst t rfl
    simp only [simpleKeywords, List.mem_cons, List.not_mem_nil, or_false] at ht
    rcases ht with hk | hk | hk
    · simp only [Grammar.simpleStatement, hk]
      exact bind (.expression hnot h s) fun value _ hrest => hends rfl hrest
    · simp only [Grammar.simpleStatement, hk]
      refine bind (.expect (by simp [hg, Expectation.kind])) fun name _ hname => ?_
      refine bind (.afterOptional (by simp [hg]) (.expression hnot (Nat.succ_le_succ h)))
        fun initializer _ hrest => ?_
      exact hends rfl (hrest.trans hname)
    · simp only [Grammar.simpleStatement, hk]
      refine bind (.rejectTopLevel t) fun _ _ hreject => ?_
      refine bind (.unlessNext _ (.expression hnot h)) fun value _ hrest => ?_
      exact hends rfl (hrest.trans hreject)

/-- Whether it is well formed or not, the parser goes on behind `g`. -/
theorem recovering (h : Finishes g e e' p q s) (hs : ∀ t ∈ s.rest, IsPlain t)
    (hg : g.kind = .semicolon) :
    (∃ stop s', Parse.recovering p (e.place g s) = .error stop s') ∨
    ∃ a errors depth,
      Parse.recovering p (e.place g s) = .ok a ⟨e.behind, e.before ++ errors, depth⟩ ∧
      Parse.recovering q (e'.place g s) = .ok a ⟨e'.behind, e'.before ++ errors, depth⟩ := by
  cases h with
  | stopped hstop hp =>
    rename_i stop s'
    refine Or.inl ⟨stop, s', ?_⟩
    rw [Parse.recovering, hp]
    cases stop with
    | malformed => exact absurd rfl hstop
    | noToken => rfl
    | exhausted => rfl
  | ok hp hq =>
    rename_i a errors depth
    refine Or.inr ⟨some a, errors, depth, ?_, ?_⟩
    · rw [Parse.recovering, hp]
    · rw [Parse.recovering, hq]
  | malformed hrest hp hq =>
    rename_i s'
    have hskip : ∀ e : Setting, Parse.resynchronize (e.place g s').rest = e.behind := fun e =>
      resynchronize_semicolon (fun t ht => hs t (hrest.subset ht)) hg
    refine Or.inr ⟨none, s'.errors, s'.depth, ?_, ?_⟩
    · rw [Parse.recovering, hp]
      dsimp only
      rw [hskip]
      rfl
    · rw [Parse.recovering, hq]
      dsimp only
      rw [hskip]
      rfl

end Finishes

/-- The first declaration of a program that begins with a simple statement ends at its semicolon,
and what stands behind it makes no difference. -/
theorem declaration_semicolon {first : Option Token} {xs : List Token} (e e' : Setting)
    (hfirst : ∀ t ∈ first, t.kind ∈ simpleKeywords) (hxs : ∀ t ∈ xs, IsPlain t)
    (hg : g.kind = .semicolon) {fuel fuel' : Nat} (h : fuel ≤ fuel') :
    (∃ stop s', Parse.declaration (fuel + 2) (e.place g ⟨first.toList ++ xs, [], 0⟩) =
      .error stop s') ∨
    ∃ a errors depth,
      Parse.declaration (fuel + 2) (e.place g ⟨first.toList ++ xs, [], 0⟩) =
        .ok a ⟨e.behind, e.before ++ errors, depth⟩ ∧
      Parse.declaration (fuel' + 2) (e'.place g ⟨first.toList ++ xs, [], 0⟩) =
        .ok a ⟨e'.behind, e'.before ++ errors, depth⟩ := by
  have hfinishes : Finishes g e e' (simpleStatement fuel first) (simpleStatement fuel' first)
      ⟨xs, [], 0⟩ :=
    .simpleStatement hfirst hg (fun t ht => (hxs t ht).ne_semicolon) h
  have hdeclaration : ∀ (e : Setting) (fuel : Nat),
      Parse.declaration (fuel + 2) (e.place g ⟨first.toList ++ xs, [], 0⟩) =
        Parse.recovering (simpleStatement fuel first) (e.place g ⟨xs, [], 0⟩) := by
    intro e fuel
    cases first with
    | some t => exact declaration_keyword (hfirst t rfl) fuel _ 0
    | none =>
      cases xs with
      | nil => exact declaration_plain (Or.inl hg) fuel _ 0
      | cons t xs => exact declaration_plain (Or.inr (hxs t List.mem_cons_self)) fuel _ 0
  rw [hdeclaration e, hdeclaration e']
  exact hfinishes.recovering hxs hg

/-! ### Statements without a semicolon -/

theorem notMem_expressionKinds (hg : Parse.startsStatement g.kind = true) :
    g.kind ∉ Parse.expressionKinds := by
  have hnone : ∀ k ∈ Parse.expressionKinds, Parse.startsStatement k = false := by decide
  intro hmem
  rw [hnone _ hmem] at hg
  cases hg

/-- Plain tokens without a semicolon behind them are no statement. The one error that the parser
gives up with is at the first token that it did not take. -/
theorem expressionStatement_unended {x z : List Token} (hx : ∀ t ∈ x, IsPlain t)
    (hg : Parse.startsStatement g.kind = true) (fuel : Nat) :
    (∃ stop s', stop ≠ .malformed ∧
      Parse.expressionStatement fuel ⟨x ++ g :: z, [], 0⟩ = .error stop s') ∨
    ∃ ys s', ys <:+ x ∧ s'.rest = ys ++ g :: z ∧
      Parse.expressionStatement fuel ⟨x ++ g :: z, [], 0⟩ = .error .malformed s' ∧
      BlamedNext ⟨x ++ g :: z, [], 0⟩ s' := by
  have hblames : BlamesNext (Parse.expressionStatement fuel) ⟨x ++ g :: z, [], 0⟩ :=
    .bind ((expressionsBlameNext fuel).expression _) fun _ _ => .bind .expect fun _ _ => .pure
  -- A semicolon stands neither in `x` nor right behind it.
  have hne : ∀ ys, ys <:+ x → ∃ t ts, ys ++ g :: z = t :: ts ∧ t.kind ≠ .semicolon := by
    intro ys hys
    cases ys with
    | nil =>
      refine ⟨g, z, rfl, fun hk => ?_⟩
      rw [hk] at hg
      cases hg
    | cons t ys => exact ⟨t, _, rfl, (hx t (hys.subset List.mem_cons_self)).ne_semicolon⟩
  have hagree : Agree g ⟨[], z⟩ ⟨[], z⟩ (Parse.expression fuel) (Parse.expression fuel)
      ⟨x, [], 0⟩ := .expression (notMem_expressionKinds hg) (Nat.le_refl fuel) _
  cases hagree with
  | exhausted hp => exact Or.inl ⟨.exhausted, _, by simp, Step.bind_of_error hp _⟩
  | error hrest hp hq =>
    rename_i stop s'
    have hrun : Parse.expressionStatement fuel ⟨x ++ g :: z, [], 0⟩ = .error stop _ :=
      Step.bind_of_error hp _
    cases stop with
    | malformed => exact Or.inr ⟨s'.rest, _, hrest, rfl, hrun, hblames.blamedNext hrun⟩
    | noToken => exact Or.inl ⟨.noToken, _, by simp, hrun⟩
    | exhausted => exact Or.inl ⟨.exhausted, _, by simp, hrun⟩
  | ok hrest hp hq =>
    rename_i value s'
    obtain ⟨t, ts, hts, ht⟩ := hne s'.rest hrest
    have hexpect := expect_of_ne (x := .expressionEnd) ht ts ([] ++ s'.errors) s'.depth
    rw [← hts] at hexpect
    have hrun : Parse.expressionStatement fuel ⟨x ++ g :: z, [], 0⟩ = .error .malformed _ :=
      (Step.bind_of_ok hp _).trans (Step.bind_of_error hexpect _)
    exact Or.inr ⟨s'.rest, _, hrest, rfl, hrun, hblames.blamedNext hrun⟩

end Grammar

open Grammar

/-- Errors in a simple statement stay in it. Whatever stands between its keyword, if it has one,
and its semicolon, the parser goes on behind the semicolon as if the program began there: it gives
the statements and the errors of both parts, one after the other. -/
theorem parse_simple_append {first : Option Token} {xs b : List Token} {semicolon stop : Token}
    (hfirst : ∀ t ∈ first, t.kind ∈ simpleKeywords) (hxs : ∀ t ∈ xs, IsPlain t)
    (hsemicolon : semicolon.kind = .semicolon) (hstop : stop.kind = .eof) (hb : Terminated b) :
    parse (first.toList ++ xs ++ semicolon :: b) =
      ⟨(parse (first.toList ++ xs ++ [semicolon, stop])).statements ++ (parse b).statements,
        (parse (first.toList ++ xs ++ [semicolon, stop])).errors ++ (parse b).errors⟩ := by
  have hx : ∀ t ∈ first.toList ++ xs ++ [semicolon], t.kind ≠ .eof := by
    intro t ht hk
    simp only [List.mem_append, Option.mem_toList, List.mem_singleton] at ht
    rcases ht with (ht | ht) | rfl
    · have hmem := hfirst t ht
      rw [hk] at hmem
      exact absurd hmem (by decide)
    · exact (hxs t ht).ne_eof hk
    · rw [hsemicolon] at hk
      cases hk
  let fuel (rest : List Token) : Nat := 32 * ((first.toList ++ xs).length + rest.length + 1) + 29
  -- In front of any rest, the statement is the first declaration.
  have hstep : ∀ rest, Terminated rest → ∃ a rest' errors,
      Parse.declaration (fuel rest + 2) ⟨first.toList ++ xs ++ semicolon :: rest, [], 0⟩ =
        .ok a ⟨rest', errors, 0⟩ ∧
      parse (first.toList ++ xs ++ semicolon :: rest) =
        ⟨a.toList ++ (parse rest').statements, errors ++ (parse rest').errors⟩ := by
    intro rest hrest
    have hterminated := hrest.prepend hx
    have hbegins := Begins.of_prepend hx (by simp) rest
    have hfuel : Parse.fuelFor (first.toList ++ xs ++ [semicolon] ++ rest) = fuel rest + 2 + 1 := by
      simp only [Parse.fuelFor, fuel, List.length_append, List.length_singleton]
      omega
    obtain ⟨a, rest', errors, hrun, -, hparse⟩ := parse_step hterminated hbegins hfuel
    rw [List.append_cons]
    exact ⟨a, rest', errors, hrun, hparse⟩
  obtain ⟨a, rest, errors, hrun, hparse⟩ := hstep [stop] (.stop hstop)
  obtain ⟨a', rest', errors', hrun', hparse'⟩ := hstep b hb
  have hle : fuel [stop] ≤ fuel b := by
    have hpos := hb.length_pos
    simp only [fuel, List.length_singleton]
    omega
  rcases declaration_semicolon ⟨[], [stop]⟩ ⟨[], b⟩ hfirst hxs hsemicolon hle with
    ⟨_, _, hstopped⟩ | ⟨_, _, _, hsame, hsame'⟩
  · cases hrun.symm.trans hstopped
  · cases hrun.symm.trans hsame
    cases hrun'.symm.trans hsame'
    rw [hparse, hparse', parse_stop hstop]
    simp

/-- In `print nil);a;` the parenthesis is an error, and what stands behind the semicolon is kept. -/
theorem parse_simple_append_print :
    let keyword : Token := ⟨.keyword .printWord, "print", .nil, 1, some 0⟩
    let word : Token := ⟨.keyword .nilWord, "nil", .nil, 1, some 6⟩
    let closing : Token := ⟨.rightParen, ")", .nil, 1, some 9⟩
    let semicolon : Token := ⟨.semicolon, ";", .nil, 1, some 10⟩
    let name : Token := ⟨.identifier, "a", .nil, 1, some 11⟩
    let last : Token := ⟨.semicolon, ";", .nil, 1, some 12⟩
    let stop : Token := ⟨.eof, "", .nil, 1, some 13⟩
    (∀ t ∈ some keyword, t.kind ∈ simpleKeywords) ∧ (∀ t ∈ [word, closing], IsPlain t) ∧
      semicolon.kind = .semicolon ∧ stop.kind = .eof ∧ Terminated [name, last, stop] ∧
      parse ([keyword, word, closing] ++ semicolon :: [name, last, stop]) =
        ⟨[.expression (.variable name)], [⟨closing, .expected .printedValueEnd⟩]⟩ := by
  intro keyword word closing semicolon name last stop
  have hfirst : ∀ t ∈ some keyword, t.kind ∈ simpleKeywords := by simp [keyword, simpleKeywords]
  have hxs : ∀ t ∈ [word, closing], IsPlain t := by decide
  have hsemicolon : semicolon.kind = .semicolon := rfl
  have hstop : stop.kind = .eof := rfl
  have hbody : ∀ t ∈ [name, last], t.kind ≠ .eof := by decide
  have hb : Terminated [name, last, stop] := Terminated.append hbody hstop
  have happend := parse_simple_append hfirst hxs hsemicolon hstop hb
  exact ⟨hfirst, hxs, hsemicolon, hstop, hb, happend.trans rfl⟩

/-- Plain tokens in front of a statement, with no semicolon between them, are one error that the
parser gives up with, perhaps after others. If it is at one of these tokens, then the program
behind them is read as on its own, from its keyword on. If it is at the keyword, then the keyword
is skipped: what is read is what stands behind the next place where the parser can go on. -/
theorem parse_before_statement {x z : List Token} {keyword : Token} (hne : x ≠ [])
    (hx : ∀ t ∈ x, IsPlain t) (hkeyword : Parse.startsStatement keyword.kind = true)
    (hb : Terminated (keyword :: z)) :
    ∃ es e, (∀ f ∈ es, ¬ IsFatal f.cause) ∧ IsFatal e.cause ∧
      (e.token ∈ x ∧ parse (x ++ keyword :: z) = ⟨(parse (keyword :: z)).statements,
          es ++ e :: (parse (keyword :: z)).errors⟩ ∨
        e.token = keyword ∧ parse (x ++ keyword :: z) =
          ⟨(parse (Parse.resynchronize (keyword :: z))).statements,
            es ++ e :: (parse (Parse.resynchronize (keyword :: z))).errors⟩) := by
  have hxeof : ∀ t ∈ x, t.kind ≠ .eof := fun t ht => (hx t ht).ne_eof
  obtain ⟨fuel, hfuel⟩ : ∃ fuel, Parse.fuelFor (x ++ keyword :: z) = fuel + 2 + 1 :=
    ⟨32 * (x ++ keyword :: z).length + 29, by rw [Parse.fuelFor]; omega⟩
  obtain ⟨first, rest, errors, hrun, -, hparse⟩ :=
    parse_step (hb.prepend hxeof) (.of_prepend hxeof hne _) hfuel
  have hplain : Parse.declaration (fuel + 2) ⟨x ++ keyword :: z, [], 0⟩ =
      Parse.recovering (Parse.expressionStatement fuel) ⟨x ++ keyword :: z, [], 0⟩ := by
    cases x with
    | nil => exact absurd rfl hne
    | cons t x => exact declaration_plain (Or.inr (hx t List.mem_cons_self)) fuel [] 0
  rw [hplain, Parse.recovering] at hrun
  rcases expressionStatement_unended (z := z) hx hkeyword fuel with
    ⟨stop, s', hstop, hstopped⟩ | ⟨ys, s', hys, hrest, hmalformed, hblamed⟩
  · rw [hstopped] at hrun
    cases stop with
    | malformed => exact absurd rfl hstop
    | noToken => cases hrun
    | exhausted => cases hrun
  obtain ⟨es, e, herrors, hnoted, hfatal, hhead⟩ := hblamed
  rw [hmalformed] at hrun
  obtain ⟨rfl, hstate⟩ := EStateM.Result.ok.inj hrun
  obtain ⟨rfl, rfl, -⟩ := Parse.State.mk.inj hstate
  have herrors : s'.errors = es ++ [e] := herrors
  refine ⟨es, e, hnoted, hfatal, ?_⟩
  rw [hparse, herrors, hrest, List.append_assoc]
  rw [hrest] at hhead
  cases ys with
  | nil => exact Or.inr ⟨(Option.some.inj hhead).symm, rfl⟩
  | cons t ys =>
    refine Or.inl ⟨?_, ?_⟩
    · rw [← Option.some.inj hhead]
      exact hys.subset List.mem_cons_self
    · rw [resynchronize_startsStatement (fun u hu => hx u (hys.subset hu)) (by simp) hkeyword]
      rfl

/-- In `) print nil;` the parenthesis is the error, and the statement behind it is kept. -/
theorem parse_before_statement_stray :
    let closing : Token := ⟨.rightParen, ")", .nil, 1, some 0⟩
    let keyword : Token := ⟨.keyword .printWord, "print", .nil, 1, some 2⟩
    let word : Token := ⟨.keyword .nilWord, "nil", .nil, 1, some 8⟩
    let semicolon : Token := ⟨.semicolon, ";", .nil, 1, some 11⟩
    let stop : Token := ⟨.eof, "", .nil, 1, some 12⟩
    [closing] ≠ [] ∧ (∀ t ∈ [closing], IsPlain t) ∧
      Parse.startsStatement keyword.kind = true ∧ Terminated [keyword, word, semicolon, stop] ∧
      ∃ es e, e.token ∈ [closing] ∧ parse [closing, keyword, word, semicolon, stop] =
        ⟨[.print (.literal .nil)], es ++ [e]⟩ := by
  intro closing keyword word semicolon stop
  have hne : [closing] ≠ [] := by simp
  have hx : ∀ t ∈ [closing], IsPlain t := by decide
  have hbody : ∀ t ∈ [keyword, word, semicolon], t.kind ≠ .eof := by decide
  have hstop : stop.kind = .eof := rfl
  have hb : Terminated [keyword, word, semicolon, stop] := Terminated.append hbody hstop
  have hparse : parse [keyword, word, semicolon, stop] = ⟨[.print (.literal .nil)], []⟩ := rfl
  have hlost : parse (Parse.resynchronize [keyword, word, semicolon, stop]) = ⟨[], []⟩ := rfl
  obtain ⟨es, e, -, -, ⟨he, hkept⟩ | ⟨-, hskipped⟩⟩ := parse_before_statement hne hx rfl hb
  · rw [hparse] at hkept
    exact ⟨hne, hx, rfl, hb, es, e, he, hkept⟩
  · rw [hlost] at hskipped
    cases congrArg Parsed.statements hskipped

/-- In `nil print nil;` the parser gives up at `print`, which is skipped, so that the statement
behind the plain token is lost. -/
theorem statement_lost_without_semicolon :
    let first : Token := ⟨.keyword .nilWord, "nil", .nil, 1, some 0⟩
    let keyword : Token := ⟨.keyword .printWord, "print", .nil, 1, some 4⟩
    let word : Token := ⟨.keyword .nilWord, "nil", .nil, 1, some 10⟩
    let semicolon : Token := ⟨.semicolon, ";", .nil, 1, some 13⟩
    let stop : Token := ⟨.eof, "", .nil, 1, some 14⟩
    IsPlain first ∧ Terminated [keyword, word, semicolon, stop] ∧
      parse [keyword, word, semicolon, stop] = ⟨[.print (.literal .nil)], []⟩ ∧
      parse [first, keyword, word, semicolon, stop] =
        ⟨[], [⟨keyword, .expected .expressionEnd⟩]⟩ := by
  intro first keyword word semicolon stop
  have hbody : ∀ t ∈ [keyword, word, semicolon], t.kind ≠ .eof := by decide
  have hstop : stop.kind = .eof := rfl
  exact ⟨by decide, Terminated.append hbody hstop, rfl, rfl⟩

end Lox
