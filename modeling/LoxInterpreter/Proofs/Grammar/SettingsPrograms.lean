import LoxInterpreter.Proofs.Grammar.ParserCorrect
import LoxInterpreter.Proofs.Grammar.Settings

/-!
What the parsers of statements do not look at: the errors recorded before, and how much fuel is
left. So a list of declarations is read behind other ones as if it were a program of its own.
-/

namespace Lox

namespace Parse

variable {g : Token} {e e' : Setting} {fuel fuel' : Nat} {s : State}

theorem eof_notMem (hg : g.kind = .eof) : g.kind ∉ expressionKinds := by
  rw [hg]
  decide

theorem eof_ne_kind (hg : g.kind = .eof) (x : Expectation) : g.kind ≠ x.kind := by
  rw [hg]
  cases x <;> decide

namespace Agree

theorem expression (hg : g.kind ∉ expressionKinds) (h : fuel ≤ fuel') (s : State) :
    Agree g e e' (Parse.expression fuel) (Parse.expression fuel') s :=
  (expressionsAgree hg h).expression s

theorem parameters (hg : g.kind = .eof) (h : fuel ≤ fuel') (count : Nat) (s : State) :
    Agree g e e' (Parse.parameters fuel count) (Parse.parameters fuel' count) s := by
  induction fuel generalizing fuel' count s with
  | zero => exact throw_exhausted
  | succ fuel ih =>
    obtain ⟨fuel', rfl⟩ := Nat.exists_eq_succ_of_ne_zero (Nat.ne_zero_of_lt h)
    refine bind (limit count _) fun _ _ => bind (expect (eof_ne_kind hg _)) fun name _ => ?_
    refine bind (accept (ne_of_notMem (eof_notMem hg) (by decide))) fun comma s₃ => ?_
    cases comma with
    | some _ => exact bind (ih (Nat.le_of_succ_le_succ h) (count + 1) s₃) fun _ _ => pure
    | none => exact pure

theorem expressionStatement (hg : g.kind = .eof) (h : fuel ≤ fuel') :
    Agree g e e' (Parse.expressionStatement fuel) (Parse.expressionStatement fuel') s :=
  bind (expression (eof_notMem hg) h s) fun _ _ => bind (expect (eof_ne_kind hg _)) fun _ _ => pure

theorem varDeclaration (hg : g.kind = .eof) (h : fuel ≤ fuel') :
    Agree g e e' (Parse.varDeclaration fuel) (Parse.varDeclaration fuel') s := by
  refine bind (expect (eof_ne_kind hg _)) fun name _ => ?_
  refine bind (afterOptional (ne_of_notMem (eof_notMem hg) (by decide))
    (expression (eof_notMem hg) h)) fun initializer _ => ?_
  exact bind (expect (eof_ne_kind hg _)) fun _ _ => pure

theorem printStatement (hg : g.kind = .eof) (h : fuel ≤ fuel') :
    Agree g e e' (Parse.printStatement fuel) (Parse.printStatement fuel') s :=
  bind (expression (eof_notMem hg) h s) fun _ _ => bind (expect (eof_ne_kind hg _)) fun _ _ => pure

theorem returnStatement (hg : g.kind = .eof) (h : fuel ≤ fuel') (keyword : Token) :
    Agree g e e' (Parse.returnStatement fuel keyword) (Parse.returnStatement fuel' keyword) s := by
  refine bind (rejectTopLevel keyword) fun _ _ => ?_
  refine bind (unlessNext _ (expression (eof_notMem hg) h)) fun value _ => ?_
  exact bind (expect (eof_ne_kind hg _)) fun _ _ => pure

/-- The end of the text begins no initializer, and every other token may be taken. -/
theorem forInitializer (hg : g.kind = .eof) (h : fuel ≤ fuel') :
    Agree g e e' (Parse.forInitializer fuel) (Parse.forInitializer fuel') s := by
  refine bind_peek (fun _ => ?_) fun t ts hrest => ?_
  · rw [hg]
    exact map (expressionStatement hg h)
  · split
    · exact bind (advance hrest) fun _ _ => pure
    · exact bind (advance hrest) fun _ _ => map (varDeclaration hg h)
    · exact map (expressionStatement hg h)

end Agree

structure ProgramsAgree (g : Token) (e e' : Setting) (fuel fuel' : Nat) : Prop where
  declaration (s : State) : Agree g e e' (declaration fuel) (declaration fuel') s
  declarations (inBlock : Bool) (s : State) :
    Agree g e e' (declarations fuel inBlock) (declarations fuel' inBlock) s
  block (s : State) : Agree g e e' (block fuel) (block fuel') s
  functionDeclaration (s : State) :
    Agree g e e' (functionDeclaration fuel) (functionDeclaration fuel') s
  statement (s : State) : Agree g e e' (statement fuel) (statement fuel') s
  forStatement (s : State) : Agree g e e' (forStatement fuel) (forStatement fuel') s

namespace ProgramsAgree

theorem step_declaration (ih : ProgramsAgree g e e' fuel fuel') (hg : g.kind = .eof)
    (h : fuel ≤ fuel') : Agree g e e' (Parse.declaration (fuel + 1))
      (Parse.declaration (fuel' + 1)) s := by
  refine .recovering hg (.bind_peek (fun _ => ?_) fun t ts hrest => ?_)
  · rw [hg]
    exact ih.statement s
  · split
    · exact .bind (.advance hrest) fun _ _ => .varDeclaration hg h
    · exact .bind (.advance hrest) fun _ s₁ => ih.functionDeclaration s₁
    · exact ih.statement s

theorem step_declarations (ih : ProgramsAgree g e e' fuel fuel') (inBlock : Bool) :
    Agree g e e' (Parse.declarations (fuel + 1) inBlock) (Parse.declarations (fuel' + 1) inBlock)
      s := by
  refine .bind .peek fun t s₁ => .ite _ (fun _ => .pure) fun _ =>
    .bind (ih.declaration s₁) fun first s₂ => ?_
  cases first with
  | some _ => exact .bind (ih.declarations inBlock s₂) fun _ _ => .pure
  | none => exact ih.declarations inBlock s₂

theorem step_functionDeclaration (ih : ProgramsAgree g e e' fuel fuel') (hg : g.kind = .eof)
    (h : fuel ≤ fuel') : Agree g e e' (Parse.functionDeclaration (fuel + 1))
      (Parse.functionDeclaration (fuel' + 1)) s := by
  refine .bind (.expect (eof_ne_kind hg _)) fun name _ => ?_
  refine .bind (.expect (eof_ne_kind hg _)) fun _ _ => ?_
  refine .bind (.listBeforeParen (.parameters hg h 0)) fun params _ => ?_
  refine .bind (.expect (eof_ne_kind hg _)) fun _ _ => ?_
  refine .bind (.expect (eof_ne_kind hg _)) fun _ _ => ?_
  exact .bind (.inFunction ih.block) fun _ _ => .pure

theorem step_statement (ih : ProgramsAgree g e e' fuel fuel') (hg : g.kind = .eof)
    (h : fuel ≤ fuel') : Agree g e e' (Parse.statement (fuel + 1)) (Parse.statement (fuel' + 1))
      s := by
  refine .bind_peek (fun _ => ?_) fun t ts hrest => ?_
  · rw [hg]
    exact .expressionStatement hg h
  · split
    · exact .bind (.advance hrest) fun _ s₁ => ih.forStatement s₁
    · refine .bind (.advance hrest) fun _ _ => .bind (.expect (eof_ne_kind hg _)) fun _ s₂ => ?_
      refine .bind (.expression (eof_notMem hg) h s₂) fun condition _ => ?_
      refine .bind (.expect (eof_ne_kind hg _)) fun _ s₄ => ?_
      refine .bind (ih.statement s₄) fun _ _ => ?_
      exact .bind (.afterOptional (by simp [hg]) ih.statement) fun _ _ => .pure
    · exact .bind (.advance hrest) fun _ _ => .printStatement hg h
    · exact .bind (.advance hrest) fun _ _ => .returnStatement hg h t
    · refine .bind (.advance hrest) fun _ _ => .bind (.expect (eof_ne_kind hg _)) fun _ s₂ => ?_
      refine .bind (.expression (eof_notMem hg) h s₂) fun condition _ => ?_
      refine .bind (.expect (eof_ne_kind hg _)) fun _ s₄ => ?_
      exact .bind (ih.statement s₄) fun _ _ => .pure
    · exact .bind (.advance hrest) fun _ s₁ => .bind (ih.block s₁) fun _ _ => .pure
    · exact .expressionStatement hg h

theorem step_forStatement (ih : ProgramsAgree g e e' fuel fuel') (hg : g.kind = .eof)
    (h : fuel ≤ fuel') : Agree g e e' (Parse.forStatement (fuel + 1))
      (Parse.forStatement (fuel' + 1)) s := by
  have hexpression : ∀ s, Agree g e e' (Parse.expression fuel) (Parse.expression fuel') s :=
    fun s => .expression (eof_notMem hg) h s
  refine .bind (.expect (eof_ne_kind hg _)) fun _ _ => ?_
  refine .bind (.forInitializer hg h) fun initializer _ => ?_
  refine .bind (.unlessNext _ hexpression) fun condition _ => ?_
  refine .bind (.expect (eof_ne_kind hg _)) fun _ _ => ?_
  refine .bind (.unlessNext _ hexpression) fun increment _ => ?_
  refine .bind (.expect (eof_ne_kind hg _)) fun _ s₆ => ?_
  exact .bind (ih.statement s₆) fun _ _ => .pure

end ProgramsAgree

theorem programsAgree (hg : g.kind = .eof) (h : fuel ≤ fuel') :
    ProgramsAgree g e e' fuel fuel' := by
  induction fuel generalizing fuel' with
  | zero =>
    exact {
      declaration := fun _ => .throw_exhausted
      declarations := fun _ _ => .throw_exhausted
      block := fun _ => .throw_exhausted
      functionDeclaration := fun _ => .throw_exhausted
      statement := fun _ => .throw_exhausted
      forStatement := fun _ => .throw_exhausted }
  | succ fuel ih =>
    obtain ⟨fuel', rfl⟩ := Nat.exists_eq_succ_of_ne_zero (Nat.ne_zero_of_lt h)
    have hle : fuel ≤ fuel' := Nat.le_of_succ_le_succ h
    have ih := ih hle
    exact {
      declaration := fun _ => ih.step_declaration hg hle
      declarations := fun inBlock _ => ih.step_declarations inBlock
      block := fun s => .bind (ih.declarations true s) fun _ _ =>
        .bind (.expect (eof_ne_kind hg _)) fun _ _ => .pure
      functionDeclaration := fun _ => ih.step_functionDeclaration hg hle
      statement := fun _ => ih.step_statement hg hle
      forStatement := fun _ => ih.step_forStatement hg hle }

end Parse

namespace Grammar

open Parse (Parser State Agree)

namespace Terminated

theorem exists_body {ts : List Token} (h : Terminated ts) :
    ∃ (body : List Token) (stop : Token), stop.kind = .eof ∧ ts = body ++ [stop] := by
  induction h with
  | stop ht => exact ⟨[], _, ht, rfl⟩
  | cons _ _ ih =>
    obtain ⟨body, stop, hstop, rfl⟩ := ih
    exact ⟨_ :: body, stop, hstop, rfl⟩

theorem kind_eq {body : List Token} {stop : Token} (h : Terminated (body ++ [stop])) :
    stop.kind = .eof := by
  obtain ⟨body', stop', hstop, heq⟩ := h.exists_body
  obtain ⟨-, hlast⟩ := List.append_inj' heq rfl
  rw [List.singleton_inj.1 hlast]
  exact hstop

end Terminated

/-- With less fuel, a parser does what it does with enough, unless it runs out of it. -/
theorem meets_or_exhausted {α : Type} {p : Nat → Parser α} {s : State} {Q : α → State → Prop}
    {R : State → Prop} {bound : Nat} (hs : Terminated s.rest)
    (hagree : ∀ g s' fuel fuel', g.kind = .eof → fuel ≤ fuel' →
      Agree g ⟨[], []⟩ ⟨[], []⟩ (p fuel) (p fuel') s')
    (h : ∀ fuel, bound ≤ fuel → Meets (p fuel) s Q R) (fuel : Nat) :
    Meets (p fuel) s Q R ∨ fuel < bound ∧ ∃ s', p fuel s = .error .exhausted s' := by
  by_cases hfuel : bound ≤ fuel
  · exact Or.inl (h fuel hfuel)
  have hlt : fuel < bound := Nat.lt_of_not_le hfuel
  have henough := h bound (Nat.le_refl bound)
  obtain ⟨rest, errors, depth⟩ := s
  obtain ⟨body, stop, hstop, rfl⟩ := hs.exists_body
  have hsame := hagree stop ⟨body, errors, depth⟩ fuel bound hstop (Nat.le_of_lt hlt)
  cases hsame with
  | exhausted hp => exact Or.inr ⟨hlt, _, hp⟩
  | ok _ hp hq => exact Or.inl ((Meets.ok_iff hp).2 ((Meets.ok_iff hq).1 henough))
  | error _ hp hq =>
    refine Or.inl ?_
    rw [Meets, show p fuel ⟨body ++ [stop], errors, depth⟩ = _ from hp.trans hq.symm]
    exact henough

/-- Behind earlier errors, a program is read as on its own, whatever larger fuel there is. -/
theorem declarations_after {body : List Token} {stop : Token} (h : Terminated (body ++ [stop]))
    (errors : List SyntaxError) {fuel : Nat} (hfuel : Parse.fuelFor (body ++ [stop]) ≤ fuel) :
    Parse.declarations fuel false ⟨body ++ [stop], errors, 0⟩ =
      .ok (parse (body ++ [stop])).statements
        ⟨[stop], errors ++ (parse (body ++ [stop])).errors, 0⟩ := by
  obtain ⟨statements, stop', found, -, hrun, -⟩ := declarations_ends h
  have hparse : parse (body ++ [stop]) = ⟨statements, found⟩ := by rw [parse, hrun]
  have hagree : Agree stop ⟨[], []⟩ ⟨errors, []⟩
      (Parse.declarations (Parse.fuelFor (body ++ [stop])) false) (Parse.declarations fuel false)
      ⟨body, [], 0⟩ :=
    (Parse.programsAgree h.kind_eq hfuel).declarations false _
  have hplace : ∀ before, Parse.Setting.place ⟨before, []⟩ stop ⟨body, [], 0⟩ =
      ⟨body ++ [stop], before, 0⟩ := fun before => by simp [Parse.Setting.place]
  rw [hparse]
  cases hagree with
  | exhausted hp =>
    rw [hplace, hrun] at hp
    cases hp
  | error _ hp _ =>
    rw [hplace, hrun] at hp
    cases hp
  | ok _ hp hq =>
    rename_i s' _
    obtain ⟨rest, own, depth⟩ := s'
    rw [hplace] at hp hq
    obtain ⟨rfl, hstate⟩ := EStateM.Result.ok.inj (hrun.symm.trans hp)
    obtain ⟨hrest, rfl, rfl⟩ := State.mk.inj hstate
    have hrest : [] ++ [stop'] = rest ++ [stop] := hrest
    rw [hq, Parse.Setting.place, ← hrest, (List.append_inj' hrest rfl).2]
    rfl

end Grammar

end Lox
