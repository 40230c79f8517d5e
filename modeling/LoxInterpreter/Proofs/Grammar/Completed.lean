import LoxInterpreter.Proofs.Grammar.Recovery

/-!
Completed statements. Behind a declaration the parser looks at one more token, and only for an
`else`. So well formed declarations are read in the same way whatever stands behind them, and what
stands there is read as a program of its own, with all its mistakes.
-/

namespace Lox

namespace Grammar

/-- What the grammar derives is read first, and what stands behind it is read as on its own. -/
theorem parse_tokens_append (d : Derivation .declarations) (hd : d.ElseNearest) {b : List Token}
    (h : Terminated (d.tokens ++ b)) (helse : Begins (· ≠ .keyword .elseWord) b) :
    parse (d.tokens ++ b) =
      ⟨d.tree ++ (parse b).statements, d.faults 0 ++ (parse b).errors⟩ := by
  match d with
  | .noDeclaration => rfl
  | .moreDeclarations first rest =>
    rw [Derivation.tokens, List.append_assoc] at h ⊢
    have hbegins : Begins (· ≠ .eof) (first.tokens ++ (rest.tokens ++ b)) := by
      have hfirsts : ∀ k ∈ declarationFirsts, k ≠ .eof := by decide
      exact ((first.begins rfl).mono hfirsts).append _
    obtain ⟨fuel, hfuel⟩ : ∃ fuel, Parse.fuelFor (first.tokens ++ (rest.tokens ++ b)) = fuel + 1 :=
      ⟨_, rfl⟩
    obtain ⟨found, behind, errors, hrun, hterminated, hparse⟩ := parse_step h hbegins hfuel
    -- The first declaration is read up to its end, and there is enough fuel for that.
    have hread := first.isRead hd.2.1 fuel (rest.tokens ++ b) [] 0
      (Derivation.begins_after_declaration rest helse)
    rcases hread with hread | ⟨s, hexhausted⟩
    · obtain ⟨rfl, hstate⟩ := EStateM.Result.ok.inj (hrun.symm.trans hread)
      obtain ⟨rfl, rfl, -⟩ := Parse.State.mk.inj hstate
      have ih := parse_tokens_append rest hd.2.2 hterminated helse
      rw [hparse, ih, Derivation.tree, Derivation.faults]
      simp
    · cases hrun.symm.trans hexhausted

end Grammar

open Grammar

/-- Statements that are well formed on their own stay so in front of anything that does not begin
with an `else`. The parser gives them first, and then exactly the statements and the errors that it
gives for what stands behind them, well formed or not. -/
theorem parse_completed_append {a b : List Token} {stop : Token} (ha : ∀ t ∈ a, t.kind ≠ .eof)
    (hstop : stop.kind = .eof) (hnil : (parse (a ++ [stop])).errors = []) (hb : Terminated b)
    (helse : Begins (· ≠ .keyword .elseWord) b) :
    parse (a ++ b) =
      ⟨(parse (a ++ [stop])).statements ++ (parse b).statements, (parse b).errors⟩ := by
  obtain ⟨d, rfl, hd, hfaults, hparse⟩ := exists_of_errors_eq_nil (.append ha hstop) hnil
  rw [parse_tokens_append d hd (hb.prepend ha) helse, hparse, hfaults, List.nil_append]

/-- In `if (nil) nil; ) nil;` the parenthesis is an error as at the beginning of a program, and the
statement in front of it, which could have taken an `else`, is kept. -/
theorem parse_completed_append_if :
    let word : Token := ⟨.keyword .nilWord, "nil", .nil, 1, none⟩
    let semicolon : Token := ⟨.semicolon, ";", .nil, 1, none⟩
    let opening : Token := ⟨.leftParen, "(", .nil, 1, none⟩
    let closing : Token := ⟨.rightParen, ")", .nil, 1, none⟩
    let stop : Token := ⟨.eof, "", .nil, 1, none⟩
    let a : List Token :=
      [⟨.keyword .ifWord, "if", .nil, 1, none⟩, opening, word, closing, word, semicolon]
    let b : List Token := [closing, word, semicolon, stop]
    (∀ t ∈ a, t.kind ≠ .eof) ∧ stop.kind = .eof ∧ (parse (a ++ [stop])).errors = [] ∧
      Terminated b ∧ Begins (· ≠ .keyword .elseWord) b ∧
      parse b = ⟨[], [⟨closing, .expectedExpression⟩]⟩ ∧
      parse (a ++ b) = ⟨[.conditional (.literal .nil) (.expression (.literal .nil)) none],
        [⟨closing, .expectedExpression⟩]⟩ := by
  intro word semicolon opening closing stop a b
  have ha : ∀ t ∈ a, t.kind ≠ .eof := by decide
  have hstop : stop.kind = .eof := rfl
  have hnil : (parse (a ++ [stop])).errors = [] := rfl
  have hbody : ∀ t ∈ [closing, word, semicolon], t.kind ≠ .eof := by decide
  have hb : Terminated b := .append hbody hstop
  have helse : Begins (· ≠ .keyword .elseWord) b := .cons (by decide) _
  have hparse : parse b = ⟨[], [⟨closing, .expectedExpression⟩]⟩ := rfl
  have happend := parse_completed_append ha hstop hnil hb helse
  exact ⟨ha, hstop, hnil, hb, helse, hparse, happend.trans rfl⟩

end Lox
