import LoxInterpreter.Proofs.Lexical.Pieces
import LoxInterpreter.Proofs.Places.Parsing
import LoxInterpreter.Proofs.Places.Running

/-!
Places are irrelevant. Two sources whose tokens have the same kinds, lexemes and literals may be
laid out in different ways, with different comments. The parser and the machine treat them alike:
trees, errors, values and scopes differ in nothing but places, since both sources have the same bare
tokens.
-/

namespace Lox

theorem map_bare_of_map_content {ts us : List Token}
    (h : ts.map Lexical.content = us.map Lexical.content) :
    ts.map Token.bare = us.map Token.bare := by
  have hbare : Token.bare = (fun c => ⟨c.1, c.2.1, c.2.2, 0, none⟩) ∘ Lexical.content := rfl
  rw [hbare, ← List.map_map, h, List.map_map]

theorem SyntaxError.toDiagnostic_bare (e : SyntaxError) :
    e.bare.toDiagnostic.bare = e.toDiagnostic.bare := rfl

theorem RuntimeError.toDiagnostic_bare (e : RuntimeError) :
    e.bare.toDiagnostic.bare = e.toDiagnostic.bare := rfl

/-- Two runs end alike, up to places. They print the same texts, both or none of them are completed,
and an error of the first is one of the second, with the same message and lexeme. The same global
names are bound, to values with the same bare forms, and nothing but places tells the machines that
are left behind apart. -/
structure EndAlike (r r' : Option Halt × Machine) : Prop where
  printed : r.2.printed = r'.2.printed
  completed : r.1 = none ↔ r'.1 = none
  failed : ∀ e, r.1 = some (.failed e) →
    ∃ e', r'.1 = some (.failed e') ∧ e'.toDiagnostic.bare = e.toDiagnostic.bare
  globals : r.2.store.scopes[Store.globals]?.map Scope.bare =
    r'.2.store.scopes[Store.globals]?.map Scope.bare
  machine : r.2.bare = r'.2.bare

theorem endAlike_of_bare {r r' : Option Halt × Machine}
    (hhalt : r.1.map Halt.bare = r'.1.map Halt.bare) (hmachine : r.2.bare = r'.2.bare) :
    EndAlike r r' where
  printed := by
    have hprinted : r.2.bare.printed = r'.2.bare.printed := by rw [hmachine]
    exact hprinted
  completed := by
    rw [← Option.map_eq_none_iff (f := Halt.bare), hhalt, Option.map_eq_none_iff]
  failed := by
    intro e he
    rw [he] at hhalt
    obtain ⟨halt, hrun, hbare⟩ := Option.map_eq_some_iff.1 hhalt.symm
    cases halt with
    | failed e' =>
      refine ⟨e', hrun, ?_⟩
      have heq : e'.bare = e.bare := Halt.failed.inj hbare
      rw [← e'.toDiagnostic_bare, heq, e.toDiagnostic_bare]
    | unsupported op => cases hbare
    | recursion => cases hbare
    | exhausted => cases hbare
  globals := by
    rw [← Store.getElem?_bare, ← Store.getElem?_bare]
    exact congrArg (fun m => m.store.scopes[Store.globals]?) hmachine
  machine := hmachine

/-- What the tokens of two sources are, apart from their places, decides what becomes of the
sources. Their trees differ in the places of tokens only, their errors are the same and in the same
order, with the same messages, lexemes and contexts, and their runs end alike, on one machine or on
two machines that differ in places only. -/
theorem places_irrelevant {ts us : List Token}
    (h : ts.map Lexical.content = us.map Lexical.content) :
    (parse ts).statements.map Stmt.bare = (parse us).statements.map Stmt.bare ∧
      (parse ts).errors.map (fun e => e.toDiagnostic.bare) =
        (parse us).errors.map (fun e => e.toDiagnostic.bare) ∧
      ∀ (limits : Limits) (m m' : Machine), m.bare = m'.bare →
        EndAlike (m.run limits (parse ts).statements) (m'.run limits (parse us).statements) := by
  have hparse : (parse ts).bare = (parse us).bare := by
    rw [← parse_bare, map_bare_of_map_content h, parse_bare]
  have hstatements : (parse ts).statements.map Stmt.bare = (parse us).statements.map Stmt.bare :=
    congrArg Parsed.statements hparse
  have herrors : (parse ts).errors.map SyntaxError.bare = (parse us).errors.map SyntaxError.bare :=
    congrArg Parsed.errors hparse
  refine ⟨hstatements, ?_, fun limits m m' hm => ?_⟩
  · have hdiagnostic : (fun e : SyntaxError => e.toDiagnostic.bare) =
        (fun e => e.toDiagnostic.bare) ∘ SyntaxError.bare :=
      funext fun e => e.toDiagnostic_bare.symm
    rw [hdiagnostic, ← List.map_map, herrors, List.map_map]
  · have hrun := m.run_bare limits (parse ts).statements
    rw [hm, hstatements, m'.run_bare] at hrun
    exact endAlike_of_bare (congrArg Prod.fst hrun).symm (congrArg Prod.snd hrun).symm

/-- A program on one line fails as it does when it is spread over five lines, with a comment. -/
theorem places_irrelevant_comment :
    let ts : List Token := [⟨.keyword .funWord, "fun", .nil, 1, some 0⟩,
      ⟨.identifier, "f", .nil, 1, some 4⟩, ⟨.leftParen, "(", .nil, 1, some 5⟩,
      ⟨.rightParen, ")", .nil, 1, some 6⟩, ⟨.leftBrace, "\x7b", .nil, 1, some 8⟩,
      ⟨.rightBrace, "\x7d", .nil, 1, some 9⟩, ⟨.minus, "-", .nil, 1, some 11⟩,
      ⟨.identifier, "f", .nil, 1, some 12⟩, ⟨.semicolon, ";", .nil, 1, some 13⟩,
      ⟨.eof, "", .nil, 1, some 14⟩]
    let us : List Token := [⟨.keyword .funWord, "fun", .nil, 1, some 0⟩,
      ⟨.identifier, "f", .nil, 1, some 4⟩, ⟨.leftParen, "(", .nil, 1, some 5⟩,
      ⟨.rightParen, ")", .nil, 1, some 6⟩, ⟨.leftBrace, "\x7b", .nil, 2, some 0⟩,
      ⟨.rightBrace, "\x7d", .nil, 3, some 0⟩, ⟨.minus, "-", .nil, 4, some 0⟩,
      ⟨.identifier, "f", .nil, 5, some 0⟩, ⟨.semicolon, ";", .nil, 5, some 1⟩,
      ⟨.eof, "", .nil, 5, some 2⟩]
    let m := Machine.start fun _ => 0
    scan "fun f() \x7b\x7d -f;" 1 = .ok ts ∧
      scan "fun f()\n\x7b // empty\n\x7d\n-\nf;" 1 = .ok us ∧
      ts.map Lexical.content = us.map Lexical.content ∧ ts.map Token.line ≠ us.map Token.line ∧
      (∃ e, (m.run ⟨9, 9, 9⟩ (parse ts).statements).1 = some (.failed e) ∧ e.token.line = 1) ∧
      ∃ e, (m.run ⟨9, 9, 9⟩ (parse us).statements).1 = some (.failed e) ∧
        e.toDiagnostic.message = "Operand must be a number." ∧ e.toDiagnostic.lexeme = "-" := by
  intro ts us m
  have hcontent : ts.map Lexical.content = us.map Lexical.content := rfl
  have hrun : (m.run ⟨9, 9, 9⟩ (parse ts).statements).1 =
      some (.failed ⟨⟨.minus, "-", .nil, 1, some 11⟩, .operandNotNumber⟩) := rfl
  obtain ⟨e, hrun', he⟩ :=
    ((places_irrelevant hcontent).2.2 ⟨9, 9, 9⟩ m m rfl).failed _ hrun
  refine ⟨by cbv, by cbv, hcontent, by decide, ⟨_, hrun, rfl⟩, e, hrun', ?_, ?_⟩
  · exact congrArg Diagnostic.message he
  · exact congrArg Diagnostic.lexeme he

end Lox
