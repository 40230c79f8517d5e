import LoxInterpreter.Machine.Run
import LoxInterpreter.Proofs.Grammar.ParserCorrect
import LoxInterpreter.Proofs.Lexical.Restart

/-!
Sources one after the other. What two well formed sources do on one machine, the source with the
text of both does as well, if there is a newline between them: the scanner, the parser and the
machine each go on behind the first source as if the second were on its own.
-/

namespace Lox

theorem Run.executeProgram_append (fuel : Nat) (room : Room) (ss ts : List Stmt) (m : Machine) :
    executeProgram fuel room (ss ++ ts) m =
      match executeProgram fuel room ss m with
      | .ok _ m' => executeProgram fuel room ts m'
      | .error halt m' => .error halt m' := by
  induction ss generalizing m with
  | nil => rfl
  | cons s ss ih =>
    rw [List.cons_append, executeProgram, executeProgram, Step.bind_apply, Step.bind_apply]
    cases execute fuel room s m with
    | ok _ m' => exact ih m'
    | error halt m' => rfl

/-- A run of statements goes on with others, unless it halts. -/
theorem Machine.run_append (limits : Limits) (ss ts : List Stmt) (m : Machine) :
    m.run limits (ss ++ ts) =
      match m.run limits ss with
      | (none, m') => m'.run limits ts
      | (some halt, m') => (some halt, m') := by
  unfold Machine.run
  rw [Run.executeProgram_append]
  cases Run.executeProgram limits.fuel limits.calls ss m <;> rfl

/-- Two sources that scan and parse without errors do so together, with a newline between them.
Running them together is running the first and then the second, whose first line has the number
behind the last line of the first, on the machine that the first left behind. If the first halts,
both together halt with it. -/
theorem run_joined_sources {a b : String} {line : Int} {ta tb : List Token}
    (hscana : scan a line = .ok ta) (hparsea : (parse ta).errors = [])
    (hscanb : scan b (line + a.toList.count '\n' + 1) = .ok tb) (hparseb : (parse tb).errors = [])
    (limits : Limits) (m : Machine) :
    ∃ ts, scan (a ++ "\n" ++ b) line = .ok ts ∧ (parse ts).errors = [] ∧
      m.run limits (parse ts).statements =
        match m.run limits (parse ta).statements with
        | (none, m') => m'.run limits (parse tb).statements
        | (some halt, m') => (some halt, m') := by
  have hscan := Lexical.scan_append_newline (b := b) hscana
  rw [hscanb, Lexical.prepend] at hscan
  obtain ⟨bodya, stopa, rfl, hbodya, hstopa⟩ := Lexical.exists_of_scan hscana
  obtain ⟨bodyb, stopb, rfl, hbodyb, hstopb⟩ := Lexical.exists_of_scan hscanb
  rw [List.dropLast_concat, ← List.append_assoc] at hscan
  have hbody : ∀ t ∈ bodya ++ bodyb, t.kind ≠ .eof := by
    intro t ht
    rcases List.mem_append.1 ht with ht | ht
    · exact hbodya t ht
    · exact hbodyb t ht
  have hparse := Grammar.parse_append (.append hbodya hstopa) (.append hbodyb hstopb)
    (.append hbody hstopb) hstopb hparsea hparseb
  refine ⟨_, hscan, ?_, ?_⟩
  · rw [hparse]
  · rw [hparse]
    exact Machine.run_append limits _ _ m

/-- A name that the first source defines is there for the second, together or one by one. -/
theorem run_joined_var_print :
    let ta : List Token := [⟨.keyword .varWord, "var", .nil, 1, some 0⟩,
      ⟨.identifier, "a", .nil, 1, some 4⟩, ⟨.semicolon, ";", .nil, 1, some 5⟩,
      ⟨.eof, "", .nil, 1, some 6⟩]
    let tb : List Token := [⟨.keyword .printWord, "print", .nil, 2, some 0⟩,
      ⟨.identifier, "a", .nil, 2, some 6⟩, ⟨.semicolon, ";", .nil, 2, some 7⟩,
      ⟨.eof, "", .nil, 2, some 8⟩]
    scan "var a;" 1 = .ok ta ∧ (parse ta).errors = [] ∧
      scan "print a;" (1 + "var a;".toList.count '\n' + 1) = .ok tb ∧ (parse tb).errors = [] ∧
      ∃ ts, scan ("var a;" ++ "\n" ++ "print a;") 1 = .ok ts ∧ (parse ts).errors = [] ∧
        ((Machine.start fun _ => 0).run ⟨9, 0, 9⟩ (parse ts).statements).1 = none ∧
        ((Machine.start fun _ => 0).run ⟨9, 0, 9⟩ (parse ts).statements).2.printed = #["nil"] := by
  intro ta tb
  have hscana : scan "var a;" 1 = .ok ta := by cbv
  have hparsea : (parse ta).errors = [] := rfl
  have hscanb : scan "print a;" (1 + "var a;".toList.count '\n' + 1) = .ok tb := by cbv
  have hparseb : (parse tb).errors = [] := rfl
  obtain ⟨ts, hscan, hparse, hrun⟩ :=
    run_joined_sources hscana hparsea hscanb hparseb ⟨9, 0, 9⟩ (Machine.start fun _ => 0)
  refine ⟨hscana, hparsea, hscanb, hparseb, ts, hscan, hparse, ?_⟩
  rw [hrun]
  exact ⟨rfl, rfl⟩

end Lox
