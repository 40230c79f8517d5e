import LoxInterpreter.Proofs.Grammar.SettingsPrograms

/-!
The parser makes progress. On tokens that end with the only end of text, well formed or not, no
parser goes back or asks for a token behind the last one, and each of them ends. The loops over
declarations cannot spin: a declaration takes a token also where it is malformed, because then the
parser skips at least one.
-/

namespace Lox

namespace Grammar

open Parse (Parser State Agree)

variable {α : Type}

/-- As long as the text has not ended, the parser goes forward and ends before the end of the text
or there. It runs out of fuel only if there is less than some for each token ahead. -/
def Advances (p : Nat → Parser α) : Prop :=
  ∀ fuel s, Terminated s.rest → Meets (p fuel) s (fun _ => Ahead s) (Ahead s) ∨
    fuel < 16 * s.rest.length + 5 ∧ ∃ s', p fuel s = .error .exhausted s'

/-- A parser that advances with enough fuel advances with less, unless it runs out of it. -/
theorem Advances.of_enough {p : Nat → Parser α}
    (hagree : ∀ g s fuel fuel', g.kind = .eof → fuel ≤ fuel' →
      Agree g ⟨[], []⟩ ⟨[], []⟩ (p fuel) (p fuel') s)
    (h : ∀ fuel s, Terminated s.rest → 16 * s.rest.length + 5 ≤ fuel →
      Meets (p fuel) s (fun _ => Ahead s) (Ahead s)) : Advances p :=
  fun fuel s hs => meets_or_exhausted hs hagree (h · s hs) fuel

structure ParsersAdvance : Prop where
  expression : Advances Parse.expression
  chain (l : Parse.Level) : Advances (Parse.chain · l)
  chainAfter (l : Parse.Level) (left : Expr) : Advances (Parse.chainAfter · l left)
  operand (l : Parse.Level) : Advances (Parse.operand · l)
  unary : Advances Parse.unary
  callAfter (callee : Expr) : Advances (Parse.callAfter · callee)
  arguments (count : Nat) : Advances (Parse.arguments · count)
  primary : Advances Parse.primary
  parameters (count : Nat) : Advances (Parse.parameters · count)
  expressionStatement : Advances Parse.expressionStatement
  varDeclaration : Advances Parse.varDeclaration
  printStatement : Advances Parse.printStatement
  returnStatement (kw : Word .returnWord) : Advances (Parse.returnStatement · kw.token)
  forInitializer : Advances Parse.forInitializer
  declarations (inBlock : Bool) : Advances (Parse.declarations · inBlock)
  block : Advances Parse.block
  functionDeclaration : Advances Parse.functionDeclaration
  statement : Advances Parse.statement
  forStatement : Advances Parse.forStatement

/-- A parser that is asked for a token of some kind may find any one. -/
def Mark.any (k : Kind) : Mark k :=
  ⟨{ (default : Token) with kind := k }, List.mem_singleton.2 rfl⟩

/-- What breaks does not go back either. -/
theorem Meets.forward {p : Parser α} {s : State} {Q : α → State → Prop}
    (h : Meets p s Q (Broken s)) (hQ : ∀ a s', Q a s' → Ahead s s') :
    Meets p s (fun _ => Ahead s) (Ahead s) :=
  h.mono hQ fun _ hbroken => hbroken.1

theorem Recognizes.forward {c : Category} {p : Parser α} {s : State} {value : Derivation c → α}
    (h : Recognizes p s value) : Meets p s (fun _ => Ahead s) (Ahead s) :=
  Meets.forward h fun _ _ ⟨_, _, hpasses⟩ => hpasses.ahead

theorem parsersAdvance : ParsersAdvance where
  expression := .of_enough
    (fun _ s _ _ hg h => .expression (Parse.eof_notMem hg) h s)
    fun fuel _ hs hfuel => ((recognizesExpressions fuel).expression hs (by omega)).forward
  chain l := .of_enough
    (fun _ s _ _ hg h => (Parse.expressionsAgree (Parse.eof_notMem hg) h).chain l s)
    fun fuel _ hs hfuel => ((recognizesExpressions fuel).chain l hs (by omega)).forward
  chainAfter l left := .of_enough
    (fun _ s _ _ hg h => (Parse.expressionsAgree (Parse.eof_notMem hg) h).chainAfter l left s)
    fun fuel _ hs hfuel => ((recognizesExpressions fuel).chainAfter l left hs (by omega)).forward
  operand l := .of_enough
    (fun _ s _ _ hg h => (Parse.expressionsAgree (Parse.eof_notMem hg) h).operand l s)
    fun fuel _ hs hfuel => ((recognizesExpressions fuel).operand l hs (by omega)).forward
  unary := .of_enough
    (fun _ s _ _ hg h => (Parse.expressionsAgree (Parse.eof_notMem hg) h).unary s)
    fun fuel _ hs hfuel => ((recognizesExpressions fuel).unary hs (by omega)).forward
  callAfter callee := .of_enough
    (fun _ s _ _ hg h => (Parse.expressionsAgree (Parse.eof_notMem hg) h).callAfter callee s)
    fun fuel _ hs hfuel => ((recognizesExpressions fuel).callAfter callee hs (by omega)).forward
  arguments count := .of_enough
    (fun _ s _ _ hg h => (Parse.expressionsAgree (Parse.eof_notMem hg) h).arguments count s)
    fun fuel _ hs hfuel => ((recognizesExpressions fuel).arguments count hs (by omega)).forward
  primary := .of_enough
    (fun _ s _ _ hg h => (Parse.expressionsAgree (Parse.eof_notMem hg) h).primary s)
    fun fuel _ hs hfuel => ((recognizesExpressions fuel).primary hs (by omega)).forward
  parameters count := .of_enough
    (fun _ s _ _ hg h => .parameters hg h count s)
    fun _ _ hs hfuel => (Recognizes.names hs count (by omega)).forward
      fun _ _ ⟨_, _, hpasses⟩ => hpasses.ahead
  expressionStatement := .of_enough
    (fun _ _ _ _ hg h => .expressionStatement hg h)
    fun _ _ hs hfuel => (Recognizes.expressionStatement hs (by omega)).forward
  varDeclaration := .of_enough
    (fun _ _ _ _ hg h => .varDeclaration hg h)
    fun _ _ hs hfuel => (Recognizes.varDeclaration (Mark.any _) hs (by omega)).forward
      fun _ _ ⟨_, _, _, _, hpasses⟩ => hpasses.ahead
  printStatement := .of_enough
    (fun _ _ _ _ hg h => .printStatement hg h)
    fun _ _ hs hfuel => (Recognizes.printStatement (Mark.any _) hs (by omega)).forward
      fun _ _ hcompletes => hcompletes.1
  returnStatement kw := .of_enough
    (fun _ _ _ _ hg h => .returnStatement hg h kw.token)
    fun _ _ hs hfuel => (Recognizes.returnStatement kw hs (by omega)).forward
      fun _ _ hcompletes => hcompletes.1
  forInitializer := .of_enough
    (fun _ _ _ _ hg h => .forInitializer hg h)
    fun _ _ hs hfuel => (Recognizes.forInitializer hs (by omega)).forward
  declarations inBlock := .of_enough
    (fun _ s _ _ hg h => (Parse.programsAgree hg h).declarations inBlock s)
    fun fuel _ hs hfuel => ((recognizesPrograms fuel).declarations inBlock hs (by omega)).mono
      (fun _ _ hcompletes => hcompletes.2.1) fun _ => False.elim
  block := .of_enough
    (fun _ s _ _ hg h => (Parse.programsAgree hg h).block s)
    fun fuel _ hs hfuel => ((recognizesPrograms fuel).block (Mark.any _) hs (by omega)).forward
      fun _ _ hcompletes => hcompletes.1
  functionDeclaration := .of_enough
    (fun _ s _ _ hg h => (Parse.programsAgree hg h).functionDeclaration s)
    fun fuel _ hs hfuel => ((recognizesPrograms fuel).functionDeclaration (Mark.any _) hs
      (by omega)).forward fun _ _ hcompletes => hcompletes.1
  statement := .of_enough
    (fun _ s _ _ hg h => (Parse.programsAgree hg h).statement s)
    fun fuel _ hs hfuel => ((recognizesPrograms fuel).statement hs (by omega)).forward
      fun _ _ hcompletes => hcompletes.2.1
  forStatement := .of_enough
    (fun _ s _ _ hg h => (Parse.programsAgree hg h).forStatement s)
    fun fuel _ hs hfuel => ((recognizesPrograms fuel).forStatement (Mark.any _) hs
      (by omega)).forward fun _ _ hcompletes => hcompletes.1

end Grammar

open Grammar

/-- The parser ends on all tokens that end with the only end of text, well formed or not: it stops
before that token, outside of all functions, and its bound on recursion is never reached, so that a
larger one changes nothing. On the way no parser of the grammar goes back or asks for a token
behind the last one. Where a declaration is asked for before the end of the text, at least one
token is taken, and errors in it are recovered from. -/
theorem parser_progresses {body : List Token} {stop : Token} (hbody : ∀ t ∈ body, t.kind ≠ .eof)
    (hstop : stop.kind = .eof) :
    (∀ fuel, Parse.fuelFor (body ++ [stop]) ≤ fuel →
      Parse.declarations fuel false ⟨body ++ [stop], [], 0⟩ =
        .ok (parse (body ++ [stop])).statements ⟨[stop], (parse (body ++ [stop])).errors, 0⟩) ∧
    ParsersAdvance ∧
    ∀ fuel s, Terminated s.rest → Begins (· ≠ .eof) s.rest →
      Meets (Parse.declaration fuel) s
        (fun _ s' => Ahead s s' ∧ s'.rest.length < s.rest.length) (fun _ => False) ∨
      fuel < 16 * s.rest.length + 5 ∧ ∃ s', Parse.declaration fuel s = .error .exhausted s' := by
  refine ⟨fun fuel hfuel => ?_, parsersAdvance, fun fuel s hs hbegins => ?_⟩
  · have hterminated : Terminated (body ++ [stop]) := .append hbody hstop
    rw [declarations_after hterminated [] hfuel, List.nil_append]
  · have hagree : ∀ g s' fuel fuel', g.kind = .eof → fuel ≤ fuel' →
        Parse.Agree g ⟨[], []⟩ ⟨[], []⟩ (Parse.declaration fuel) (Parse.declaration fuel') s' :=
      fun _ s' _ _ hg h => (Parse.programsAgree hg h).declaration s'
    refine meets_or_exhausted hs hagree (fun fuel hfuel => ?_) fuel
    refine ((recognizesPrograms fuel).declaration hs hbegins (by omega)).imp ?_
    rintro _ s' ⟨hlt, hahead, -⟩
    exact ⟨hahead, hlt⟩

/-- A stray brace and a class are two errors, and the parser stops behind them. -/
theorem parser_progresses_stray :
    let brace : Token := ⟨.rightBrace, "\x7d", .nil, 1, some 0⟩
    let word : Token := ⟨.keyword .classWord, "class", .nil, 1, some 1⟩
    let stop : Token := ⟨.eof, "", .nil, 1, some 6⟩
    (∀ t ∈ [brace, word], t.kind ≠ .eof) ∧ stop.kind = .eof ∧
      parse ([brace, word] ++ [stop]) =
        ⟨[], [⟨brace, .expectedExpression⟩, ⟨word, .expectedExpression⟩]⟩ ∧
      Parse.declarations 1000 false ⟨[brace, word] ++ [stop], [], 0⟩ = .ok []
        ⟨[stop], [⟨brace, .expectedExpression⟩, ⟨word, .expectedExpression⟩], 0⟩ := by
  intro brace word stop
  have hbody : ∀ t ∈ [brace, word], t.kind ≠ .eof := by simp [brace, word]
  have hstop : stop.kind = .eof := rfl
  have hparse : parse ([brace, word] ++ [stop]) =
      ⟨[], [⟨brace, .expectedExpression⟩, ⟨word, .expectedExpression⟩]⟩ := rfl
  obtain ⟨hrun, -⟩ := parser_progresses hbody hstop
  exact ⟨hbody, hstop, hparse, hrun 1000 (by decide)⟩

end Lox
