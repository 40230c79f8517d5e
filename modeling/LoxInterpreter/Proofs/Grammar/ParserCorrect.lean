import LoxInterpreter.Proofs.Grammar.ReadingPrograms
import LoxInterpreter.Proofs.Grammar.RecognitionPrograms

/-!
The parser is exact: it accepts the programs of the grammar in which only names are assigned to,
lists are not too long and functions are returned from, and no other tokens. What it gives for
them is their tree.
-/

namespace Lox

namespace Grammar

open Parse (State)

/-- The parser of a program never gives up, and reads all tokens but the end of the text. -/
theorem declarations_ends {tokens : List Token} (h : Terminated tokens) :
    ∃ (statements : List Stmt) (stop : Token) (errors : List SyntaxError), stop.kind = .eof ∧
      Parse.declarations (Parse.fuelFor tokens) false ⟨tokens, [], 0⟩ =
        .ok statements ⟨[stop], errors, 0⟩ ∧
      ((∃ d : Derivation .declarations, d.tree = statements ∧ tokens = d.tokens ++ [stop] ∧
        errors = d.faults 0 ∧ d.ElseNearest) ∨ ∃ e ∈ errors, IsFatal e.cause) := by
  have hfuel : 16 * tokens.length + 3 ≤ Parse.fuelFor tokens := by
    rw [Parse.fuelFor]
    omega
  have hmeets := (recognizesPrograms _).declarations (s := ⟨tokens, [], 0⟩) false h hfuel
  rcases hmeets.ends with ⟨statements, s, hrun, ⟨stop, ts, hts, hstop⟩, hahead, hor⟩ | ⟨_, -, h⟩
  · obtain ⟨rest, errors, depth⟩ := s
    cases hts
    have hkind : stop.kind = .eof := by simpa using hstop
    obtain rfl : ts = [] := hahead.terminated.eq_nil hkind
    obtain rfl : depth = 0 := hahead.depth
    refine ⟨statements, stop, errors, hkind, hrun, hor.imp_left ?_⟩
    rintro ⟨d, htree, ⟨us, htokens, hpasses⟩, hnearest, -⟩
    rw [List.nil_append] at htokens
    exact ⟨d, htree, htokens ▸ hpasses.rest, by simpa using hpasses.errors, hnearest⟩
  · exact h.elim

/-- The parser finds a derivation of the tokens, or records why it gave up. -/
theorem parse_finds {tokens : List Token} (h : Terminated tokens) :
    (∃ (d : Derivation .declarations) (stop : Token), tokens = d.tokens ++ [stop] ∧
      d.ElseNearest ∧ parse tokens = ⟨d.tree, d.faults 0⟩) ∨
    ∃ e ∈ (parse tokens).errors, IsFatal e.cause := by
  obtain ⟨statements, stop, errors, -, hrun, hor⟩ := declarations_ends h
  have hparse : parse tokens = ⟨statements, errors⟩ := by rw [parse, hrun]
  rw [hparse]
  rcases hor with ⟨d, rfl, htokens, rfl, hnearest⟩ | hfatal
  · exact Or.inl ⟨d, stop, htokens, hnearest, rfl⟩
  · exact Or.inr hfatal

/-- What the grammar derives is read as its tree, and its faults are recorded. -/
theorem parse_derivation (d : Derivation .declarations) (hd : d.ElseNearest) {stop : Token}
    (h : Terminated (d.tokens ++ [stop])) (hstop : stop.kind = .eof) :
    parse (d.tokens ++ [stop]) = ⟨d.tree, d.faults 0⟩ := by
  obtain ⟨statements, stop', errors, -, hrun, -⟩ := declarations_ends h
  have htakes : Takes (Parse.declarations (Parse.fuelFor (d.tokens ++ [stop])) false)
      ⟨d.tokens ++ [stop], [], 0⟩ d.tree ⟨[stop], [] ++ d.faults 0, 0⟩ :=
    d.isRead hd false _ [stop] [] 0 (.cons (Or.inl hstop) [])
  -- There is enough fuel, so that the parser does not run out of it.
  rcases htakes with hread | ⟨s, hexhausted⟩
  · rw [parse, hread, List.nil_append]
  · rw [hrun] at hexhausted
    cases hexhausted

/-- Declarations go on with other declarations. -/
theorem exists_append (d e : Derivation .declarations) :
    ∃ d' : Derivation .declarations, d'.tokens = d.tokens ++ e.tokens ∧
      d'.tree = d.tree ++ e.tree ∧ (∀ depth, d'.faults depth = d.faults depth ++ e.faults depth) ∧
      (d.ElseNearest → e.ElseNearest → d'.ElseNearest) := by
  match d with
  | .noDeclaration => exact ⟨e, rfl, rfl, fun _ => rfl, fun _ he => he⟩
  | .moreDeclarations first rest =>
    obtain ⟨rest', htokens, htree, hfaults, hnearest⟩ := exists_append rest e
    refine ⟨.moreDeclarations first rest', ?_, ?_, fun depth => ?_, ?_⟩
    · rw [Derivation.tokens, Derivation.tokens, htokens, List.append_assoc]
    · rw [Derivation.tree, Derivation.tree, htree, List.cons_append]
    · rw [Derivation.faults, Derivation.faults, hfaults, List.append_assoc]
    · exact fun hd he => ⟨hd.1, hd.2.1, hnearest hd.2.2 he⟩

/-- A parse without errors has found a derivation without faults. -/
theorem exists_of_errors_eq_nil {body : List Token} {stop : Token}
    (h : Terminated (body ++ [stop])) (hnil : (parse (body ++ [stop])).errors = []) :
    ∃ d : Derivation .declarations, d.tokens = body ∧ d.ElseNearest ∧ d.faults 0 = [] ∧
      parse (body ++ [stop]) = ⟨d.tree, []⟩ := by
  rcases parse_finds h with ⟨d, stop', htokens, hnearest, hparse⟩ | ⟨e, he, -⟩
  · obtain ⟨rfl, -⟩ := List.append_inj' htokens rfl
    rw [hparse] at hnil
    have hfaults : d.faults 0 = [] := hnil
    exact ⟨d, rfl, hnearest, hfaults, by rw [hparse, hfaults]⟩
  · rw [hnil] at he
    cases he

/-- Programs that are well formed make one together. -/
theorem parse_append {a b : List Token} {stop stop' : Token} (ha : Terminated (a ++ [stop]))
    (hb : Terminated (b ++ [stop'])) (hab : Terminated (a ++ b ++ [stop']))
    (hstop : stop'.kind = .eof) (hnila : (parse (a ++ [stop])).errors = [])
    (hnilb : (parse (b ++ [stop'])).errors = []) :
    parse (a ++ b ++ [stop']) =
      ⟨(parse (a ++ [stop])).statements ++ (parse (b ++ [stop'])).statements, []⟩ := by
  obtain ⟨d, rfl, hd, hfaultsd, hparsed⟩ := exists_of_errors_eq_nil ha hnila
  obtain ⟨e, rfl, he, hfaultse, hparsee⟩ := exists_of_errors_eq_nil hb hnilb
  obtain ⟨d', htokens, htree, hfaults, hnearest⟩ := exists_append d e
  rw [hparsed, hparsee, ← htokens]
  rw [← htokens] at hab
  rw [parse_derivation d' (hnearest hd he) hab hstop, htree, hfaults, hfaultsd, hfaultse,
    List.append_nil]

end Grammar

open Grammar

/-- The parser accepts exactly the programs of the grammar that assign to names, have short lists
and return inside of functions. It then gives the tree of the derivation in which each `else`
belongs to the nearest `if`, and there always is one. -/
theorem parse_exact {body : List Token} {stop : Token} (hbody : ∀ t ∈ body, t.kind ≠ .eof)
    (hstop : stop.kind = .eof) :
    ((parse (body ++ [stop])).errors = [] ↔
      ∃ d : Derivation .declarations, d.tokens = body ∧ d.AssignsNames ∧ d.ShortLists ∧
        d.ReturnsInFunctions) ∧
    ((parse (body ++ [stop])).errors = [] →
      ∃ d : Derivation .declarations, d.tokens = body ∧ d.AssignsNames ∧ d.ShortLists ∧
        d.ReturnsInFunctions ∧ d.ElseNearest) ∧
    ∀ d : Derivation .declarations, d.tokens = body → d.ElseNearest →
      (parse (body ++ [stop])).statements = d.tree := by
  have hterminated : Terminated (body ++ [stop]) := .append hbody hstop
  have hfound : (parse (body ++ [stop])).errors = [] →
      ∃ d : Derivation .declarations, d.tokens = body ∧ d.AssignsNames ∧ d.ShortLists ∧
        d.ReturnsInFunctions ∧ d.ElseNearest := by
    intro hnil
    obtain ⟨d, rfl, hnearest, hfaults, -⟩ := exists_of_errors_eq_nil hterminated hnil
    obtain ⟨hnames, hshort, hreturns⟩ := (d.faults_zero_eq_nil_iff trivial).1 hfaults
    exact ⟨d, rfl, hnames, hshort, hreturns, hnearest⟩
  refine ⟨⟨fun hnil => ?_, ?_⟩, hfound, ?_⟩
  · obtain ⟨d, htokens, hnames, hshort, hreturns, -⟩ := hfound hnil
    exact ⟨d, htokens, hnames, hshort, hreturns⟩
  · rintro ⟨d, rfl, hconditions⟩
    obtain ⟨d', htokens, hfaults, hnearest⟩ := d.exists_elseNearest
    rw [← htokens] at hterminated ⊢
    rw [parse_derivation d' hnearest hterminated hstop, hfaults]
    exact (d.faults_zero_eq_nil_iff trivial).2 hconditions
  · rintro d rfl hnearest
    rw [parse_derivation d hnearest hterminated hstop]

def nestedToken (kind : Kind) (lexeme : String) : Token := ⟨kind, lexeme, .nil, 1, none⟩

def nestedWord (lexeme : String) : Token := nestedToken (.ofWord lexeme) lexeme

/-- The tokens of `fun f(a, b) { for (var i = a; i; i = b) if (a) if (b) return a - b - i; else
f(b, a); }`. -/
def nestedTokens : List Token :=
  let leftParen := nestedToken .leftParen "("
  let rightParen := nestedToken .rightParen ")"
  let comma := nestedToken .comma ","
  let equal := nestedToken .equal "="
  let minus := nestedToken .minus "-"
  let semicolon := nestedToken .semicolon ";"
  let f := nestedWord "f"
  let a := nestedWord "a"
  let b := nestedWord "b"
  let i := nestedWord "i"
  [nestedWord "fun", f, leftParen, a, comma, b, rightParen, nestedToken .leftBrace "\x7b",
    nestedWord "for", leftParen, nestedWord "var", i, equal, a, semicolon, i, semicolon, i, equal,
    b, rightParen, nestedWord "if", leftParen, a, rightParen, nestedWord "if", leftParen, b,
    rightParen, nestedWord "return", a, minus, b, minus, i, semicolon, nestedWord "else", f,
    leftParen, b, comma, a, rightParen, semicolon, nestedToken .rightBrace "\x7d"]

/-- Its tree. The `else` belongs to the inner `if`, the operators are joined from the left, and the
loop is in a block with its variable. -/
def nestedTree : Stmt :=
  let name (lexeme : String) : Expr := .variable (nestedWord lexeme)
  let minus := nestedToken .minus "-"
  let difference : Expr := .binary (.binary (name "a") minus (name "b")) minus (name "i")
  let call : Expr := .call (name "f") (nestedToken .rightParen ")") [name "b", name "a"]
  let inner : Stmt := .conditional (name "b") (.result (nestedWord "return") (some difference))
    (some (.expression call))
  .function (nestedWord "f") [nestedWord "a", nestedWord "b"]
    [.block [.var (nestedWord "i") (some (name "a")),
      .loop (name "i") (.block [.conditional (name "a") inner none,
        .expression (.assign (nestedWord "i") (name "b"))])]]

/-- This program is accepted, and its tree is that of a derivation. -/
theorem parse_exact_nested :
    let stop := nestedToken .eof ""
    (∀ t ∈ nestedTokens, t.kind ≠ .eof) ∧ stop.kind = .eof ∧
      (parse (nestedTokens ++ [stop])).errors = [] ∧
      ∃ d : Derivation .declarations, d.tokens = nestedTokens ∧ d.ReturnsInFunctions ∧
        d.ElseNearest ∧ (parse (nestedTokens ++ [stop])).statements = d.tree ∧
        d.tree = [nestedTree] := by
  intro stop
  have hbody : ∀ t ∈ nestedTokens, t.kind ≠ .eof := by decide +kernel
  have hstop : stop.kind = .eof := rfl
  have hparse : parse (nestedTokens ++ [stop]) = ⟨[nestedTree], []⟩ := by
    cbv
  have hnil : (parse (nestedTokens ++ [stop])).errors = [] := by rw [hparse]
  obtain ⟨-, hexists, htree⟩ := parse_exact hbody hstop
  obtain ⟨d, htokens, -, -, hreturns, hnearest⟩ := hexists hnil
  have hd := htree d htokens hnearest
  exact ⟨hbody, hstop, hnil, d, htokens, hreturns, hnearest, hd, by rw [← hd, hparse]⟩

end Lox
