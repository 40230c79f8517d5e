import LoxInterpreter.Proofs.Grammar.ParserCorrect
import LoxInterpreter.Proofs.Lexical.ScannerCorrect
import LoxInterpreter.Proofs.Runtime.Frames
import LoxInterpreter.Tree.Prefix
import Mathlib.Data.List.Induction

/-!
Programs whose trees are as deep as one likes. A chain of operators leans to the left, so that the
tree of `print nil==nil==nil;` gets deeper with each comparison, although none of them is in
parentheses. Scanning and parsing take one step after the other. But whoever goes down the tree
needs frames for all of its levels: one for each when the chain is evaluated, and two for each when
its prefix form is found.
-/

namespace Lox

/-- A program that compares `nil` with itself, then the outcome with `nil`, and so on. -/
def comparing (count : Nat) : String :=
  "print nil" ++ String.join (List.replicate count "==nil") ++ ";"

theorem toList_comparing (count : Nat) : (comparing count).toList =
    "print nil".toList ++ (List.replicate count "==nil".toList).flatten ++ [';'] := by
  unfold comparing
  rw [String.toList_append, String.toList_append, String.toList_join, List.flatMap_def,
    List.map_replicate]
  rfl

theorem not_mem_comparing {c : Char} (hprint : c ∉ "print nil".toList)
    (hequals : c ∉ "==nil".toList) (hsemicolon : c ≠ ';') (count : Nat) :
    c ∉ (comparing count).toList := by
  unfold comparing
  simp only [String.toList_append, List.mem_append, not_or]
  refine ⟨⟨hprint, ?_⟩, fun hmem => hsemicolon (List.mem_singleton.1 hmem)⟩
  rw [String.toList_join, List.mem_flatMap]
  rintro ⟨text, htext, hmem⟩
  exact hequals ((List.mem_replicate.1 htext).2 ▸ hmem)

namespace Lexical

open Scan

def printWord : Piece := ⟨'p', "rint".toList, .lexeme (.keyword .printWord) .nil⟩

def nilWord : Piece := ⟨'n', "il".toList, .lexeme (.keyword .nilWord) .nil⟩

def space : Piece := ⟨' ', [], .blank⟩

def semicolon : Piece := ⟨';', [], .lexeme .semicolon .nil⟩

def equals : Piece := ⟨'=', ['='], .lexeme .equalEqual .nil⟩

def comparisons (count : Nat) : List Piece := (List.replicate count [equals, nilWord]).flatten

theorem pieces_comparisons (count : Nat) :
    pieces ("nil".toList ++ ((List.replicate count "==nil".toList).flatten ++ [';'])) =
      (nilWord :: (comparisons count ++ [semicolon]), .complete) := by
  induction count with
  | zero =>
    have hend : pieces (semicolon.text ++ []) = ([semicolon], .complete) := by
      rw [pieces_text_append semicolon [] (front_single rfl _), pieces]
    have hword : front 'n' (nilWord.more ++ (semicolon.text ++ [])) = .ok nilWord :=
      front_letter (by decide) _
    have hpieces := pieces_text_append nilWord _ hword
    rw [hend] at hpieces
    exact hpieces
  | succ count ih =>
    let rest := "nil".toList ++ ((List.replicate count "==nil".toList).flatten ++ [';'])
    have hequals := pieces_text_append equals rest (front_double rfl _)
    have hword : front 'n' (nilWord.more ++ (equals.text ++ rest)) = .ok nilWord :=
      front_letter (by decide) _
    have hpieces := pieces_text_append nilWord _ hword
    rw [hequals, ih] at hpieces
    exact hpieces

theorem pieces_comparing (count : Nat) : pieces (comparing count).toList =
    (printWord :: space :: nilWord :: (comparisons count ++ [semicolon]), .complete) := by
  let rest := "nil".toList ++ ((List.replicate count "==nil".toList).flatten ++ [';'])
  have hspace := pieces_text_append space rest (front_space (by decide) _)
  have hword : front 'p' (printWord.more ++ (space.text ++ rest)) = .ok printWord :=
    front_letter (by decide) _
  have hpieces := pieces_text_append printWord _ hword
  rw [hspace, pieces_comparisons] at hpieces
  have htext : (comparing count).toList = printWord.text ++ (space.text ++ rest) := by
    rw [toList_comparing, List.append_assoc]
    rfl
  rw [htext]
  exact hpieces

end Lexical

def comparison (ops : List Token) : Expr :=
  ops.foldl (fun left op => .binary left op (.literal .nil)) (.literal .nil)

theorem comparison_concat (ops : List Token) (op : Token) :
    comparison (ops ++ [op]) = .binary (comparison ops) op (.literal .nil) :=
  List.foldl_append

/-! ### The tree of the program -/

namespace Grammar

def Derivation.compared (p : Derivation .primary) : Derivation (.operand .equality) :=
  .tighter .comparisons (.chain (.tighter .terms (.chain (.tighter .factors (.chain
    (.tightest (.call p .noCall)) .noOperator)) .noOperator)) .noOperator)

def Derivation.comparing (first : Derivation (.operand .equality))
    (rest : Derivation (.chainRest .equality)) : Derivation .expression :=
  .disjunction (.chain (.tighter .conjunctions (.chain (.tighter .equalities (.chain first rest))
    .noOperator)) .noOperator)

open Lexical Scan

/-- The tokens of the comparisons are derived as one chain. -/
theorem exists_chainRest (count : Nat) (start : Place) :
    ∃ (d : Derivation (.chainRest .equality)) (stop : Mark .semicolon) (ops : List Token),
      tokensAt start (comparisons count ++ [semicolon]) = d.tokens ++ [stop.token] ∧
      ops.length = count ∧ (∀ op ∈ ops, op.kind = .equalEqual) ∧
      (∀ left, d.tree left = ops.foldl (fun left op => .binary left op (.literal .nil)) left) ∧
      d.faults 0 = [] ∧ d.ElseNearest ∧ ∀ t ∈ d.tokens, t.kind ≠ .eof := by
  induction count generalizing start with
  | zero =>
    exact ⟨.noOperator, ⟨_, List.mem_singleton_self _⟩, [], rfl, rfl, by simp, fun _ => rfl, rfl,
      trivial, by simp [Derivation.tokens]⟩
  | succ count ih =>
    let middle := start.after equals.text
    obtain ⟨d, stop, ops, htokens, rfl, hops, htree, hfaults, hnearest, hkinds⟩ :=
      ih (middle.after nilWord.text)
    let op : Terminal (operators .equality) :=
      ⟨⟨.equalEqual, String.ofList equals.text, .nil, middle.line, some start.column⟩,
        List.mem_cons_of_mem _ List.mem_cons_self⟩
    let operand : Terminal literals :=
      ⟨⟨.keyword .nilWord, String.ofList nilWord.text, .nil,
        (middle.after nilWord.text).line, some middle.column⟩, by simp [literals]⟩
    refine ⟨.moreOperators op (Derivation.literal operand).compared d, stop, op.token :: ops, ?_,
      rfl, ?_, fun left => ?_, hfaults, ?_, ?_⟩
    · exact congrArg (op.token :: operand.token :: ·) htokens
    · exact List.forall_mem_cons.2 ⟨rfl, hops⟩
    · exact htree _
    · exact ⟨trivial, by simp [Derivation.compared, Derivation.All, Derivation.NearestTakesElse],
        hnearest⟩
    · rw [Derivation.tokens]
      simpa [Derivation.compared, Derivation.tokens, op, operand] using hkinds

end Grammar

open Grammar Lexical in
/-- However many comparisons there are, the program scans and parses without errors. -/
theorem exists_comparison (count : Nat) :
    ∃ tokens ops, scan (comparing count) 1 = .ok tokens ∧
      parse tokens = ⟨[.print (comparison ops)], []⟩ ∧ ops.length = count ∧
      ∀ op ∈ ops, op.kind = .equalEqual := by
  let print : Word .printWord := ⟨⟨.keyword .printWord, "print", .nil, 1, some 0⟩,
    List.mem_singleton_self _⟩
  let first : Terminal literals :=
    ⟨⟨.keyword .nilWord, "nil", .nil, 1, some 6⟩, by simp [literals]⟩
  obtain ⟨d, stop, ops, htokens, hlength, hops, htree, hfaults, hnearest, hkinds⟩ :=
    exists_chainRest count ⟨1, 9⟩
  let program : Derivation .declarations := .moreDeclarations
    (.statement (.print print (.comparing (Derivation.literal first).compared d) stop))
    .noDeclaration
  have hprogram : program.tokens = print.token :: first.token :: (d.tokens ++ [stop.token]) := by
    simp [program, Derivation.comparing, Derivation.compared, Derivation.tokens]
  have hscan : ∃ line column, scan (comparing count) 1 =
      .ok (program.tokens ++ [⟨.eof, "", .nil, line, column⟩]) := by
    unfold scan scanChars
    rw [pieces_comparing, hprogram, ← htokens]
    exact ⟨_, _, rfl⟩
  obtain ⟨line, column, hscan⟩ := hscan
  have hterminated : Terminated (program.tokens ++ [⟨.eof, "", .nil, line, column⟩]) := by
    refine .append ?_ rfl
    rw [hprogram]
    intro t ht
    simp only [List.mem_cons, List.mem_append, List.not_mem_nil, or_false] at ht
    obtain rfl | rfl | ht | rfl := ht
    · simp [print]
    · simp [first]
    · exact hkinds t ht
    · simp [stop.kind_eq]
  have hprogramNearest : program.ElseNearest := by
    simpa [program, Derivation.comparing, Derivation.compared, Derivation.ElseNearest,
      Derivation.All, Derivation.NearestTakesElse] using hnearest
  have hprogramTree : program.tree = [.print (comparison ops)] :=
    congrArg ([Stmt.print ·]) (htree _)
  have hprogramFaults : program.faults 0 = [] := by
    simpa [program, Derivation.comparing, Derivation.compared, Derivation.faults] using hfaults
  refine ⟨_, ops, hscan, ?_, hlength, hops⟩
  rw [parse_derivation program hprogramNearest hterminated rfl, hprogramTree, hprogramFaults]

/-! ### Its frames -/

def comparisonValue : Nat → Value
  | 0 => .nil
  | 1 => .bool true
  | _ => .bool false

theorem comparisonValue_succ (count : Nat) :
    comparisonValue (count + 1) = .bool ((comparisonValue count).same .nil) := by
  match count with
  | 0 | 1 | _ + 2 => rfl

theorem textFrames_comparison (ops : List Token) :
    (comparison ops).textFrames = 2 * ops.length + 1 := by
  induction ops using List.reverseRecOn with
  | nil => rfl
  | append_singleton ops op ih =>
    rw [comparison_concat, Expr.textFrames, ih, List.length_append]
    exact congrArg (· + 2) (Nat.max_eq_left (Nat.le_add_left 1 _))

namespace Run

variable {fuel : Nat} {room : Room} {ops : List Token}

/-- With frames enough for all levels, the chain has a value. -/
theorem evaluate_comparison (hops : ∀ op ∈ ops, op.kind = .equalEqual) (hfuel : ops.length < fuel)
    (hframes : ops.length < room.frames) (m : Machine) :
    evaluate fuel room (comparison ops) m = .ok (comparisonValue ops.length) m := by
  obtain ⟨fuel, rfl⟩ := Nat.exists_eq_add_of_le' (Nat.zero_lt_of_lt hfuel)
  have hpos : 0 < room.frames := Nat.zero_lt_of_lt hframes
  induction ops using List.reverseRecOn generalizing fuel room with
  | nil => exact evaluate_literal hpos .nil m
  | append_singleton ops op ih =>
    rw [List.length_append, List.length_singleton] at hfuel hframes ⊢
    obtain ⟨hops, hop⟩ := List.forall_mem_append.1 hops
    have hfuel' : ops.length < fuel := Nat.lt_of_add_lt_add_right hfuel
    have hframes' : ops.length < room.frames - 1 := Nat.lt_sub_of_add_lt hframes
    obtain ⟨fuel, rfl⟩ := Nat.exists_eq_add_of_le' (Nat.zero_lt_of_lt hfuel')
    rw [comparison_concat, comparisonValue_succ]
    exact evaluate_equal (hop op List.mem_cons_self) hpos
      (ih hops hframes' fuel hfuel' (Nat.zero_lt_of_lt hframes'))
      (evaluate_literal (Nat.zero_lt_of_lt hframes') .nil m)

/-- Without them, the host gives up. -/
theorem evaluate_comparison_recursion (hfuel : ops.length < fuel)
    (hframes : room.frames ≤ ops.length) (m : Machine) :
    evaluate fuel room (comparison ops) m = .error .recursion m := by
  obtain ⟨fuel, rfl⟩ := Nat.exists_eq_add_of_le' (Nat.zero_lt_of_lt hfuel)
  induction ops using List.reverseRecOn generalizing fuel room with
  | nil => exact evaluate_of_no_frames (Nat.eq_zero_of_le_zero hframes) _ m
  | append_singleton ops op ih =>
    rw [List.length_append, List.length_singleton] at hfuel hframes
    rw [comparison_concat]
    rcases Nat.eq_zero_or_pos room.frames with hzero | hpos
    · exact evaluate_of_no_frames hzero _ m
    have hfuel' : ops.length < fuel := Nat.lt_of_add_lt_add_right hfuel
    obtain ⟨fuel, rfl⟩ := Nat.exists_eq_add_of_le' (Nat.zero_lt_of_lt hfuel')
    exact evaluate_binary_of_error hpos (ih (Nat.sub_le_of_le_add hframes) fuel hfuel')

end Run

namespace Machine

variable {limits : Limits} {ops : List Token}

theorem run_comparison (hops : ∀ op ∈ ops, op.kind = .equalEqual)
    (hfuel : ops.length + 1 < limits.fuel) (hframes : ops.length + 1 < limits.calls.frames)
    (m : Machine) :
    m.run limits [.print (comparison ops)] =
      (none, { m with printed := m.printed.push (comparisonValue ops.length).text }) := by
  obtain ⟨fuel, room⟩ := limits
  obtain ⟨fuel, rfl⟩ := Nat.exists_eq_add_of_le' (Nat.zero_lt_of_lt hfuel)
  have hvalue : Run.evaluate fuel ⟨room.depth, room.frames - 1⟩ (comparison ops) m =
      .ok (comparisonValue ops.length) m :=
    Run.evaluate_comparison hops (Nat.lt_of_add_lt_add_right hfuel) (Nat.lt_sub_of_add_lt hframes) m
  have hprint : Run.execute (fuel + 1) room (.print (comparison ops)) m = .ok .normal
      { m with printed := m.printed.push (comparisonValue ops.length).text } := by
    rw [Run.execute, Run.inFrames_of_le (Nat.zero_lt_of_lt hframes)]
    exact Step.bind_of_ok hvalue _
  rw [run, Run.executeProgram, Step.bind_of_ok hprint]
  rfl

theorem run_comparison_recursion (hfuel : ops.length + 1 < limits.fuel)
    (hframes : limits.calls.frames ≤ ops.length + 1) (m : Machine) :
    m.run limits [.print (comparison ops)] = (some .recursion, m) := by
  obtain ⟨fuel, room⟩ := limits
  obtain ⟨fuel, rfl⟩ := Nat.exists_eq_add_of_le' (Nat.zero_lt_of_lt hfuel)
  have hprint : Run.execute (fuel + 1) room (.print (comparison ops)) m = .error .recursion m := by
    rcases Nat.eq_zero_or_pos room.frames with hzero | hpos
    · rw [Run.execute, Run.inFrames_of_lt (hzero ▸ Nat.one_pos)]
      rfl
    · rw [Run.execute, Run.inFrames_of_le hpos]
      exact Step.bind_of_error (Run.evaluate_comparison_recursion
        (Nat.lt_of_add_lt_add_right hfuel) (Nat.sub_le_of_le_add hframes) m) _
  rw [run, Run.executeProgram, Step.bind_of_error hprint]

end Machine

end Lox
