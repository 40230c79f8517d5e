import LoxInterpreter.Tree.Parse

/-!
Derivations in the grammar of the language. A derivation says how a row of tokens is read as a
part of a program; its tokens and its tree are both read off it. The grammar is ambiguous where
an `else` follows several `if`s, so that one row of tokens can have several derivations.

Assignments are derived with any disjunction in front of the equals sign. The rule of the
grammar, in which only a name can stand there, is the condition `AssignsNames`.
-/

namespace Lox

namespace Grammar

open Parse (Level)

/-- A token of one of some kinds. -/
structure Terminal (kinds : List Kind) where
  token : Token
  kind_mem : token.kind ∈ kinds

abbrev Mark (k : Kind) := Terminal [k]

abbrev Word (k : Keyword) := Mark (.keyword k)

theorem Mark.kind_eq {k : Kind} (m : Mark k) : m.token.kind = k :=
  List.mem_singleton.1 m.kind_mem

def operators : Level → List Kind
  | .disjunction => [.keyword .orWord]
  | .conjunction => [.keyword .andWord]
  | .equality => [.bangEqual, .equalEqual]
  | .comparison => [.greater, .greaterEqual, .less, .lessEqual]
  | .term => [.minus, .plus]
  | .factor => [.slash, .star]

/-- Whether the operators of a level may not need their right operand. -/
def isLogical : Level → Bool
  | .disjunction | .conjunction => true
  | _ => false

/-- What stands between the operators of a level: expressions of the next tighter one. -/
inductive Tighter : Level → Level → Prop
  | conjunctions : Tighter .disjunction .conjunction
  | equalities : Tighter .conjunction .equality
  | comparisons : Tighter .equality .comparison
  | terms : Tighter .comparison .term
  | factors : Tighter .term .factor

theorem joins_iff {l : Level} {k : Kind} : l.joins k = true ↔ k ∈ operators l := by
  cases l <;> simp [Level.joins, operators, or_assoc]

theorem joins_eq_false_iff {l : Level} {k : Kind} : l.joins k = false ↔ k ∉ operators l := by
  rw [← joins_iff, Bool.not_eq_true]

theorem tighter?_eq_some_iff {l l' : Level} : l.tighter? = some l' ↔ Tighter l l' := by
  constructor
  · intro h
    cases l <;> cases h <;> constructor
  · rintro (_ | _) <;> rfl

theorem tighter?_eq_none_iff {l : Level} : l.tighter? = none ↔ l = .factor := by
  cases l <;> decide

theorem join_eq (l : Level) (left : Expr) (operator : Token) (right : Expr) :
    l.join left operator right =
      if isLogical l then .logical left operator right else .binary left operator right := by
  cases l <;> rfl

/-- The kinds of tokens that are expressions by themselves, other than names. -/
def literals : List Kind :=
  [.keyword .falseWord, .keyword .trueWord, .keyword .nilWord, .number, .string]

def literalOf (t : Token) : Literal :=
  match t.kind with
  | .keyword .falseWord => .bool false
  | .keyword .trueWord => .bool true
  | .keyword .nilWord => .nil
  | _ => t.literal

inductive Names
  | last (name : Mark .identifier)
  | more (name : Mark .identifier) (comma : Mark .comma) (rest : Names)

namespace Names

def tokens : Names → List Token
  | last name => [name.token]
  | more name comma rest => name.token :: comma.token :: rest.tokens

def list : Names → List Token
  | last name => [name.token]
  | more name _ rest => name.token :: rest.list

end Names

inductive Parameters
  | none
  | some (names : Names)

namespace Parameters

def tokens : Parameters → List Token
  | none => []
  | some names => names.tokens

def list : Parameters → List Token
  | none => []
  | some names => names.list

end Parameters

/-- The parts of a program that the grammar has rules for. -/
inductive Category
  | declarations | declaration | varDeclaration | block
  | statement | expressionStatement | forInitializer
  | optionalExpression | expression
  | chain (l : Level)
  /-- Operators of a level, each with its right operand, after a first operand. -/
  | chainRest (l : Level)
  | operand (l : Level)
  | unary
  /-- Lists of arguments, each in parentheses, after what they call. -/
  | callRest
  | optionalArguments
  /-- The arguments of a call after the first `count`. -/
  | arguments (count : Nat)
  | primary

/-- The trees of a category. What follows a left operand gives a tree for each left operand. -/
abbrev Category.Tree : Category → Type
  | declarations | block => List Stmt
  | declaration | varDeclaration | statement | expressionStatement => Stmt
  | forInitializer => Option Stmt
  | optionalExpression => Option Expr
  | expression | chain _ | operand _ | unary | primary => Expr
  | chainRest _ | callRest => Expr → Expr
  | optionalArguments | arguments _ => List Expr

/-- The derivations of a category, with one form for each alternative of its rule. -/
inductive Derivation : Category → Type
  | noDeclaration : Derivation .declarations
  | moreDeclarations (first : Derivation .declaration) (rest : Derivation .declarations) :
      Derivation .declarations
  | variableDeclaration (v : Derivation .varDeclaration) : Derivation .declaration
  | function (kw : Word .funWord) (name : Mark .identifier) (opening : Mark .leftParen)
      (params : Parameters) (closing : Mark .rightParen) (body : Derivation .block) :
      Derivation .declaration
  | statement (s : Derivation .statement) : Derivation .declaration
  | varWithout (kw : Word .varWord) (name : Mark .identifier) (stop : Mark .semicolon) :
      Derivation .varDeclaration
  | varWith (kw : Word .varWord) (name : Mark .identifier) (equals : Mark .equal)
      (e : Derivation .expression) (stop : Mark .semicolon) : Derivation .varDeclaration
  | block (opening : Mark .leftBrace) (body : Derivation .declarations)
      (closing : Mark .rightBrace) : Derivation .block
  | simple (s : Derivation .expressionStatement) : Derivation .statement
  | print (kw : Word .printWord) (e : Derivation .expression) (stop : Mark .semicolon) :
      Derivation .statement
  | ifOnly (kw : Word .ifWord) (opening : Mark .leftParen) (condition : Derivation .expression)
      (closing : Mark .rightParen) (thenBranch : Derivation .statement) : Derivation .statement
  | ifElse (kw : Word .ifWord) (opening : Mark .leftParen) (condition : Derivation .expression)
      (closing : Mark .rightParen) (thenBranch : Derivation .statement)
      (elseKw : Word .elseWord) (elseBranch : Derivation .statement) : Derivation .statement
  | whileLoop (kw : Word .whileWord) (opening : Mark .leftParen)
      (condition : Derivation .expression) (closing : Mark .rightParen)
      (body : Derivation .statement) : Derivation .statement
  | forLoop (kw : Word .forWord) (opening : Mark .leftParen)
      (initializer : Derivation .forInitializer) (condition : Derivation .optionalExpression)
      (stop : Mark .semicolon) (increment : Derivation .optionalExpression)
      (closing : Mark .rightParen) (body : Derivation .statement) : Derivation .statement
  | returning (kw : Word .returnWord) (value : Derivation .optionalExpression)
      (stop : Mark .semicolon) : Derivation .statement
  | compound (b : Derivation .block) : Derivation .statement
  | expressionStatement (e : Derivation .expression) (stop : Mark .semicolon) :
      Derivation .expressionStatement
  | noInitializer (stop : Mark .semicolon) : Derivation .forInitializer
  | varInitializer (v : Derivation .varDeclaration) : Derivation .forInitializer
  | simpleInitializer (s : Derivation .expressionStatement) : Derivation .forInitializer
  | noExpression : Derivation .optionalExpression
  | someExpression (e : Derivation .expression) : Derivation .optionalExpression
  | assign (target : Derivation (.chain .disjunction)) (equals : Mark .equal)
      (value : Derivation .expression) : Derivation .expression
  | disjunction (e : Derivation (.chain .disjunction)) : Derivation .expression
  | chain {l : Level} (first : Derivation (.operand l)) (rest : Derivation (.chainRest l)) :
      Derivation (.chain l)
  | noOperator {l : Level} : Derivation (.chainRest l)
  | moreOperators {l : Level} (operator : Terminal (operators l))
      (right : Derivation (.operand l)) (rest : Derivation (.chainRest l)) :
      Derivation (.chainRest l)
  | tighter {l l' : Level} (h : Tighter l l') (e : Derivation (.chain l')) :
      Derivation (.operand l)
  | tightest (e : Derivation .unary) : Derivation (.operand .factor)
  | prefixed (operator : Terminal [.bang, .minus]) (right : Derivation .unary) :
      Derivation .unary
  | call (callee : Derivation .primary) (rest : Derivation .callRest) : Derivation .unary
  | noCall : Derivation .callRest
  | moreCalls (opening : Mark .leftParen) (args : Derivation .optionalArguments)
      (closing : Mark .rightParen) (rest : Derivation .callRest) : Derivation .callRest
  | noArguments : Derivation .optionalArguments
  | someArguments (args : Derivation (.arguments 0)) : Derivation .optionalArguments
  | lastArgument {n : Nat} (e : Derivation .expression) : Derivation (.arguments n)
  | moreArguments {n : Nat} (e : Derivation .expression) (comma : Mark .comma)
      (rest : Derivation (.arguments (n + 1))) : Derivation (.arguments n)
  | literal (t : Terminal literals) : Derivation .primary
  | named (t : Mark .identifier) : Derivation .primary
  | grouping (opening : Mark .leftParen) (e : Derivation .expression)
      (closing : Mark .rightParen) : Derivation .primary

namespace Derivation

def tokens {c : Category} : Derivation c → List Token
  | noDeclaration | noExpression | noOperator | noCall | noArguments => []
  | moreDeclarations first rest => first.tokens ++ rest.tokens
  | variableDeclaration v => v.tokens
  | function kw name opening params closing body =>
    kw.token :: name.token :: opening.token ::
      (params.tokens ++ closing.token :: body.tokens)
  | statement s => s.tokens
  | varWithout kw name stop => [kw.token, name.token, stop.token]
  | varWith kw name equals e stop =>
    kw.token :: name.token :: equals.token :: (e.tokens ++ [stop.token])
  | block opening body closing => opening.token :: (body.tokens ++ [closing.token])
  | simple s => s.tokens
  | print kw e stop => kw.token :: (e.tokens ++ [stop.token])
  | ifOnly kw opening condition closing thenBranch =>
    kw.token :: opening.token :: (condition.tokens ++ closing.token :: thenBranch.tokens)
  | ifElse kw opening condition closing thenBranch elseKw elseBranch =>
    kw.token :: opening.token :: (condition.tokens ++ closing.token ::
      (thenBranch.tokens ++ elseKw.token :: elseBranch.tokens))
  | whileLoop kw opening condition closing body =>
    kw.token :: opening.token :: (condition.tokens ++ closing.token :: body.tokens)
  | forLoop kw opening initializer condition stop increment closing body =>
    kw.token :: opening.token :: (initializer.tokens ++ (condition.tokens ++ stop.token ::
      (increment.tokens ++ closing.token :: body.tokens)))
  | returning kw value stop => kw.token :: (value.tokens ++ [stop.token])
  | compound b => b.tokens
  | expressionStatement e stop => e.tokens ++ [stop.token]
  | noInitializer stop => [stop.token]
  | varInitializer v => v.tokens
  | simpleInitializer s => s.tokens
  | someExpression e => e.tokens
  | assign target equals value => target.tokens ++ equals.token :: value.tokens
  | disjunction e => e.tokens
  | chain first rest => first.tokens ++ rest.tokens
  | moreOperators operator right rest => operator.token :: (right.tokens ++ rest.tokens)
  | tighter _ e => e.tokens
  | tightest e => e.tokens
  | prefixed operator right => operator.token :: right.tokens
  | call callee rest => callee.tokens ++ rest.tokens
  | moreCalls opening args closing rest =>
    opening.token :: (args.tokens ++ closing.token :: rest.tokens)
  | someArguments args => args.tokens
  | lastArgument e => e.tokens
  | moreArguments e comma rest => e.tokens ++ comma.token :: rest.tokens
  | literal t => [t.token]
  | named t => [t.token]
  | grouping opening e closing => opening.token :: (e.tokens ++ [closing.token])

/-- The tree of a derivation. A chain of operators leans to the left, and a `for` is a `while`
in blocks of its own. -/
def tree {c : Category} : Derivation c → c.Tree
  | noDeclaration => []
  | moreDeclarations first rest => first.tree :: rest.tree
  | variableDeclaration v => v.tree
  | function _ name _ params _ body => .function name.token params.list body.tree
  | statement s => s.tree
  | varWithout _ name _ => .var name.token none
  | varWith _ name _ e _ => .var name.token (some e.tree)
  | block _ body _ => body.tree
  | simple s => s.tree
  | print _ e _ => .print e.tree
  | ifOnly _ _ condition _ thenBranch => .conditional condition.tree thenBranch.tree none
  | ifElse _ _ condition _ thenBranch _ elseBranch =>
    .conditional condition.tree thenBranch.tree (some elseBranch.tree)
  | whileLoop _ _ condition _ body => .loop condition.tree body.tree
  | forLoop _ _ initializer condition _ increment _ body =>
    let once := match increment.tree with
      | some e => .block [body.tree, .expression e]
      | none => body.tree
    let loop := .loop (condition.tree.getD (.literal (.bool true))) once
    match initializer.tree with
    | some s => .block [s, loop]
    | none => loop
  | returning kw value _ => .result kw.token value.tree
  | compound b => .block b.tree
  | expressionStatement e _ => .expression e.tree
  | noInitializer _ => none
  | varInitializer v => some v.tree
  | simpleInitializer s => some s.tree
  | noExpression => none
  | someExpression e => some e.tree
  | assign target _ value =>
    match target.tree with
    | .variable name => .assign name value.tree
    | other => other
  | disjunction e => e.tree
  | chain first rest => rest.tree first.tree
  | noOperator => id
  | moreOperators (l := l) operator right rest => fun left =>
    rest.tree (if isLogical l then .logical left operator.token right.tree
      else .binary left operator.token right.tree)
  | tighter _ e => e.tree
  | tightest e => e.tree
  | prefixed operator right => .unary operator.token right.tree
  | call callee rest => rest.tree callee.tree
  | noCall => id
  | moreCalls _ args closing rest => fun callee =>
    rest.tree (.call callee closing.token args.tree)
  | noArguments => []
  | someArguments args => args.tree
  | lastArgument e => [e.tree]
  | moreArguments e _ rest => e.tree :: rest.tree
  | literal t => .literal (literalOf t.token)
  | named t => .variable t.token
  | grouping _ e _ => .grouping e.tree

/-- Whether a statement ends with an `if` that has no `else`, and so could take one. -/
def endsOpen {c : Category} : Derivation c → Bool
  | ifOnly .. => true
  | ifElse _ _ _ _ _ _ elseBranch => elseBranch.endsOpen
  | whileLoop _ _ _ _ body => body.endsOpen
  | forLoop _ _ _ _ _ _ _ body => body.endsOpen
  | _ => false

/-- `P` holds of a derivation and of all derivations in it. It is told how many function bodies
are around each of them. -/
def All (P : {c : Category} → Nat → Derivation c → Prop) {c : Category} (depth : Nat) :
    Derivation c → Prop
  | d@(moreDeclarations first rest) => P depth d ∧ first.All P depth ∧ rest.All P depth
  | d@(variableDeclaration v) => P depth d ∧ v.All P depth
  | d@(function _ _ _ _ _ body) => P depth d ∧ body.All P (depth + 1)
  | d@(statement s) => P depth d ∧ s.All P depth
  | d@(varWith _ _ _ e _) => P depth d ∧ e.All P depth
  | d@(block _ body _) => P depth d ∧ body.All P depth
  | d@(simple s) => P depth d ∧ s.All P depth
  | d@(print _ e _) => P depth d ∧ e.All P depth
  | d@(ifOnly _ _ condition _ thenBranch) =>
    P depth d ∧ condition.All P depth ∧ thenBranch.All P depth
  | d@(ifElse _ _ condition _ thenBranch _ elseBranch) =>
    P depth d ∧ condition.All P depth ∧ thenBranch.All P depth ∧ elseBranch.All P depth
  | d@(whileLoop _ _ condition _ body) => P depth d ∧ condition.All P depth ∧ body.All P depth
  | d@(forLoop _ _ initializer condition _ increment _ body) =>
    P depth d ∧ initializer.All P depth ∧ condition.All P depth ∧ increment.All P depth ∧
      body.All P depth
  | d@(returning _ value _) => P depth d ∧ value.All P depth
  | d@(compound b) => P depth d ∧ b.All P depth
  | d@(expressionStatement e _) => P depth d ∧ e.All P depth
  | d@(varInitializer v) => P depth d ∧ v.All P depth
  | d@(simpleInitializer s) => P depth d ∧ s.All P depth
  | d@(someExpression e) => P depth d ∧ e.All P depth
  | d@(assign target _ value) => P depth d ∧ target.All P depth ∧ value.All P depth
  | d@(disjunction e) => P depth d ∧ e.All P depth
  | d@(chain first rest) => P depth d ∧ first.All P depth ∧ rest.All P depth
  | d@(moreOperators _ right rest) => P depth d ∧ right.All P depth ∧ rest.All P depth
  | d@(tighter _ e) => P depth d ∧ e.All P depth
  | d@(tightest e) => P depth d ∧ e.All P depth
  | d@(prefixed _ right) => P depth d ∧ right.All P depth
  | d@(call callee rest) => P depth d ∧ callee.All P depth ∧ rest.All P depth
  | d@(moreCalls _ args _ rest) => P depth d ∧ args.All P depth ∧ rest.All P depth
  | d@(someArguments args) => P depth d ∧ args.All P depth
  | d@(lastArgument e) => P depth d ∧ e.All P depth
  | d@(moreArguments e _ rest) => P depth d ∧ e.All P depth ∧ rest.All P depth
  | d@(grouping _ e _) => P depth d ∧ e.All P depth
  | d@noDeclaration => P depth d
  | d@(varWithout ..) => P depth d
  | d@(noInitializer _) => P depth d
  | d@noExpression => P depth d
  | d@noOperator => P depth d
  | d@noCall => P depth d
  | d@noArguments => P depth d
  | d@(literal _) => P depth d
  | d@(named _) => P depth d

theorem all_and {P Q : {c : Category} → Nat → Derivation c → Prop} {c : Category}
    (d : Derivation c) (depth : Nat) :
    d.All (fun n part => P n part ∧ Q n part) depth ↔ d.All P depth ∧ d.All Q depth := by
  induction d generalizing depth <;> simp only [All, *, and_and_and_comm]

def IsName {c : Category} (d : Derivation c) : Prop :=
  ∃ name : Mark .identifier, d.tokens = [name.token]

/-- If a derivation is an assignment, a name stands in front of its equals sign. -/
def AssignsName {c : Category} : Derivation c → Prop
  | assign target _ _ => target.IsName
  | _ => True

/-- If a derivation has a list of parameters or arguments, it has at most 255 entries. -/
def HasShortList {c : Category} : Derivation c → Prop
  | function _ _ _ params _ _ => params.list.length ≤ 255
  | someArguments args => args.tree.length ≤ 255
  | _ => True

def ReturnsInFunction {c : Category} (depth : Nat) : Derivation c → Prop
  | returning .. => 0 < depth
  | _ => True

/-- If a derivation is an `if` with an `else`, no `if` between the two is left without one. -/
def NearestTakesElse {c : Category} : Derivation c → Prop
  | ifElse _ _ _ _ thenBranch _ _ => thenBranch.endsOpen = false
  | _ => True

def AssignsNames {c : Category} (d : Derivation c) : Prop :=
  d.All (fun _ part => part.AssignsName) 0

def ShortLists {c : Category} (d : Derivation c) : Prop :=
  d.All (fun _ part => part.HasShortList) 0

def ReturnsInFunctions {c : Category} (d : Derivation c) : Prop :=
  d.All (fun depth part => part.ReturnsInFunction depth) 0

/-- Each `else` belongs to the nearest `if` that can take it. -/
def ElseNearest {c : Category} (d : Derivation c) : Prop :=
  d.All (fun _ part => part.NearestTakesElse) 0

end Derivation

end Grammar

end Lox
