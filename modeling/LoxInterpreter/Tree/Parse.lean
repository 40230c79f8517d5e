import LoxInterpreter.Diagnostic
import LoxInterpreter.Step
import LoxInterpreter.Tree

/-!
Parsing: from the tokens of a program to its statements, by recursive descent.

```
program     ::= declaration* EOF
declaration ::= "var" IDENTIFIER ( "=" expression )? ";"
              | "fun" IDENTIFIER "(" parameters? ")" block
              | statement
statement   ::= expression ";" | "print" expression ";" | "return" expression? ";" | block
              | "if" "(" expression ")" statement ( "else" statement )?
              | "while" "(" expression ")" statement
              | "for" "(" ( varDecl | exprStmt | ";" ) expression? ";" expression? ")" statement
block       ::= "{" declaration* "}"
expression  ::= IDENTIFIER "=" expression | disjunction
disjunction ::= conjunction ( "or" conjunction )*
conjunction ::= equality ( "and" equality )*
equality    ::= comparison ( ( "!=" | "==" ) comparison )*
comparison  ::= term ( ( ">" | ">=" | "<" | "<=" ) term )*
term        ::= factor ( ( "-" | "+" ) factor )*
factor      ::= unary ( ( "/" | "*" ) unary )*
unary       ::= ( "!" | "-" ) unary | call
call        ::= primary ( "(" arguments? ")" )*
primary     ::= NUMBER | STRING | "true" | "false" | "nil" | IDENTIFIER | "(" expression ")"
```

An error never ends the parse. It is recorded, the parser skips to the next place where a
statement is likely to begin, and goes on there.
-/

namespace Lox

inductive Expectation
  | variableName | variableEnd
  | functionName | functionParen | parameterName | parametersEnd | functionBody
  | forParen | loopConditionEnd | forClausesEnd
  | ifParen | ifConditionEnd
  | whileParen | whileConditionEnd
  | printedValueEnd | returnValueEnd | expressionEnd
  | blockEnd | argumentsEnd | groupingEnd
  deriving DecidableEq, Repr

namespace Expectation

def kind : Expectation → Kind
  | variableName | functionName | parameterName => .identifier
  | functionParen | forParen | ifParen | whileParen => .leftParen
  | parametersEnd | forClausesEnd | ifConditionEnd | whileConditionEnd | argumentsEnd
  | groupingEnd => .rightParen
  | functionBody => .leftBrace
  | blockEnd => .rightBrace
  | variableEnd | loopConditionEnd | printedValueEnd | returnValueEnd | expressionEnd =>
    .semicolon

def message : Expectation → String
  | variableName => "Expect variable name."
  | variableEnd => "Expect ';' after variable declaration."
  | functionName => "Expect function name."
  | functionParen => "Expect '(' after function name."
  | parameterName => "Expect parameter name."
  | parametersEnd => "Expect ')' after parameters."
  | functionBody => "Expect '\x7b' before function body."
  | forParen => "Expect '(' after 'for'."
  | loopConditionEnd => "Expect ';' after loop condition."
  | forClausesEnd => "Expect ')' after for clauses."
  | ifParen => "Expect '(' after 'if'."
  | ifConditionEnd => "Expect ')' after if condition."
  | whileParen => "Expect '(' after 'while'."
  | whileConditionEnd => "Expect ')' after condition."
  | printedValueEnd => "Expect ';' after value."
  | returnValueEnd => "Expect ';' after return value."
  | expressionEnd => "Expect ';' after expression."
  | blockEnd => "Expect '\x7d' after block."
  | argumentsEnd => "Expect ')' after arguments."
  | groupingEnd => "Expect ')' after expression."

end Expectation

inductive SyntaxCause
  | expected (e : Expectation)
  | expectedExpression
  | tooManyParameters
  | tooManyArguments
  | invalidTarget
  | topLevelReturn
  deriving DecidableEq, Repr

def SyntaxCause.message : SyntaxCause → String
  | expected e => e.message
  | expectedExpression => "Expect expression."
  | tooManyParameters => "Can't have more than 255 parameters."
  | tooManyArguments => "Can't have more than 255 arguments."
  | invalidTarget => "Invalid assignment target."
  | topLevelReturn => "Can't return from top-level code."

structure SyntaxError where
  token : Token
  cause : SyntaxCause

def SyntaxError.toDiagnostic (e : SyntaxError) : Diagnostic :=
  Diagnostic.atToken .parse e.token e.cause.message

namespace Parse

/-- Longer lists of parameters or arguments are errors. -/
def maxArguments : Nat := 255

/-- The levels of binary operators, the loosest first. -/
inductive Level
  | disjunction | conjunction | equality | comparison | term | factor
  deriving DecidableEq, Repr

namespace Level

/-- The level of the operands, where it is one of binary operators. -/
def tighter? : Level → Option Level
  | disjunction => some .conjunction
  | conjunction => some .equality
  | equality => some .comparison
  | comparison => some .term
  | term => some .factor
  | factor => none

def joins : Level → Kind → Bool
  | disjunction, k => k == .keyword .orWord
  | conjunction, k => k == .keyword .andWord
  | equality, k => k == .bangEqual || k == .equalEqual
  | comparison, k => k == .greater || k == .greaterEqual || k == .less || k == .lessEqual
  | term, k => k == .minus || k == .plus
  | factor, k => k == .slash || k == .star

def join : Level → Expr → Token → Expr → Expr
  | disjunction, l, op, r => .logical l op r
  | conjunction, l, op, r => .logical l op r
  | _, l, op, r => .binary l op r

end Level

def isUnaryOperator (k : Kind) : Bool := k == .bang || k == .minus

/-- Whether a kind of token begins a statement, and so is a safe place to go on after an
error. -/
def startsStatement (k : Kind) : Bool :=
  [Keyword.classWord, .funWord, .varWord, .forWord, .ifWord, .whileWord, .printWord,
    .returnWord].any (k == .keyword ·)

/-- Skips to just after a semicolon or just before a token that begins a statement, if `last`
is the token skipped last. -/
def skipFrom (last : Token) : List Token → List Token
  | [] => []
  | t :: ts =>
    if t.kind = .eof || last.kind = .semicolon || startsStatement t.kind then t :: ts
    else skipFrom t ts

/-- Skips at least one token, unless the text ends there. -/
def resynchronize : List Token → List Token
  | [] => []
  | t :: ts => if t.kind = .eof then t :: ts else skipFrom t ts

theorem skipFrom_isSuffix (last : Token) (ts : List Token) : skipFrom last ts <:+ ts := by
  induction ts generalizing last with
  | nil => exact List.suffix_refl _
  | cons t ts ih =>
    unfold skipFrom
    split
    · exact List.suffix_refl _
    · exact (ih t).trans (List.suffix_cons t ts)

theorem resynchronize_isSuffix (ts : List Token) : resynchronize ts <:+ ts := by
  unfold resynchronize
  split
  · exact List.suffix_refl _
  next t ts =>
    split
    · exact List.suffix_refl _
    · exact (skipFrom_isSuffix t ts).trans (List.suffix_cons t ts)

/-- What a parser works on: the tokens ahead, the errors so far, and how many function bodies
it is in. -/
structure State where
  rest : List Token
  errors : List SyntaxError
  depth : Nat

inductive Stop
  /-- A syntax error, which is recorded. -/
  | malformed
  /-- A token was asked for after the last one. -/
  | noToken
  /-- The bound on recursion was reached. -/
  | exhausted
  deriving DecidableEq, Repr

/-- A parser keeps the state it reached also when it gives up. -/
abbrev Parser := Step State Stop

def peek : Parser Token := fun s =>
  match s.rest with
  | t :: _ => .ok t s
  | [] => .error .noToken s

@[simp] theorem peek_cons (t : Token) (ts : List Token) (errors : List SyntaxError)
    (depth : Nat) : peek ⟨t :: ts, errors, depth⟩ = .ok t ⟨t :: ts, errors, depth⟩ := rfl

def advance : Parser Unit := fun s =>
  match s.rest with
  | [] => .ok () s
  | _ :: rest => .ok () { s with rest }

@[simp] theorem advance_cons (t : Token) (ts : List Token) (errors : List SyntaxError)
    (depth : Nat) : advance ⟨t :: ts, errors, depth⟩ = .ok () ⟨ts, errors, depth⟩ := rfl

/-- Records an error and goes on. -/
def note (t : Token) (cause : SyntaxCause) : Parser Unit := fun s =>
  .ok () { s with errors := s.errors ++ [⟨t, cause⟩] }

/-- Records an error and gives up. -/
def fail {α : Type} (t : Token) (cause : SyntaxCause) : Parser α := do
  note t cause
  throw .malformed

def check (k : Kind) : Parser Bool := do
  let t ← peek
  return t.kind == k

def acceptWhen (right : Kind → Bool) : Parser (Option Token) := do
  let t ← peek
  if right t.kind then
    advance
    return some t
  else
    return none

def accept (k : Kind) : Parser (Option Token) := acceptWhen (· == k)

def expect (e : Expectation) : Parser Token := do
  let t ← peek
  if t.kind == e.kind then
    advance
    return t
  else
    fail t (.expected e)

/-- Records an error at the next token if a list has `count` entries and that is all it may
have. -/
def limit (count : Nat) (cause : SyntaxCause) : Parser Unit := do
  if maxArguments ≤ count then
    note (← peek) cause
  else
    return ()

/-- What `p` reads after a token of a kind, if such a token comes next. -/
def afterOptional {α : Type} (k : Kind) (p : Parser α) : Parser (Option α) := do
  match ← accept k with
  | some _ => some <$> p
  | none => return none

def unlessNext {α : Type} (k : Kind) (p : Parser α) : Parser (Option α) := do
  if ← check k then return none else some <$> p

/-- The list that `p` reads, which is empty if a closing parenthesis comes next. -/
def listBeforeParen {α : Type} (p : Parser (List α)) : Parser (List α) := do
  if ← check .rightParen then return [] else p

def inFunction {α : Type} (p : Parser α) : Parser α := fun s =>
  match p { s with depth := s.depth + 1 } with
  | .ok a s => .ok a { s with depth := s.depth - 1 }
  | .error e s => .error e { s with depth := s.depth - 1 }

def rejectTopLevel (keyword : Token) : Parser Unit := fun s =>
  if s.depth = 0 then note keyword .topLevelReturn s else .ok () s

theorem rejectTopLevel_apply (keyword : Token) (s : State) : rejectTopLevel keyword s =
    (if s.depth = 0 then note keyword .topLevelReturn else return ()) s := by
  unfold rejectTopLevel
  split <;> rfl

def recovering {α : Type} (p : Parser α) : Parser (Option α) := fun s =>
  match p s with
  | .ok a s => .ok (some a) s
  | .error .malformed s => .ok none { s with rest := resynchronize s.rest }
  | .error e s => .error e s

/-- The while loop that stands for a `for` statement: the body is followed by the increment,
a missing condition is true, and an initializer comes first, in a block of its own. -/
def forLoop (initializer : Option Stmt) (condition increment : Option Expr) (body : Stmt) :
    Stmt :=
  let body := match increment with
    | some e => .block [body, .expression e]
    | none => body
  let loop := .loop (condition.getD (.literal (.bool true))) body
  match initializer with
  | some s => .block [s, loop]
  | none => loop

/-- The parameters of a function, after the first `count`. -/
def parameters : Nat → Nat → Parser (List Token)
  | 0, _ => throw .exhausted
  | fuel + 1, count => do
    limit count .tooManyParameters
    let name ← expect .parameterName
    match ← accept .comma with
    | some _ => return name :: (← parameters fuel (count + 1))
    | none => return [name]

mutual

def expression : Nat → Parser Expr
  | 0 => throw .exhausted
  | fuel + 1 => do
    let target ← chain fuel .disjunction
    match ← accept .equal with
    | none => return target
    | some equals =>
      let value ← expression fuel
      match target with
      | .variable name => return .assign name value
      | _ =>
        note equals .invalidTarget
        return target

def chain : Nat → Level → Parser Expr
  | 0, _ => throw .exhausted
  | fuel + 1, level => do
    let left ← operand fuel level
    chainAfter fuel level left

/-- More operators of a level and their right operands, after `left`. -/
def chainAfter : Nat → Level → Expr → Parser Expr
  | 0, _, _ => throw .exhausted
  | fuel + 1, level, left => do
    match ← acceptWhen level.joins with
    | none => return left
    | some op =>
      let right ← operand fuel level
      chainAfter fuel level (level.join left op right)

def operand : Nat → Level → Parser Expr
  | 0, _ => throw .exhausted
  | fuel + 1, level =>
    match level.tighter? with
    | some next => chain fuel next
    | none => unary fuel

def unary : Nat → Parser Expr
  | 0 => throw .exhausted
  | fuel + 1 => do
    match ← acceptWhen isUnaryOperator with
    | some op => return .unary op (← unary fuel)
    | none =>
      let callee ← primary fuel
      callAfter fuel callee

/-- Lists of arguments after an expression, each of which calls what stands before it. -/
def callAfter : Nat → Expr → Parser Expr
  | 0, _ => throw .exhausted
  | fuel + 1, callee => do
    match ← accept .leftParen with
    | none => return callee
    | some _ =>
      let args ← listBeforeParen (arguments fuel 0)
      let paren ← expect .argumentsEnd
      callAfter fuel (.call callee paren args)

def arguments : Nat → Nat → Parser (List Expr)
  | 0, _ => throw .exhausted
  | fuel + 1, count => do
    limit count .tooManyArguments
    let e ← expression fuel
    match ← accept .comma with
    | some _ => return e :: (← arguments fuel (count + 1))
    | none => return [e]

def primary : Nat → Parser Expr
  | 0 => throw .exhausted
  | fuel + 1 => do
    let t ← peek
    match t.kind with
    | .keyword .falseWord =>
      advance
      return .literal (.bool false)
    | .keyword .trueWord =>
      advance
      return .literal (.bool true)
    | .keyword .nilWord =>
      advance
      return .literal .nil
    | .number | .string =>
      advance
      return .literal t.literal
    | .identifier =>
      advance
      return .variable t
    | .leftParen =>
      advance
      let inner ← expression fuel
      let _ ← expect .groupingEnd
      return .grouping inner
    | _ => fail t .expectedExpression

end

def expressionStatement (fuel : Nat) : Parser Stmt := do
  let e ← expression fuel
  let _ ← expect .expressionEnd
  return .expression e

def varDeclaration (fuel : Nat) : Parser Stmt := do
  let name ← expect .variableName
  let initializer ← afterOptional .equal (expression fuel)
  let _ ← expect .variableEnd
  return .var name initializer

def printStatement (fuel : Nat) : Parser Stmt := do
  let e ← expression fuel
  let _ ← expect .printedValueEnd
  return .print e

def returnStatement (fuel : Nat) (keyword : Token) : Parser Stmt := do
  rejectTopLevel keyword
  let value ← unlessNext .semicolon (expression fuel)
  let _ ← expect .returnValueEnd
  return .result keyword value

def forInitializer (fuel : Nat) : Parser (Option Stmt) := do
  match (← peek).kind with
  | .semicolon =>
    advance
    return none
  | .keyword .varWord =>
    advance
    some <$> varDeclaration fuel
  | _ => some <$> expressionStatement fuel

mutual

/-- A declaration or a statement, or nothing where it is malformed. -/
def declaration : Nat → Parser (Option Stmt)
  | 0 => throw .exhausted
  | fuel + 1 => recovering do
    match (← peek).kind with
    | .keyword .varWord =>
      advance
      varDeclaration fuel
    | .keyword .funWord =>
      advance
      functionDeclaration fuel
    | _ => statement fuel

/-- Declarations up to the end of the text or, in a block, up to its closing brace. -/
def declarations : Nat → Bool → Parser (List Stmt)
  | 0, _ => throw .exhausted
  | fuel + 1, inBlock => do
    let k := (← peek).kind
    if k == .eof || (inBlock && k == .rightBrace) then
      return []
    else
      match ← declaration fuel with
      | some s => return s :: (← declarations fuel inBlock)
      | none => declarations fuel inBlock

def block : Nat → Parser (List Stmt)
  | 0 => throw .exhausted
  | fuel + 1 => do
    let body ← declarations fuel true
    let _ ← expect .blockEnd
    return body

def functionDeclaration : Nat → Parser Stmt
  | 0 => throw .exhausted
  | fuel + 1 => do
    let name ← expect .functionName
    let _ ← expect .functionParen
    let params ← listBeforeParen (parameters fuel 0)
    let _ ← expect .parametersEnd
    let _ ← expect .functionBody
    let body ← inFunction (block fuel)
    return .function name params body

def statement : Nat → Parser Stmt
  | 0 => throw .exhausted
  | fuel + 1 => do
    let t ← peek
    match t.kind with
    | .keyword .forWord =>
      advance
      forStatement fuel
    | .keyword .ifWord =>
      advance
      let _ ← expect .ifParen
      let condition ← expression fuel
      let _ ← expect .ifConditionEnd
      let thenBranch ← statement fuel
      let elseBranch ← afterOptional (.keyword .elseWord) (statement fuel)
      return .conditional condition thenBranch elseBranch
    | .keyword .printWord =>
      advance
      printStatement fuel
    | .keyword .returnWord =>
      advance
      returnStatement fuel t
    | .keyword .whileWord =>
      advance
      let _ ← expect .whileParen
      let condition ← expression fuel
      let _ ← expect .whileConditionEnd
      return .loop condition (← statement fuel)
    | .leftBrace =>
      advance
      return .block (← block fuel)
    | _ => expressionStatement fuel

def forStatement : Nat → Parser Stmt
  | 0 => throw .exhausted
  | fuel + 1 => do
    let _ ← expect .forParen
    let initializer ← forInitializer fuel
    let condition ← unlessNext .semicolon (expression fuel)
    let _ ← expect .loopConditionEnd
    let increment ← unlessNext .rightParen (expression fuel)
    let _ ← expect .forClausesEnd
    let body ← statement fuel
    return forLoop initializer condition increment body

end

/-- A bound on recursion that no list of tokens reaches. -/
def fuelFor (tokens : List Token) : Nat := 32 * (tokens.length + 1)

end Parse

/-- What a parse gives: the statements that are well formed, and all errors. -/
structure Parsed where
  statements : List Stmt
  errors : List SyntaxError

/-- The statements of a list of tokens, the last of which is its only end of text. -/
def parse (tokens : List Token) : Parsed :=
  match Parse.declarations (Parse.fuelFor tokens) false ⟨tokens, [], 0⟩ with
  | .ok statements s => ⟨statements, s.errors⟩
  | .error _ s => ⟨[], s.errors⟩

end Lox
