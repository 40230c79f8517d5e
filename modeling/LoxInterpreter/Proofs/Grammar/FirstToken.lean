import LoxInterpreter.Proofs.Grammar.Derivation

/-!
What the tokens of a derivation begin with, and when they are a single name.
-/

namespace Lox

namespace Grammar

open Parse (Level)

def primaryFirsts : List Kind := [.identifier, .leftParen] ++ literals

def expressionFirsts : List Kind := [.bang, .minus] ++ primaryFirsts

def statementFirsts : List Kind :=
  [.keyword .printWord, .keyword .ifWord, .keyword .whileWord, .keyword .forWord,
    .keyword .returnWord, .leftBrace] ++ expressionFirsts

def declarationFirsts : List Kind :=
  [.keyword .varWord, .keyword .funWord] ++ statementFirsts

/-- The kinds of tokens that the derivations of a category can begin with, if all of them have
tokens. -/
def Category.firsts? : Category → Option (List Kind)
  | primary => some primaryFirsts
  | expressionStatement | expression | chain _ | operand _ | unary | arguments _ =>
    some expressionFirsts
  | varDeclaration => some [.keyword .varWord]
  | block => some [.leftBrace]
  | forInitializer => some ([.semicolon, .keyword .varWord] ++ expressionFirsts)
  | statement => some statementFirsts
  | declaration => some declarationFirsts
  | declarations | optionalExpression | chainRest _ | callRest | optionalArguments => none

def Begins (right : Kind → Prop) (ts : List Token) : Prop :=
  ∃ t rest, ts = t :: rest ∧ right t.kind

namespace Begins

variable {right more : Kind → Prop} {ts : List Token}

theorem append (h : Begins right ts) (us : List Token) : Begins right (ts ++ us) := by
  obtain ⟨t, rest, rfl, ht⟩ := h
  exact ⟨t, rest ++ us, rfl, ht⟩

theorem mono (h : Begins right ts) (hsub : ∀ k, right k → more k) : Begins more ts := by
  obtain ⟨t, rest, hts, ht⟩ := h
  exact ⟨t, rest, hts, hsub _ ht⟩

theorem cons {t : Token} (h : right t.kind) (ts : List Token) : Begins right (t :: ts) :=
  ⟨t, ts, rfl, h⟩

theorem any (t : Token) (ts : List Token) : Begins (fun _ => True) (t :: ts) := cons trivial ts

/-- Whatever stands in front, there is a first token. -/
theorem prepend (h : Begins right ts) (us : List Token) :
    Begins (fun _ => True) (us ++ ts) := by
  cases us with
  | nil => exact h.mono fun _ _ => trivial
  | cons u us => exact any u _

theorem length_pos (h : Begins right ts) : 0 < ts.length := by
  obtain ⟨t, rest, rfl, -⟩ := h
  exact Nat.succ_pos _

end Begins

namespace Derivation

/-- Every derivation of such a category begins with a token of one of its kinds. -/
theorem begins {c : Category} (d : Derivation c) {kinds : List Kind}
    (h : c.firsts? = some kinds) : Begins (· ∈ kinds) d.tokens := by
  induction d generalizing kinds with
  | variableDeclaration _ ih | statement _ ih | simple _ ih | compound _ ih | varInitializer _ ih
  | simpleInitializer _ ih =>
    cases h
    exact (ih rfl).mono (by decide)
  | disjunction _ ih | tighter _ _ ih | tightest _ ih | lastArgument _ ih =>
    cases h
    exact ih rfl
  | expressionStatement _ _ ih | assign _ _ _ ih _ | chain _ _ ih _ | moreArguments _ _ _ ih _ =>
    cases h
    exact (ih rfl).append _
  | call _ _ ih _ =>
    cases h
    exact ((ih rfl).append _).mono (by decide)
  | function t | varWithout t | varWith t | block t | print t | ifOnly t | ifElse t
  | whileLoop t | forLoop t | returning t | noInitializer t | prefixed t | literal t | named t
  | grouping t =>
    cases h
    exact (Begins.cons t.kind_mem _).mono (by decide)
  | _ => cases h

/-- Operators make a tree that is no name. -/
theorem tree_ne_variable_of_chainRest {l : Level} (d : Derivation (.chainRest l)) {left : Expr}
    (h : ∀ name, left ≠ .variable name) (name : Token) : d.tree left ≠ .variable name := by
  match d with
  | noOperator => exact h name
  | moreOperators operator right rest =>
    refine tree_ne_variable_of_chainRest rest (fun name => ?_) name
    split <;> simp

/-- Calls make a tree that is no name. -/
theorem tree_ne_variable_of_callRest (d : Derivation .callRest) {callee : Expr}
    (h : ∀ name, callee ≠ .variable name) (name : Token) : d.tree callee ≠ .variable name := by
  match d with
  | noCall => exact h name
  | moreCalls _ args closing rest =>
    exact tree_ne_variable_of_callRest rest (fun name => by simp) name

/-- Tokens with something in front of a token are more than a name. -/
theorem not_isName_of_begins {c : Category} {d : Derivation c} {right : Kind → Prop}
    {ts more : List Token} {t : Token} (h : Begins right ts) (hd : d.tokens = ts ++ t :: more) :
    ¬ d.IsName := by
  rintro ⟨name, hname⟩
  obtain ⟨u, rest, rfl, -⟩ := h
  rw [hname] at hd
  simp at hd

theorem isName_primary_iff (d : Derivation .primary) :
    d.IsName ↔ ∃ name, d.tree = .variable name := by
  match d with
  | literal t =>
    constructor
    · rintro ⟨name, hname⟩
      have ht : t.token = name.token := List.singleton_inj.1 hname
      have hk := t.kind_mem
      rw [ht, name.kind_eq] at hk
      exact absurd hk (by decide)
    · rintro ⟨name, hname⟩
      simp [tree] at hname
  | named t => exact ⟨fun _ => ⟨t.token, rfl⟩, fun _ => ⟨t, rfl⟩⟩
  | grouping opening e closing =>
    constructor
    · rintro ⟨name, hname⟩
      simp [tokens] at hname
    · rintro ⟨name, hname⟩
      simp [tree] at hname

theorem isName_unary_iff (d : Derivation .unary) :
    d.IsName ↔ ∃ name, d.tree = .variable name := by
  match d with
  | prefixed operator right =>
    constructor
    · rintro ⟨name, hname⟩
      obtain ⟨u, rest, hu, -⟩ := right.begins rfl
      simp [tokens, hu] at hname
    · rintro ⟨name, hname⟩
      simp [tree] at hname
  | call callee noCall =>
    have h := isName_primary_iff callee
    simpa [IsName, tokens, tree] using h
  | call callee (moreCalls opening args closing rest) =>
    constructor
    · exact fun h => absurd h (not_isName_of_begins (callee.begins rfl) rfl)
    · rintro ⟨name, hname⟩
      exact absurd hname (tree_ne_variable_of_callRest rest (fun _ => by simp) name)

/-- An expression is a name if and only if its tokens are one. -/
theorem isName_chain_iff {l : Level} (d : Derivation (.chain l)) :
    d.IsName ↔ ∃ name, d.tree = .variable name := by
  match d with
  | chain (tighter _ e) noOperator =>
    have ih := isName_chain_iff e
    simpa [IsName, tokens, tree] using ih
  | chain (tightest e) noOperator =>
    have h := isName_unary_iff e
    simpa [IsName, tokens, tree] using h
  | chain first (moreOperators operator right rest) =>
    constructor
    · exact fun h => absurd h (not_isName_of_begins (first.begins rfl) rfl)
    · rintro ⟨name, hname⟩
      refine absurd hname (tree_ne_variable_of_chainRest rest (fun _ => ?_) name)
      split <;> simp

end Derivation

end Grammar

end Lox
