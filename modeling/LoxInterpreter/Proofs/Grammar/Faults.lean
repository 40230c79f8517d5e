import LoxInterpreter.Proofs.Grammar.FirstToken

/-!
The mistakes that a derivation can have although its tokens are in the grammar. They are the
errors after which a parser goes on as if nothing had happened.
-/

namespace Lox

namespace Grammar

open Parse (Level)

/-- The fault of an entry of a list after `count` others, whose tokens begin with `tokens`. -/
def overlong (cause : SyntaxCause) (count : Nat) (tokens : List Token) : List SyntaxError :=
  if count < 255 then [] else (tokens.head?.map (⟨·, cause⟩)).toList

def Names.faults (count : Nat) : Names → List SyntaxError
  | last name => overlong .tooManyParameters count [name.token]
  | more name _ rest =>
    overlong .tooManyParameters count [name.token] ++ rest.faults (count + 1)

def Parameters.faults : Parameters → List SyntaxError
  | none => []
  | some names => names.faults 0

namespace Derivation

/-- The faults of a derivation inside of `depth` function bodies, in the order in which they are
noticed. -/
def faults {c : Category} : Derivation c → Nat → List SyntaxError
  | moreDeclarations first rest, depth => first.faults depth ++ rest.faults depth
  | variableDeclaration v, depth => v.faults depth
  | function _ _ _ params _ body, depth => params.faults ++ body.faults (depth + 1)
  | statement s, depth => s.faults depth
  | varWith _ _ _ e _, depth => e.faults depth
  | block _ body _, depth => body.faults depth
  | simple s, depth => s.faults depth
  | print _ e _, depth => e.faults depth
  | ifOnly _ _ condition _ thenBranch, depth => condition.faults depth ++ thenBranch.faults depth
  | ifElse _ _ condition _ thenBranch _ elseBranch, depth =>
    condition.faults depth ++ thenBranch.faults depth ++ elseBranch.faults depth
  | whileLoop _ _ condition _ body, depth => condition.faults depth ++ body.faults depth
  | forLoop _ _ initializer condition _ increment _ body, depth =>
    initializer.faults depth ++ condition.faults depth ++ increment.faults depth ++
      body.faults depth
  | returning kw value _, depth =>
    (if depth = 0 then [⟨kw.token, .topLevelReturn⟩] else []) ++ value.faults depth
  | compound b, depth => b.faults depth
  | expressionStatement e _, depth => e.faults depth
  | varInitializer v, depth => v.faults depth
  | simpleInitializer s, depth => s.faults depth
  | someExpression e, depth => e.faults depth
  | assign target equals value, depth =>
    target.faults depth ++ value.faults depth ++
      match target.tree with
      | .variable _ => []
      | _ => [⟨equals.token, .invalidTarget⟩]
  | disjunction e, depth => e.faults depth
  | chain first rest, depth => first.faults depth ++ rest.faults depth
  | moreOperators _ right rest, depth => right.faults depth ++ rest.faults depth
  | tighter _ e, depth => e.faults depth
  | tightest e, depth => e.faults depth
  | prefixed _ right, depth => right.faults depth
  | call callee rest, depth => callee.faults depth ++ rest.faults depth
  | moreCalls _ args _ rest, depth => args.faults depth ++ rest.faults depth
  | someArguments args, depth => args.faults depth
  | lastArgument (n := n) e, depth => overlong .tooManyArguments n e.tokens ++ e.faults depth
  | moreArguments (n := n) e _ rest, depth =>
    overlong .tooManyArguments n e.tokens ++ e.faults depth ++ rest.faults depth
  | grouping _ e _, depth => e.faults depth
  | noDeclaration, _ | varWithout .., _ | noInitializer _, _ | noExpression, _ | noOperator, _
  | noCall, _ | noArguments, _ | literal _, _ | named _, _ => []

def Faultless {c : Category} (depth : Nat) (d : Derivation c) : Prop :=
  d.AssignsName ∧ d.HasShortList ∧ d.ReturnsInFunction depth

def Fits : {c : Category} → Derivation c → Prop
  | .arguments n, d => n + List.length d.tree ≤ 255
  | _, _ => True

end Derivation

theorem overlong_append {cause : SyntaxCause} {count : Nat} {right : Kind → Prop}
    {tokens : List Token} (h : Begins right tokens) (more : List Token) :
    overlong cause count (tokens ++ more) = overlong cause count tokens := by
  obtain ⟨t, ts, rfl, -⟩ := h
  rfl

theorem overlong_eq_nil_iff {cause : SyntaxCause} {count : Nat} {right : Kind → Prop}
    {tokens : List Token} (h : Begins right tokens) :
    overlong cause count tokens = [] ↔ count < 255 := by
  obtain ⟨t, ts, rfl, -⟩ := h
  simp [overlong]

theorem Names.faults_eq_nil_iff (names : Names) (count : Nat) :
    names.faults count = [] ↔ count + names.list.length ≤ 255 := by
  induction names generalizing count with
  | last name =>
    rw [Names.faults, overlong_eq_nil_iff (.cons name.kind_mem [])]
    simp only [Names.list, List.length_singleton]
    omega
  | more name _ rest ih =>
    rw [Names.faults, List.append_eq_nil_iff, ih,
      overlong_eq_nil_iff (.cons name.kind_mem [])]
    simp only [Names.list, List.length_cons]
    omega

theorem Parameters.faults_eq_nil_iff (params : Parameters) :
    params.faults = [] ↔ params.list.length ≤ 255 := by
  cases params with
  | none => simp [Parameters.faults, Parameters.list]
  | some names =>
    rw [Parameters.faults, names.faults_eq_nil_iff, Parameters.list, Nat.zero_add]

namespace Derivation

/-- A derivation has no faults exactly if none of its parts has one of its own. -/
theorem faults_eq_nil_iff {c : Category} (d : Derivation c) (depth : Nat) :
    d.faults depth = [] ↔ d.All Faultless depth ∧ d.Fits := by
  induction d generalizing depth with
  | function _ _ _ params _ body ih =>
    simp only [faults, All, List.append_eq_nil_iff, ih, params.faults_eq_nil_iff]
    simp only [Faultless, AssignsName, HasShortList, ReturnsInFunction, Fits, and_true, true_and]
  | returning kw value _ ih =>
    simp only [faults, All, List.append_eq_nil_iff, ih]
    simp only [Faultless, AssignsName, HasShortList, ReturnsInFunction, Fits, and_true, true_and,
      Nat.pos_iff_ne_zero, ite_eq_right_iff, reduceCtorEq, imp_false]
  | assign target equals value ihtarget ihvalue =>
    have htarget : (match target.tree with
        | .variable _ => []
        | _ => [SyntaxError.mk equals.token .invalidTarget]) = [] ↔ target.IsName := by
      rw [isName_chain_iff]
      split <;> simp_all
    simp only [faults, All, List.append_eq_nil_iff, ihtarget, ihvalue, htarget]
    simp only [Faultless, AssignsName, HasShortList, ReturnsInFunction, Fits, and_true]
    exact and_comm
  | someArguments args ih =>
    simp only [faults, All, ih]
    simp only [Faultless, AssignsName, HasShortList, ReturnsInFunction, Fits, true_and,
      Nat.zero_add, and_comm]
  | lastArgument e ih =>
    simp only [faults, All, List.append_eq_nil_iff, ih, overlong_eq_nil_iff (e.begins rfl)]
    simp only [Faultless, AssignsName, HasShortList, ReturnsInFunction, Fits, tree, and_true,
      true_and, List.length_singleton, Nat.lt_iff_add_one_le, and_comm]
  | moreArguments e comma rest ihe ihrest =>
    simp only [faults, All, List.append_eq_nil_iff, ihe, ihrest,
      overlong_eq_nil_iff (e.begins rfl)]
    simp only [Faultless, AssignsName, HasShortList, ReturnsInFunction, Fits, tree, and_true,
      true_and, List.length_cons]
    constructor
    · rintro ⟨⟨-, he⟩, hrest, hlength⟩
      exact ⟨⟨he, hrest⟩, by omega⟩
    · rintro ⟨⟨he, hrest⟩, hlength⟩
      exact ⟨⟨by omega, he⟩, hrest, by omega⟩
  | _ =>
    simp only [faults, All, List.append_eq_nil_iff, and_assoc, *]
    simp only [Faultless, AssignsName, HasShortList, ReturnsInFunction, Fits, and_true, true_and]

/-- The derivations without faults are those of programs that are not rejected. -/
theorem faults_zero_eq_nil_iff {c : Category} (d : Derivation c) (hfits : d.Fits) :
    d.faults 0 = [] ↔ d.AssignsNames ∧ d.ShortLists ∧ d.ReturnsInFunctions := by
  rw [faults_eq_nil_iff, AssignsNames, ShortLists, ReturnsInFunctions, ← all_and, ← all_and]
  exact and_iff_left hfits

end Derivation

end Grammar

end Lox
