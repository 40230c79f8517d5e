import LoxInterpreter.Tree

/-!
Parts of trees. An expression stands in other expressions and in statements, a statement stands in
other statements, and the body of a function is a part of its declaration. What holds of all parts
of a tree holds of the node at its root and of all parts below that.

Some statements bind names in the scope that they are executed in: declarations, and those that
have a declaration as a branch or as the body of a loop.
-/

namespace Lox

namespace Expr

def parts : Expr → List Expr
  | .literal _ | .variable _ => []
  | .grouping e | .unary _ e | .assign _ e => [e]
  | .binary left _ right | .logical left _ right => [left, right]
  | .call callee _ arguments => callee :: arguments

inductive Within (e : Expr) : Expr → Prop
  | self : Within e e
  | part {part whole : Expr} (hpart : part ∈ whole.parts) (h : Within e part) : Within e whole

/-- All expressions within an expression satisfy `P`. -/
def Every (P : Expr → Prop) (e : Expr) : Prop := ∀ inner : Expr, inner.Within e → P inner

variable {P : Expr → Prop} {e : Expr}

theorem every_iff : e.Every P ↔ P e ∧ ∀ part ∈ e.parts, part.Every P := by
  constructor
  · intro h
    exact ⟨h e .self, fun part hpart inner hinner => h inner (.part hpart hinner)⟩
  · rintro ⟨hself, hparts⟩ inner hinner
    cases hinner with
    | self => exact hself
    | part hpart hinner => exact hparts _ hpart inner hinner

theorem Every.root (h : e.Every P) : P e := h e .self

end Expr

namespace Stmt

/-- The expressions that stand directly in a statement. -/
def expressions : Stmt → List Expr
  | .expression e | .print e => [e]
  | .var _ initializer => initializer.toList
  | .conditional condition _ _ | .loop condition _ => [condition]
  | .result _ value => value.toList
  | .block _ | .function .. => []

def parts : Stmt → List Stmt
  | .block body | .function _ _ body => body
  | .conditional _ thenBranch elseBranch => thenBranch :: elseBranch.toList
  | .loop _ body => [body]
  | .expression _ | .print _ | .var .. | .result .. => []

inductive Within (s : Stmt) : Stmt → Prop
  | self : Within s s
  | part {part whole : Stmt} (hpart : part ∈ whole.parts) (h : Within s part) : Within s whole

/-- All expressions within a statement satisfy `P`, and all statements within it satisfy `Q`. -/
def Every (P : Expr → Prop) (Q : Stmt → Prop) (s : Stmt) : Prop :=
  ∀ inner : Stmt, inner.Within s → Q inner ∧ ∀ e ∈ inner.expressions, e.Every P

variable {P : Expr → Prop} {Q : Stmt → Prop} {s : Stmt}

theorem every_iff : s.Every P Q ↔
    Q s ∧ (∀ e ∈ s.expressions, e.Every P) ∧ ∀ part ∈ s.parts, part.Every P Q := by
  constructor
  · intro h
    have hself := h s .self
    exact ⟨hself.1, hself.2, fun part hpart inner hinner => h inner (.part hpart hinner)⟩
  · rintro ⟨hself, hexpressions, hparts⟩ inner hinner
    cases hinner with
    | self => exact ⟨hself, hexpressions⟩
    | part hpart hinner => exact hparts _ hpart inner hinner

/-- The token of the name that a declaration binds. -/
def declared? : Stmt → Option Token
  | .var name _ | .function name _ _ => some name
  | _ => none

/-- Whether a statement can bind a name in the scope that it is executed in. A block cannot, since
it opens a scope of its own. -/
def declares : Stmt → Bool
  | .var .. | .function .. => true
  | .conditional _ thenBranch none => thenBranch.declares
  | .conditional _ thenBranch (some elseBranch) => thenBranch.declares || elseBranch.declares
  | .loop _ body => body.declares
  | .expression _ | .print _ | .block _ | .result .. => false

/-- Names are bound by declarations only. -/
def Tidy (s : Stmt) : Prop := s.declares = true → s.declared?.isSome

end Stmt

def Expr.In (e : Expr) (program : List Stmt) : Prop :=
  ∃ s ∈ program, ∃ inner : Stmt, inner.Within s ∧ ∃ outer ∈ inner.expressions, e.Within outer

def Stmt.In (s : Stmt) (program : List Stmt) : Prop := ∃ outer ∈ program, s.Within outer

theorem Stmt.every_in {P : Expr → Prop} {Q : Stmt → Prop} {program : List Stmt}
    (h : ∀ s ∈ program, s.Every P Q) :
    (∀ e : Expr, e.In program → P e) ∧ ∀ s : Stmt, s.In program → Q s := by
  constructor
  · rintro e ⟨s, hs, inner, hinner, outer, houter, he⟩
    exact (h s hs inner hinner).2 outer houter e he
  · rintro s ⟨outer, houter, hs⟩
    exact (h outer houter s hs).1

/-- What all expressions and statements in a program satisfy, its statements satisfy throughout. -/
theorem Stmt.every_of_in {P : Expr → Prop} {Q : Stmt → Prop} {program : List Stmt}
    (hP : ∀ e : Expr, e.In program → P e) (hQ : ∀ s : Stmt, s.In program → Q s) :
    ∀ s ∈ program, s.Every P Q :=
  fun s hs inner hinner => ⟨hQ inner ⟨s, hs, hinner⟩, fun outer houter e he =>
    hP e ⟨s, hs, inner, hinner, outer, houter, he⟩⟩

/-! ### Induction over parts -/

/-- What holds of an expression if it holds of its parts, holds of all expressions. -/
theorem Expr.parts_induction {motive : Expr → Prop}
    (step : ∀ e : Expr, (∀ part ∈ e.parts, motive part) → motive e) (e : Expr) : motive e := by
  refine @Expr.rec motive (fun es => ∀ e ∈ es, motive e) ?literal ?grouping ?unary ?binary ?logical
    ?named ?assign ?call ?nil ?cons e
  case literal => exact fun v => step _ (List.forall_mem_nil motive)
  case grouping => exact fun e he => step _ (List.forall_mem_singleton.2 he)
  case unary => exact fun op e he => step _ (List.forall_mem_singleton.2 he)
  case binary =>
    exact fun l op r hl hr =>
      step _ (List.forall_mem_cons.2 ⟨hl, List.forall_mem_singleton.2 hr⟩)
  case logical =>
    exact fun l op r hl hr =>
      step _ (List.forall_mem_cons.2 ⟨hl, List.forall_mem_singleton.2 hr⟩)
  case named => exact fun name => step _ (List.forall_mem_nil motive)
  case assign => exact fun name e he => step _ (List.forall_mem_singleton.2 he)
  case call =>
    exact fun callee paren args hcallee hargs =>
      step _ (List.forall_mem_cons.2 ⟨hcallee, hargs⟩)
  case nil => exact List.forall_mem_nil motive
  case cons => exact fun e es he hes => List.forall_mem_cons.2 ⟨he, hes⟩

/-- What holds of a statement if it holds of its parts, holds of all statements. -/
theorem Stmt.parts_induction {motive : Stmt → Prop}
    (step : ∀ s : Stmt, (∀ part ∈ s.parts, motive part) → motive s) (s : Stmt) : motive s := by
  refine @Stmt.rec motive (fun ss => ∀ s ∈ ss, motive s)
    (fun branch => ∀ s ∈ branch.toList, motive s) ?expression ?print ?var ?block ?conditional ?loop
    ?function ?result ?nil ?cons ?none ?some s
  case expression => exact fun e => step _ (List.forall_mem_nil motive)
  case print => exact fun e => step _ (List.forall_mem_nil motive)
  case var => exact fun name e => step _ (List.forall_mem_nil motive)
  case block => exact fun body hbody => step _ hbody
  case conditional =>
    exact fun c t branch ht hbranch => step _ (List.forall_mem_cons.2 ⟨ht, hbranch⟩)
  case loop => exact fun c body hbody => step _ (List.forall_mem_singleton.2 hbody)
  case function => exact fun name params body hbody => step _ hbody
  case result => exact fun kw e => step _ (List.forall_mem_nil motive)
  case nil => exact List.forall_mem_nil motive
  case cons => exact fun s ss hs hss => List.forall_mem_cons.2 ⟨hs, hss⟩
  case none => exact List.forall_mem_nil motive
  case some => exact fun s hs => List.forall_mem_singleton.2 hs

end Lox
