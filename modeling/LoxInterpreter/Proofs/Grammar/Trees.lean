import LoxInterpreter.Proofs.Grammar.ParserCorrect
import LoxInterpreter.Proofs.Lexical.Restart
import LoxInterpreter.Proofs.Tree.Parts

/-!
What the trees of programs are made of. The nodes of the tree of a derivation keep tokens of that
derivation, each of a kind that the grammar has at its place. A branch of an `if` or the body of a
loop is no declaration, so that names are bound by declarations only.
-/

namespace Lox

namespace Grammar

open Parse (Level)

def unaryOperators : List Kind := [.bang, .minus]

def binaryOperators : List Kind :=
  [.bangEqual, .equalEqual, .greater, .greaterEqual, .less, .lessEqual, .minus, .plus, .slash,
    .star]

def logicalOperators : List Kind := [.keyword .orWord, .keyword .andWord]

/-- The tokens in the node of an expression are among `tokens`, and each is of a kind that belongs
there. -/
def MadeOf (tokens : List Token) : Expr → Prop
  | .literal _ | .grouping _ => True
  | .unary op _ => op ∈ tokens ∧ op.kind ∈ unaryOperators
  | .binary _ op _ => op ∈ tokens ∧ op.kind ∈ binaryOperators
  | .logical _ op _ => op ∈ tokens ∧ op.kind ∈ logicalOperators
  | .variable name | .assign name _ => name ∈ tokens ∧ name.kind = .identifier
  | .call _ paren _ => paren ∈ tokens ∧ paren.kind = .rightParen

theorem mem_of_mem_operators {l : Level} {k : Kind} (h : k ∈ operators l) :
    if isLogical l then k ∈ logicalOperators else k ∈ binaryOperators := by
  cases l <;> revert h <;> simp +contextual [operators, isLogical, logicalOperators,
    binaryOperators, or_imp]

abbrev SoundExpr (tokens : List Token) (e : Expr) : Prop := e.Every (MadeOf tokens)

/-- All expressions in a statement are made of `tokens`, and names are bound in it by declarations
only. -/
abbrev SoundStmt (tokens : List Token) (s : Stmt) : Prop := s.Every (MadeOf tokens) Stmt.Tidy

def Category.Sound (tokens : List Token) : (c : Category) → c.Tree → Prop
  | .declarations, ss | .block, ss => ∀ s ∈ ss, SoundStmt tokens s
  | .declaration, s | .varDeclaration, s => SoundStmt tokens s
  | .statement, s | .expressionStatement, s => s.declares = false ∧ SoundStmt tokens s
  | .forInitializer, initializer => ∀ s ∈ initializer, SoundStmt tokens s
  | .optionalExpression, value => ∀ e ∈ value, SoundExpr tokens e
  | .expression, e | .chain _, e | .operand _, e | .unary, e | .primary, e => SoundExpr tokens e
  | .chainRest _, rest | .callRest, rest =>
    ∀ e, SoundExpr tokens e → SoundExpr tokens (rest e)
  | .optionalArguments, es | .arguments _, es => ∀ e ∈ es, SoundExpr tokens e

variable {tokens : List Token}

/-! ### Nodes -/

/-- Two conditions that the nodes of all trees meet whose tokens are among `tokens`: one on
expressions, and one on statements. -/
structure Admits (tokens : List Token) (P : Expr → Prop) (Q : Stmt → Prop) : Prop where
  literal : ∀ t ∈ tokens, t.kind ∈ literals → P (.literal (literalOf t))
  /-- The condition of a loop that has none. -/
  always : P (.literal (.bool true))
  grouping : ∀ e, P (.grouping e)
  unary : ∀ op ∈ tokens, op.kind ∈ unaryOperators → ∀ e, P (.unary op e)
  binary : ∀ op ∈ tokens, op.kind ∈ binaryOperators → ∀ l r, P (.binary l op r)
  logical : ∀ op ∈ tokens, op.kind ∈ logicalOperators → ∀ l r, P (.logical l op r)
  named : ∀ name ∈ tokens, name.kind = .identifier → P (.variable name)
  /-- An assignment takes its name from the variable that it was read as at first. -/
  assign : ∀ name e, P (.variable name) → P (.assign name e)
  call : ∀ paren ∈ tokens, paren.kind = .rightParen → ∀ callee args, P (.call callee paren args)
  var : ∀ name ∈ tokens, name.kind = .identifier → ∀ initializer, Q (.var name initializer)
  function : ∀ name ∈ tokens, name.kind = .identifier →
    ∀ params, (∀ p ∈ params, p ∈ tokens ∧ p.kind = .identifier) →
    ∀ body, Q (.function name params body)
  result : ∀ kw ∈ tokens, kw.kind = .keyword .returnWord → ∀ value, Q (.result kw value)
  /-- All other statements have no tokens of their own, and bind no names. -/
  other : ∀ s : Stmt, s.declares = false → (∀ kw value, s ≠ .result kw value) → Q s

variable {P : Expr → Prop} {Q : Stmt → Prop}

/-- All nodes of a tree meet the conditions. A statement that is no declaration binds no names. -/
def Category.Meets (P : Expr → Prop) (Q : Stmt → Prop) : (c : Category) → c.Tree → Prop
  | .declarations, ss | .block, ss => ∀ s ∈ ss, s.Every P Q
  | .declaration, s | .varDeclaration, s => s.Every P Q
  | .statement, s | .expressionStatement, s => s.declares = false ∧ s.Every P Q
  | .forInitializer, initializer => ∀ s ∈ initializer, s.Every P Q
  | .optionalExpression, value => ∀ e ∈ value, e.Every P
  | .expression, e | .chain _, e | .operand _, e | .unary, e | .primary, e => e.Every P
  | .chainRest _, rest | .callRest, rest => ∀ e : Expr, e.Every P → (rest e).Every P
  | .optionalArguments, es | .arguments _, es => ∀ e ∈ es, e.Every P

namespace Admits

variable (h : Admits tokens P Q)

include h

theorem every_block {body : List Stmt} (hbody : ∀ s ∈ body, s.Every P Q) :
    (Stmt.block body).Every P Q :=
  Stmt.every_iff.2 ⟨h.other _ rfl (by simp), by simp [Stmt.expressions], hbody⟩

theorem every_expression {e : Expr} (he : e.Every P) : (Stmt.expression e).Every P Q :=
  Stmt.every_iff.2 ⟨h.other _ rfl (by simp), List.forall_mem_singleton.2 he, by simp [Stmt.parts]⟩

theorem every_loop {condition : Expr} {body : Stmt} (hcondition : condition.Every P)
    (hdeclares : body.declares = false) (hbody : body.Every P Q) :
    (Stmt.loop condition body).Every P Q :=
  Stmt.every_iff.2 ⟨h.other _ hdeclares (by simp), List.forall_mem_singleton.2 hcondition,
    List.forall_mem_singleton.2 hbody⟩

theorem every_var {name : Token} {initializer : Option Expr} (hname : name ∈ tokens)
    (hkind : name.kind = .identifier) (hinitializer : ∀ e ∈ initializer, e.Every P) :
    (Stmt.var name initializer).Every P Q :=
  Stmt.every_iff.2 ⟨h.var name hname hkind _, fun e he => hinitializer e (Option.mem_toList.1 he),
    by simp [Stmt.parts]⟩

theorem every_conditional {condition : Expr} {thenBranch : Stmt} {elseBranch : Option Stmt}
    (hcondition : condition.Every P)
    (hthen : thenBranch.declares = false ∧ thenBranch.Every P Q)
    (helse : ∀ s ∈ elseBranch, s.declares = false ∧ s.Every P Q) :
    (Stmt.conditional condition thenBranch elseBranch).declares = false ∧
      (Stmt.conditional condition thenBranch elseBranch).Every P Q := by
  have hdeclares : (Stmt.conditional condition thenBranch elseBranch).declares = false := by
    cases elseBranch with
    | none => exact hthen.1
    | some s => rw [Stmt.declares, hthen.1, (helse s rfl).1, Bool.or_false]
  refine ⟨hdeclares, Stmt.every_iff.2 ⟨h.other _ hdeclares (by simp),
    List.forall_mem_singleton.2 hcondition, List.forall_mem_cons.2 ⟨hthen.2, ?_⟩⟩⟩
  exact fun s hs => (helse s (Option.mem_toList.1 hs)).2

/-- The loops that stand for a `for` meet the conditions if its clauses do. -/
theorem every_forLoop {initializer : Option Stmt} {condition increment : Option Expr}
    {body : Stmt} (hinitializer : ∀ s ∈ initializer, s.Every P Q)
    (hcondition : ∀ e ∈ condition, e.Every P) (hincrement : ∀ e ∈ increment, e.Every P)
    (hbody : body.declares = false ∧ body.Every P Q) :
    (Parse.forLoop initializer condition increment body).declares = false ∧
      (Parse.forLoop initializer condition increment body).Every P Q := by
  have hcondition' : (condition.getD (.literal (.bool true))).Every P := by
    cases condition with
    | none => exact Expr.every_iff.2 ⟨h.always, by simp [Expr.parts]⟩
    | some e => exact hcondition e rfl
  have honce : ∀ once : Stmt, once.declares = false ∧ once.Every P Q →
      (Stmt.loop (condition.getD (.literal (.bool true))) once).Every P Q :=
    fun once honce => h.every_loop hcondition' honce.1 honce.2
  cases increment with
  | none =>
    cases initializer with
    | none => exact ⟨hbody.1, honce body hbody⟩
    | some s =>
      refine ⟨rfl, h.every_block (List.forall_mem_cons.2 ⟨hinitializer s rfl, ?_⟩)⟩
      exact List.forall_mem_singleton.2 (honce body hbody)
  | some e =>
    have hboth : (Stmt.block [body, .expression e]).Every P Q := by
      refine h.every_block (List.forall_mem_cons.2 ⟨hbody.2, ?_⟩)
      exact List.forall_mem_singleton.2 (h.every_expression (hincrement e rfl))
    cases initializer with
    | none => exact ⟨rfl, honce _ ⟨rfl, hboth⟩⟩
    | some s =>
      refine ⟨rfl, h.every_block (List.forall_mem_cons.2 ⟨hinitializer s rfl, ?_⟩)⟩
      exact List.forall_mem_singleton.2 (honce _ ⟨rfl, hboth⟩)

theorem every_operator {l : Level} {left right : Expr} {op : Token} (hleft : left.Every P)
    (hop : op ∈ tokens) (hkind : op.kind ∈ operators l) (hright : right.Every P) :
    Expr.Every P (if isLogical l then .logical left op right else .binary left op right) := by
  have hkinds := mem_of_mem_operators hkind
  have hparts : ∀ e ∈ [left, right], Expr.Every P e := by simp [hleft, hright]
  split
  next hl =>
    rw [if_pos hl] at hkinds
    exact Expr.every_iff.2 ⟨h.logical op hop hkinds left right, hparts⟩
  next hl =>
    rw [if_neg hl] at hkinds
    exact Expr.every_iff.2 ⟨h.binary op hop hkinds left right, hparts⟩

theorem every_call {callee : Expr} {paren : Token} {args : List Expr} (hcallee : callee.Every P)
    (hparen : paren ∈ tokens) (hkind : paren.kind = .rightParen)
    (hargs : ∀ e ∈ args, e.Every P) : (Expr.call callee paren args).Every P :=
  Expr.every_iff.2 ⟨h.call paren hparen hkind callee args,
    List.forall_mem_cons.2 ⟨hcallee, hargs⟩⟩

end Admits

theorem Names.kind_of_mem (names : Names) :
    ∀ t ∈ names.list, t ∈ names.tokens ∧ t.kind = .identifier := by
  induction names with
  | last name => simpa [list, tokens] using name.kind_eq
  | more name comma rest ih =>
    intro t ht
    rcases List.mem_cons.1 ht with rfl | ht
    · exact ⟨List.mem_cons_self, name.kind_eq⟩
    · exact ⟨List.mem_cons_of_mem _ (List.mem_cons_of_mem _ (ih t ht).1), (ih t ht).2⟩

theorem Parameters.kind_of_mem (params : Parameters) :
    ∀ t ∈ params.list, t ∈ params.tokens ∧ t.kind = .identifier := by
  cases params with
  | none => simp [list]
  | some names => exact names.kind_of_mem

/-- The nodes of the tree of a derivation meet the conditions for its tokens. -/
theorem Derivation.meets_tree {c : Category} (d : Derivation c) (hnodes : Admits tokens P Q)
    (h : d.tokens ⊆ tokens) : c.Meets P Q d.tree := by
  induction d with
  | noDeclaration | noInitializer | noExpression | noArguments =>
    rintro _ ⟨⟩
  | noOperator | noCall => exact fun _ he => he
  | variableDeclaration v ih | tightest e ih | disjunction e ih | someArguments e ih
  | simple s ih | tighter _ e ih => exact ih h
  | statement s ih => exact (ih h).2
  | someExpression e ih | varInitializer v ih =>
    rintro _ ⟨⟩
    exact ih h
  | simpleInitializer s ih =>
    rintro _ ⟨⟩
    exact (ih h).2
  | moreDeclarations first rest ihfirst ihrest =>
    obtain ⟨hfirst, hrest⟩ := List.append_subset.1 h
    exact List.forall_mem_cons.2 ⟨ihfirst hfirst, ihrest hrest⟩
  | function kw name opening params closing body ih =>
    simp only [Derivation.tokens, List.cons_subset, List.append_subset] at h
    obtain ⟨-, hname, -, hparams, -, hbody⟩ := h
    refine Stmt.every_iff.2 ⟨hnodes.function _ hname name.kind_eq _ (fun p hp => ?_) _,
      by simp [Stmt.expressions, tree], ih hbody⟩
    exact ⟨hparams (params.kind_of_mem p hp).1, (params.kind_of_mem p hp).2⟩
  | varWithout kw name stop =>
    simp only [Derivation.tokens, List.cons_subset] at h
    exact hnodes.every_var h.2.1 name.kind_eq (by simp)
  | varWith kw name equals e stop ih =>
    simp only [Derivation.tokens, List.cons_subset, List.append_subset] at h
    refine hnodes.every_var h.2.1 name.kind_eq ?_
    rintro _ ⟨⟩
    exact ih h.2.2.2.1
  | block opening body closing ih =>
    simp only [Derivation.tokens, List.cons_subset, List.append_subset] at h
    exact ih h.2.1
  | print kw e stop ih =>
    simp only [Derivation.tokens, List.cons_subset, List.append_subset] at h
    exact ⟨rfl, Stmt.every_iff.2 ⟨hnodes.other _ rfl (by simp [tree]),
      List.forall_mem_singleton.2 (ih h.2.1), by simp [Stmt.parts, tree]⟩⟩
  | ifOnly kw opening condition closing thenBranch ihcondition ihthen =>
    simp only [Derivation.tokens, List.cons_subset, List.append_subset] at h
    obtain ⟨-, -, hcondition, -, hthen⟩ := h
    exact hnodes.every_conditional (ihcondition hcondition) (ihthen hthen) (by simp)
  | ifElse kw opening condition closing thenBranch elseKw elseBranch ihcondition ihthen ihelse =>
    simp only [Derivation.tokens, List.cons_subset, List.append_subset] at h
    obtain ⟨-, -, hcondition, -, hthen, -, helse⟩ := h
    refine hnodes.every_conditional (ihcondition hcondition) (ihthen hthen) ?_
    rintro _ ⟨⟩
    exact ihelse helse
  | whileLoop kw opening condition closing body ihcondition ihbody =>
    simp only [Derivation.tokens, List.cons_subset, List.append_subset] at h
    obtain ⟨-, -, hcondition, -, hbody⟩ := h
    obtain ⟨hdeclares, hbody⟩ := ihbody hbody
    exact ⟨hdeclares, hnodes.every_loop (ihcondition hcondition) hdeclares hbody⟩
  | forLoop kw opening initializer condition stop increment closing body ihinitializer ihcondition
      ihincrement ihbody =>
    simp only [Derivation.tokens, List.cons_subset, List.append_subset] at h
    obtain ⟨-, -, hinitializer, hcondition, -, hincrement, -, hbody⟩ := h
    exact hnodes.every_forLoop (ihinitializer hinitializer) (ihcondition hcondition)
      (ihincrement hincrement) (ihbody hbody)
  | returning kw value stop ih =>
    simp only [Derivation.tokens, List.cons_subset, List.append_subset] at h
    refine ⟨rfl, Stmt.every_iff.2 ⟨hnodes.result _ h.1 kw.kind_eq _, ?_,
      by simp [Stmt.parts, tree]⟩⟩
    exact fun e he => ih h.2.1 e (Option.mem_toList.1 he)
  | compound b ih => exact ⟨rfl, hnodes.every_block (ih h)⟩
  | expressionStatement e stop ih =>
    exact ⟨rfl, hnodes.every_expression (ih (List.append_subset.1 h).1)⟩
  | assign target equals value ihtarget ihvalue =>
    simp only [Derivation.tokens, List.cons_subset, List.append_subset] at h
    have htarget : target.tree.Every P := ihtarget h.1
    have hvalue : value.tree.Every P := ihvalue h.2.2
    change Expr.Every P (tree (.assign target equals value))
    rw [tree]
    split
    next name hname =>
      rw [hname] at htarget
      exact Expr.every_iff.2 ⟨hnodes.assign name _ htarget.root,
        List.forall_mem_singleton.2 hvalue⟩
    · exact htarget
  | chain first rest ihfirst ihrest =>
    obtain ⟨hfirst, hrest⟩ := List.append_subset.1 h
    exact ihrest hrest _ (ihfirst hfirst)
  | moreOperators operator right rest ihright ihrest =>
    simp only [Derivation.tokens, List.cons_subset, List.append_subset] at h
    obtain ⟨hoperator, hright, hrest⟩ := h
    exact fun e he => ihrest hrest _
      (hnodes.every_operator he hoperator operator.kind_mem (ihright hright))
  | prefixed operator right ih =>
    obtain ⟨hoperator, hright⟩ := List.cons_subset.1 h
    exact Expr.every_iff.2 ⟨hnodes.unary _ hoperator operator.kind_mem _,
      List.forall_mem_singleton.2 (ih hright)⟩
  | call callee rest ihcallee ihrest =>
    obtain ⟨hcallee, hrest⟩ := List.append_subset.1 h
    exact ihrest hrest _ (ihcallee hcallee)
  | moreCalls opening args closing rest ihargs ihrest =>
    simp only [Derivation.tokens, List.cons_subset, List.append_subset] at h
    obtain ⟨-, hargs, hclosing, hrest⟩ := h
    exact fun e he => ihrest hrest _ (hnodes.every_call he hclosing closing.kind_eq (ihargs hargs))
  | lastArgument e ih => exact List.forall_mem_singleton.2 (ih h)
  | moreArguments e comma rest ihe ihrest =>
    simp only [Derivation.tokens, List.cons_subset, List.append_subset] at h
    exact List.forall_mem_cons.2 ⟨ihe h.1, ihrest h.2.2⟩
  | literal t =>
    exact Expr.every_iff.2 ⟨hnodes.literal _ (h List.mem_cons_self) t.kind_mem,
      by simp [Expr.parts, tree]⟩
  | named t =>
    exact Expr.every_iff.2 ⟨hnodes.named _ (h List.mem_cons_self) t.kind_eq,
      by simp [Expr.parts, tree]⟩
  | grouping opening e closing ih =>
    simp only [Derivation.tokens, List.cons_subset, List.append_subset] at h
    exact Expr.every_iff.2 ⟨hnodes.grouping _, List.forall_mem_singleton.2 (ih h.2.1)⟩

/-- Nodes are made of the tokens, and names are bound by declarations only. -/
theorem admits_madeOf (tokens : List Token) : Admits tokens (MadeOf tokens) Stmt.Tidy where
  literal _ _ _ := trivial
  always := trivial
  grouping _ := trivial
  unary _ hop hkind _ := ⟨hop, hkind⟩
  binary _ hop hkind _ _ := ⟨hop, hkind⟩
  logical _ hop hkind _ _ := ⟨hop, hkind⟩
  named _ hname hkind := ⟨hname, hkind⟩
  assign _ _ h := h
  call _ hparen hkind _ _ := ⟨hparen, hkind⟩
  var _ _ _ _ _ := rfl
  function _ _ _ _ _ _ _ := rfl
  result _ _ _ _ h := by cases h
  other s hdeclares _ h := by
    rw [hdeclares] at h
    cases h

/-- The tree of a derivation is made of its tokens. -/
theorem Derivation.sound_tree {c : Category} (d : Derivation c) (h : d.tokens ⊆ tokens) :
    c.Sound tokens d.tree := by
  have hmeets := d.meets_tree (admits_madeOf tokens) h
  cases c <;> exact hmeets

end Grammar

open Grammar

/-- A source that scans and parses without errors. -/
structure CleanSource where
  text : String
  line : Int
  tokens : List Token
  scans : scan text line = .ok tokens
  parses : (parse tokens).errors = []

def CleanSource.program (source : CleanSource) : List Stmt := (parse source.tokens).statements

/-- The nodes of the trees of a source meet the conditions for its tokens. -/
theorem CleanSource.every_program (source : CleanSource) {P : Expr → Prop} {Q : Stmt → Prop}
    (h : Admits source.tokens P Q) : ∀ s ∈ source.program, s.Every P Q := by
  obtain ⟨text, line, tokens, hscan, hparse⟩ := source
  obtain ⟨body, stop, rfl, hbody, hstop⟩ := Lexical.exists_of_scan hscan
  obtain ⟨d, rfl, -, -, hd⟩ := exists_of_errors_eq_nil (.append hbody hstop) hparse
  rw [CleanSource.program, hd]
  exact d.meets_tree h (List.subset_append_left d.tokens [stop])

/-- The trees of a source are made of its tokens. -/
theorem CleanSource.sound (source : CleanSource) :
    ∀ s ∈ source.program, SoundStmt source.tokens s :=
  source.every_program (admits_madeOf source.tokens)

end Lox
