import LoxInterpreter.Proofs.Grammar.Trees

/-!
Where return statements stand. A parser that accepts a program has counted the function bodies
around each return statement, and found at least one. The tree of the program has the same
functions around that statement: a `for` becomes loops and blocks, but these are no functions.
-/

namespace Lox

open Grammar

namespace Stmt

/-- A statement stands in another one, and `around` are the statements around it, the outermost
first. -/
inductive Below (s : Stmt) : List Stmt → Stmt → Prop
  | self : Below s [] s
  | part {around : List Stmt} {part whole : Stmt} (hpart : part ∈ whole.parts)
      (h : Below s around part) : Below s (whole :: around) whole

def ReturnsInFunctions (s : Stmt) : Prop :=
  ∀ around keyword value, Below (.result keyword value) around s →
    ∃ name params body, .function name params body ∈ around

theorem returnsInFunctions_function (name : Token) (params : List Token) (body : List Stmt) :
    (function name params body).ReturnsInFunctions := by
  intro around keyword value h
  cases h with
  | part hpart h => exact ⟨name, params, body, List.mem_cons_self⟩

/-- Outside of functions a statement needs no more than that it is no return statement, and that
its parts return in functions. -/
theorem returnsInFunctions_of_parts {s : Stmt} (hs : ∀ keyword value, s ≠ .result keyword value)
    (hparts : ∀ part ∈ s.parts, part.ReturnsInFunctions) : s.ReturnsInFunctions := by
  intro around keyword value h
  cases h with
  | self => exact absurd rfl (hs keyword value)
  | part hpart h =>
    obtain ⟨name, params, body, hmem⟩ := hparts _ hpart _ keyword value h
    exact ⟨name, params, body, List.mem_cons_of_mem _ hmem⟩

theorem ReturnsInFunctions.ne_result {s : Stmt} (h : s.ReturnsInFunctions) (keyword : Token)
    (value : Option Expr) : s ≠ .result keyword value := by
  rintro rfl
  obtain ⟨_, _, _, hmem⟩ := h [] keyword value .self
  cases hmem

theorem ReturnsInFunctions.parts {s part : Stmt} (h : s.ReturnsInFunctions)
    (hs : ∀ name params body, s ≠ .function name params body) (hpart : part ∈ s.parts) :
    part.ReturnsInFunctions := by
  intro around keyword value hbelow
  obtain ⟨name, params, body, hmem⟩ := h _ keyword value (.part hpart hbelow)
  rcases List.mem_cons.1 hmem with heq | hmem
  · exact absurd heq.symm (hs name params body)
  · exact ⟨name, params, body, hmem⟩

theorem returnsInFunctions_block {body : List Stmt} (h : ∀ s ∈ body, s.ReturnsInFunctions) :
    (block body).ReturnsInFunctions :=
  returnsInFunctions_of_parts (by simp) h

theorem returnsInFunctions_pair {s t : Stmt} (hs : s.ReturnsInFunctions)
    (ht : t.ReturnsInFunctions) : (block [s, t]).ReturnsInFunctions :=
  returnsInFunctions_block (List.forall_mem_cons.2 ⟨hs, List.forall_mem_singleton.2 ht⟩)

theorem returnsInFunctions_loop {condition : Expr} {body : Stmt} (h : body.ReturnsInFunctions) :
    (loop condition body).ReturnsInFunctions :=
  returnsInFunctions_of_parts (by simp) (List.forall_mem_singleton.2 h)

theorem returnsInFunctions_conditional {condition : Expr} {thenBranch : Stmt}
    {elseBranch : Option Stmt} (hthen : thenBranch.ReturnsInFunctions)
    (helse : ∀ s ∈ elseBranch, s.ReturnsInFunctions) :
    (conditional condition thenBranch elseBranch).ReturnsInFunctions := by
  refine returnsInFunctions_of_parts (by simp) (List.forall_mem_cons.2 ⟨hthen, ?_⟩)
  exact fun s hs => helse s (Option.mem_toList.1 hs)

/-- A statement without statements in it returns in functions, unless it is a return. -/
theorem returnsInFunctions_leaf {s : Stmt} (hs : ∀ keyword value, s ≠ .result keyword value)
    (hparts : s.parts = []) : s.ReturnsInFunctions :=
  returnsInFunctions_of_parts hs (by simp [hparts])

end Stmt

namespace Grammar

def Category.InFunctions : (c : Category) → c.Tree → Prop
  | .declarations, ss | .block, ss => ∀ s ∈ ss, s.ReturnsInFunctions
  | .declaration, s | .varDeclaration, s | .statement, s | .expressionStatement, s =>
    s.ReturnsInFunctions
  | .forInitializer, initializer => ∀ s ∈ initializer, s.ReturnsInFunctions
  | .optionalExpression, _ | .expression, _ | .chain _, _ | .operand _, _ | .unary, _
  | .primary, _ | .chainRest _, _ | .callRest, _ | .optionalArguments, _ | .arguments _, _ => True

/-- The loops and blocks that stand for a `for` are no functions and no return statements. -/
theorem returnsInFunctions_forLoop {initializer : Option Stmt} {condition increment : Option Expr}
    {body : Stmt} (hinitializer : ∀ s ∈ initializer, s.ReturnsInFunctions)
    (hbody : body.ReturnsInFunctions) :
    (Parse.forLoop initializer condition increment body).ReturnsInFunctions := by
  have hboth : ∀ e : Expr, (Stmt.block [body, .expression e]).ReturnsInFunctions := fun e =>
    Stmt.returnsInFunctions_pair hbody (Stmt.returnsInFunctions_leaf (by simp) rfl)
  cases increment with
  | none =>
    have hloop : (Stmt.loop (condition.getD (.literal (.bool true))) body).ReturnsInFunctions :=
      Stmt.returnsInFunctions_loop hbody
    cases initializer with
    | none => exact hloop
    | some s => exact Stmt.returnsInFunctions_pair (hinitializer s rfl) hloop
  | some e =>
    have hloop : (Stmt.loop (condition.getD (.literal (.bool true)))
        (.block [body, .expression e])).ReturnsInFunctions :=
      Stmt.returnsInFunctions_loop (hboth e)
    cases initializer with
    | none => exact hloop
    | some s => exact Stmt.returnsInFunctions_pair (hinitializer s rfl) hloop

/-- If each return statement of a derivation is inside of a function body, so it is in the tree.
The induction never enters a function: what stands in one needs nothing more. -/
theorem Derivation.inFunctions_tree {c : Category} (d : Derivation c)
    (h : d.ReturnsInFunctions) : c.InFunctions d.tree := by
  induction d with
  | noDeclaration | noInitializer =>
    rintro _ ⟨⟩
  | moreDeclarations first rest ihfirst ihrest =>
    exact List.forall_mem_cons.2 ⟨ihfirst h.2.1, ihrest h.2.2⟩
  | variableDeclaration v ih | statement s ih | simple s ih | block opening body closing ih =>
    exact ih h.2
  | function kw name opening params closing body =>
    exact Stmt.returnsInFunctions_function name.token params.list body.tree
  | varWithout | varWith | print | expressionStatement =>
    exact Stmt.returnsInFunctions_leaf (by simp [tree]) rfl
  | ifOnly kw opening condition closing thenBranch ihcondition ihthen =>
    exact Stmt.returnsInFunctions_conditional (ihthen h.2.2) (by simp)
  | ifElse kw opening condition closing thenBranch elseKw elseBranch ihcondition ihthen ihelse =>
    refine Stmt.returnsInFunctions_conditional (ihthen h.2.2.1) ?_
    rintro _ ⟨⟩
    exact ihelse h.2.2.2
  | whileLoop kw opening condition closing body ihcondition ihbody =>
    exact Stmt.returnsInFunctions_loop (ihbody h.2.2)
  | forLoop kw opening initializer condition stop increment closing body ihinitializer ihcondition
      ihincrement ihbody =>
    exact returnsInFunctions_forLoop (ihinitializer h.2.1) (ihbody h.2.2.2.2)
  | returning kw value stop =>
    exact absurd h.1 (Nat.lt_irrefl 0)
  | compound b ih => exact Stmt.returnsInFunctions_block (ih h.2)
  | varInitializer v ih | simpleInitializer s ih =>
    rintro _ ⟨⟩
    exact ih h.2
  | _ => trivial

end Grammar

/-- In a source without errors each return statement stands in the body of a function. -/
theorem CleanSource.returnsInFunctions (source : CleanSource) :
    ∀ s ∈ source.program, s.ReturnsInFunctions := by
  obtain ⟨text, line, tokens, hscan, hparse⟩ := source
  obtain ⟨body, stop, rfl, hbody, hstop⟩ := Lexical.exists_of_scan hscan
  obtain ⟨d, rfl, -, hfaults, hd⟩ := exists_of_errors_eq_nil (.append hbody hstop) hparse
  obtain ⟨-, -, hreturns⟩ := (d.faults_zero_eq_nil_iff trivial).1 hfaults
  rw [CleanSource.program, hd]
  exact d.inFunctions_tree hreturns

end Lox
