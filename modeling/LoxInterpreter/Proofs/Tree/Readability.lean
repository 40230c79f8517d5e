import LoxInterpreter.Proofs.Tree.ReadableNodes

/-!
Readability. The prefix form of a program without strings and infinite numbers tells its trees, up
to the places of tokens and the spelling of numbers. The forms of its trees are plain, so that they
are known from their texts, and each node is known from its form.
-/

namespace Lox

open Lexical

/-! ### Expressions -/

namespace Expr

/-- The form of a readable expression is plain. -/
theorem plain_form {e : Expr} (h : e.Every Readable) : e.form.Plain := by
  induction e using parts_induction with
  | step e ih =>
    obtain ⟨hnode, hparts⟩ := every_iff.1 h
    have hforms : ∀ f ∈ e.parts.map form, f.Plain :=
      List.forall_mem_map.2 fun part hpart => ih part hpart (hparts part hpart)
    cases e with
    | literal v => exact .atom (Literal.Readable.plainAtom hnode)
    | grouping e => exact .list_cons (by decide) hforms
    | unary op e => exact .list_cons (hnode.plainAtom (by decide)) hforms
    | binary l op r => exact .list_cons (hnode.plainAtom (by decide)) hforms
    | logical l op r => exact .list_cons (hnode.plainAtom (by decide)) hforms
    | «variable» name => exact .atom (hnode.plainAtom (by decide))
    | assign name e =>
      exact .list_cons (by decide)
        (List.forall_mem_cons.2 ⟨.atom (hnode.plainAtom (by decide)), hforms⟩)
    | call callee paren args =>
      rw [form, forms_eq_map]
      exact .list_cons (by decide) hforms

/-- Readable expressions with the same form are alike. -/
theorem alike_of_form_eq {e e' : Expr} (h : e.Every Readable) (h' : e'.Every Readable)
    (heq : e.form = e'.form) : e.Alike e' := by
  induction e using parts_induction generalizing e' with
  | step e ih =>
    have hsame := sameNode_of_shape_eq (h.root.shape_form.symm.trans
      ((congrArg Form.shape heq).trans h'.root.shape_form))
    obtain ⟨hnode, hparts⟩ := every_iff.1 h
    obtain ⟨hnode', hparts'⟩ := every_iff.1 h'
    -- It is enough that the forms of the parts are the same, one by one.
    have halike : e.parts.map form = e'.parts.map form → List.Forall₂ Alike e.parts e'.parts :=
      forall₂_of_map_eq fun part hpart part' hpart' =>
        ih part hpart (hparts part hpart) (hparts' part' hpart')
    cases hsame with
    | literal v v' =>
      exact .literal (Literal.Readable.alike hnode hnode' (Form.atom.inj heq))
    | grouping e e' =>
      obtain ⟨-, hitems⟩ := Form.list_cons_inj heq
      obtain ⟨he, -⟩ := List.forall₂_cons.1 (halike hitems)
      exact .grouping he
    | unary op op' e e' =>
      obtain ⟨hop, hitems⟩ := Form.list_cons_inj heq
      obtain ⟨he, -⟩ := List.forall₂_cons.1 (halike hitems)
      exact .unary (hnode.bare_eq hnode' hop) he
    | binary l l' op op' r r' =>
      obtain ⟨hop, hitems⟩ := Form.list_cons_inj heq
      obtain ⟨hl, hr⟩ := List.forall₂_cons.1 (halike hitems)
      exact .binary hl (hnode.bare_eq hnode' hop) (List.forall₂_cons.1 hr).1
    | logical l l' op op' r r' =>
      obtain ⟨hop, hitems⟩ := Form.list_cons_inj heq
      obtain ⟨hl, hr⟩ := List.forall₂_cons.1 (halike hitems)
      exact .logical hl (hnode.bare_eq hnode' hop) (List.forall₂_cons.1 hr).1
    | named name name' => exact .variable (hnode.bare_eq hnode' heq)
    | assign name name' e e' =>
      obtain ⟨-, hitems⟩ := Form.list_cons_inj heq
      obtain ⟨hname, hitems⟩ := List.cons.inj hitems
      obtain ⟨he, -⟩ := List.forall₂_cons.1 (halike hitems)
      exact .assign (hnode.bare_eq hnode' hname) he
    | call callee callee' paren paren' args args' =>
      obtain ⟨-, hitems⟩ := Form.list_cons_inj heq
      rw [forms_eq_map, forms_eq_map] at hitems
      obtain ⟨hcallee, hargs⟩ := List.forall₂_cons.1 (halike hitems)
      exact .call hcallee (Token.IsOf.bare_eq_of_spelling text_of_rightParen hnode hnode') hargs

end Expr

/-! ### Statements -/

namespace Stmt

theorem form_conditional (c : Expr) (t : Stmt) (e : Option Stmt) :
    (conditional c t e).form =
      .list (.atom "if".toList :: c.form :: (t :: e.toList).map form) := by
  cases e <;> rfl

variable {s s' : Stmt}

/-- The form of a readable statement is plain. -/
theorem plain_form (h : s.Every Expr.Readable Readable) : s.form.Plain := by
  induction s using parts_induction with
  | step s ih =>
    obtain ⟨hnode, hexpressions, hparts⟩ := every_iff.1 h
    have hexprs : ∀ f ∈ s.expressions.map Expr.form, f.Plain :=
      List.forall_mem_map.2 fun e he => Expr.plain_form (hexpressions e he)
    have hforms : ∀ f ∈ s.parts.map form, f.Plain :=
      List.forall_mem_map.2 fun part hpart => ih part hpart (hparts part hpart)
    cases s with
    | expression e => exact .list_cons (by decide) hexprs
    | print e => exact .list_cons (by decide) hexprs
    | var name e =>
      rw [form, Expr.forms_eq_map]
      exact .list_cons (by decide)
        (List.forall_mem_cons.2 ⟨.atom (hnode.plainAtom (by decide)), hexprs⟩)
    | block body =>
      rw [form, forms_eq_map]
      exact .list_cons (by decide) hforms
    | conditional c t e =>
      rw [form_conditional]
      exact .list_cons (by decide)
        (List.forall_mem_cons.2 ⟨hexprs _ List.mem_cons_self, hforms⟩)
    | loop c body =>
      exact .list_cons (by decide)
        (List.forall_mem_cons.2 ⟨hexprs _ List.mem_cons_self, hforms⟩)
    | function name params body =>
      obtain ⟨hname, hparams⟩ := hnode
      rw [form, forms_eq_map]
      refine .list_cons (by decide) (List.forall_mem_cons.2 ⟨.atom (hname.plainAtom (by decide)),
        List.forall_mem_cons.2 ⟨.list (List.forall_mem_map.2 fun p hp => ?_), hforms⟩⟩)
      exact .atom ((hparams p hp).plainAtom (by decide))
    | result kw e =>
      rw [form, Expr.forms_eq_map]
      exact .list_cons (by decide) hexprs

/-- Readable statements with the same form are alike. -/
theorem alike_of_form_eq (h : s.Every Expr.Readable Readable)
    (h' : s'.Every Expr.Readable Readable) (heq : s.form = s'.form) : s.Alike s' := by
  induction s using parts_induction generalizing s' with
  | step s ih =>
    have hkind : s.headKind = s'.headKind := by
      rw [← Option.some_inj, ← s.headKind?_form, heq, s'.headKind?_form]
    have hsame := sameNode_of_headKind_eq hkind
    obtain ⟨hnode, hexpressions, hparts⟩ := every_iff.1 h
    obtain ⟨hnode', hexpressions', hparts'⟩ := every_iff.1 h'
    -- The expressions of a statement have their forms in front of those of its parts.
    have hexprs : s.expressions.map Expr.form = s'.expressions.map Expr.form →
        List.Forall₂ Expr.Alike s.expressions s'.expressions :=
      forall₂_of_map_eq fun e he e' he' =>
        Expr.alike_of_form_eq (hexpressions e he) (hexpressions' e' he')
    have halike : s.parts.map form = s'.parts.map form → List.Forall₂ Alike s.parts s'.parts :=
      forall₂_of_map_eq fun part hpart part' hpart' =>
        ih part hpart (hparts part hpart) (hparts' part' hpart')
    cases hsame with
    | expression e e' =>
      obtain ⟨-, hitems⟩ := Form.list_cons_inj heq
      exact .expression (List.forall₂_cons.1 (hexprs hitems)).1
    | print e e' =>
      obtain ⟨-, hitems⟩ := Form.list_cons_inj heq
      exact .print (List.forall₂_cons.1 (hexprs hitems)).1
    | var name name' e e' =>
      obtain ⟨-, hitems⟩ := Form.list_cons_inj heq
      obtain ⟨hname, hitems⟩ := List.cons.inj hitems
      rw [Expr.forms_eq_map, Expr.forms_eq_map] at hitems
      exact .var (hnode.bare_eq hnode' hname) (rel_of_forall₂_toList (hexprs hitems))
    | block body body' =>
      obtain ⟨-, hitems⟩ := Form.list_cons_inj heq
      rw [forms_eq_map, forms_eq_map] at hitems
      exact .block (halike hitems)
    | conditional c c' t t' e e' =>
      rw [form_conditional, form_conditional] at heq
      obtain ⟨-, hitems⟩ := Form.list_cons_inj heq
      obtain ⟨hc, hitems⟩ := List.cons.inj hitems
      obtain ⟨ht, he⟩ := List.forall₂_cons.1 (halike hitems)
      obtain ⟨hc, -⟩ := List.forall₂_cons.1 (hexprs (congrArg ([·]) hc))
      exact .conditional hc ht (rel_of_forall₂_toList he)
    | loop c c' body body' =>
      obtain ⟨-, hitems⟩ := Form.list_cons_inj heq
      obtain ⟨hc, hitems⟩ := List.cons.inj hitems
      obtain ⟨hc, -⟩ := List.forall₂_cons.1 (hexprs (congrArg ([·]) hc))
      exact .loop hc (List.forall₂_cons.1 (halike hitems)).1
    | function name name' params params' body body' =>
      obtain ⟨hname, hparams⟩ := hnode
      obtain ⟨hname', hparams'⟩ := hnode'
      obtain ⟨-, hitems⟩ := Form.list_cons_inj heq
      obtain ⟨hnames, hitems⟩ := List.cons.inj hitems
      obtain ⟨hatoms, hitems⟩ := List.cons.inj hitems
      rw [forms_eq_map, forms_eq_map] at hitems
      exact .function (hname.bare_eq hname' hnames)
        (Token.IsOf.map_bare_eq hparams hparams' (Form.list.inj hatoms)) (halike hitems)
    | result kw kw' e e' =>
      obtain ⟨-, hitems⟩ := Form.list_cons_inj heq
      rw [Expr.forms_eq_map, Expr.forms_eq_map] at hitems
      exact .result (Token.IsOf.bare_eq_of_spelling text_of_keyword hnode hnode')
        (rel_of_forall₂_toList (hexprs hitems))

end Stmt

/-! ### Programs -/

/-- A literal is neither a string nor an infinite number. -/
def Literal.Clear : Literal → Prop
  | .string _ => False
  | .number x => ∀ negative, Numeral.ofFloat x ≠ .infinite negative
  | .nil | .bool _ => True

def Expr.Clear : Expr → Prop
  | .literal v => v.Clear
  | _ => True

abbrev Stmt.Clear (s : Stmt) : Prop := s.Every Expr.Clear fun _ => True

namespace CleanSource

variable (source : CleanSource)

theorem isOf {t : Token} {kinds : List Kind} (ht : t ∈ source.tokens) (hkind : t.kind ∈ kinds)
    (heof : Kind.eof ∉ kinds) : t.IsOf kinds := by
  refine ⟨isLexeme_of_kind_ne source.scans ht fun hstop => heof ?_, hkind⟩
  rwa [hstop] at hkind

/-- A literal that a program spells out is no NaN. -/
theorem readable_literalOf {t : Token} (ht : t ∈ source.tokens)
    (hkind : t.kind ∈ Grammar.literals) (hclear : (Grammar.literalOf t).Clear) :
    (Grammar.literalOf t).Readable := by
  have hpiece : IsPiece t.lexeme.toList (.lexeme t.kind t.literal) :=
    (source.isOf ht hkind (by decide)).1
  simp only [Grammar.literals, List.mem_cons, List.not_mem_nil, or_false] at hkind
  -- Keywords spell out themselves, so that the last two kinds are left.
  rcases hkind with hkind | hkind | hkind | hkind | hkind <;>
    rw [Grammar.literalOf, hkind] at hclear ⊢
  · exact trivial
  · exact trivial
  · exact trivial
  · rw [hkind] at hpiece
    obtain ⟨m, places, hliteral⟩ := exists_of_number hpiece
    simp only [hliteral, Literal.Clear, Literal.Readable] at hclear ⊢
    cases hnumeral : Numeral.ofFloat (Float.ofScientific m true places) with
    | notANumber => exact absurd hnumeral (ofScientific_ne_notANumber m places)
    | infinite negative => exact absurd hnumeral (hclear negative)
    | finite b => exact ⟨b, rfl⟩
  · rw [hkind] at hpiece
    obtain ⟨body, hliteral⟩ := exists_of_string hpiece
    simp only [hliteral, Literal.Clear] at hclear

/-- Where a program has no strings and no infinite numbers, its nodes are readable. -/
theorem admits_readable :
    Grammar.Admits source.tokens (fun e => e.Clear → e.Readable) Stmt.Readable where
  literal _ ht hkind hclear := source.readable_literalOf ht hkind hclear
  always _ := trivial
  grouping _ _ := trivial
  unary _ hop hkind _ _ := source.isOf hop hkind (by decide)
  binary _ hop hkind _ _ _ := source.isOf hop hkind (by decide)
  logical _ hop hkind _ _ _ := source.isOf hop hkind (by decide)
  named _ hname hkind _ := source.isOf hname (List.mem_singleton.2 hkind) (by decide)
  assign _ _ h _ := h trivial
  call _ hparen hkind _ _ _ := source.isOf hparen (List.mem_singleton.2 hkind) (by decide)
  var _ hname hkind _ := source.isOf hname (List.mem_singleton.2 hkind) (by decide)
  function _ hname hkind _ hparams _ :=
    ⟨source.isOf hname (List.mem_singleton.2 hkind) (by decide), fun p hp =>
      source.isOf (hparams p hp).1 (List.mem_singleton.2 (hparams p hp).2) (by decide)⟩
  result _ hkw hkind _ := source.isOf hkw (List.mem_singleton.2 hkind) (by decide)
  other s hdeclares hresult := by
    cases s with
    | var | function => cases hdeclares
    | result kw e => exact absurd rfl (hresult kw e)
    | _ => trivial

theorem every_readable {s : Stmt} (hs : s ∈ source.program) (hclear : s.Clear) :
    s.Every Expr.Readable Stmt.Readable := fun inner hinner => by
  obtain ⟨hnode, hexpressions⟩ := source.every_program source.admits_readable s hs inner hinner
  exact ⟨hnode, fun outer houter e he =>
    hexpressions outer houter e he ((hclear inner hinner).2 outer houter e he)⟩

end CleanSource

/-- Two statements of programs that scan and parse without errors have the same prefix form only if
they are alike, unless there are strings or infinite numbers in them. -/
theorem text_readable {source source' : CleanSource} {s s' : Stmt} (hs : s ∈ source.program)
    (hs' : s' ∈ source'.program) (hclear : s.Clear) (hclear' : s'.Clear) (h : s.text = s'.text) :
    s.Alike s' := by
  have hreadable := source.every_readable hs hclear
  have hreadable' := source'.every_readable hs' hclear'
  have hrender : s.form.render = s'.form.render := by rw [← s.toList_text, h, s'.toList_text]
  exact Stmt.alike_of_form_eq hreadable hreadable'
    ((Stmt.plain_form hreadable).eq_of_render_eq (Stmt.plain_form hreadable') hrender)

/-- Two programs with the same prefix form, which differ in the places of their tokens. -/
theorem text_readable_places :
    ∃ source source' : CleanSource, source.text = "print (a);" ∧ source'.text = "print\n(a);" ∧
      ∃ s ∈ source.program, ∃ s' ∈ source'.program, s.Clear ∧ s'.Clear ∧
        s.text = "(print (group a))" ∧ s'.text = s.text ∧ s.Alike s' := by
  let name (line : Int) (column : Nat) : Token := ⟨.identifier, "a", .nil, line, some column⟩
  let tokens (line : Int) (column : Nat) : List Token :=
    [⟨.keyword .printWord, "print", .nil, 1, some 0⟩,
      ⟨.leftParen, "(", .nil, line, some column⟩, name line (column + 1),
      ⟨.rightParen, ")", .nil, line, some (column + 2)⟩,
      ⟨.semicolon, ";", .nil, line, some (column + 3)⟩, ⟨.eof, "", .nil, line, some (column + 4)⟩]
  have hscan : scan "print (a);" 1 = .ok (tokens 1 6) := by cbv
  have hscan' : scan "print\n(a);" 1 = .ok (tokens 2 0) := by cbv
  let source : CleanSource := ⟨_, 1, _, hscan, rfl⟩
  let source' : CleanSource := ⟨_, 1, _, hscan', rfl⟩
  let s (name : Token) : Stmt := .print (.grouping (.variable name))
  have hs : s (name 1 7) ∈ source.program := List.mem_singleton_self _
  have hs' : s (name 2 1) ∈ source'.program := List.mem_singleton_self _
  have hclear (name : Token) : (s name).Clear := by
    have hvariable : (Expr.variable name).Every Expr.Clear :=
      Expr.every_iff.2 ⟨trivial, List.forall_mem_nil _⟩
    have hgrouping : (Expr.grouping (.variable name)).Every Expr.Clear :=
      Expr.every_iff.2 ⟨trivial, List.forall_mem_singleton.2 hvariable⟩
    exact Stmt.every_iff.2 ⟨trivial, List.forall_mem_singleton.2 hgrouping, List.forall_mem_nil _⟩
  exact ⟨source, source', rfl, rfl, _, hs, _, hs', hclear _, hclear _, by decide +kernel, rfl,
    text_readable hs hs' (hclear _) (hclear _) rfl⟩

end Lox
