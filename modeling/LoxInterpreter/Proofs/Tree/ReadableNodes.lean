import LoxInterpreter.Proofs.Grammar.Trees
import LoxInterpreter.Proofs.Lexical.Spelling
import LoxInterpreter.Proofs.Number.CanonicalText
import LoxInterpreter.Proofs.Tree.Forms

/-!
Readable nodes. If the tokens in a node are lexemes of kinds that belong there, then its form tells
what it is: the atoms of a form are lexemes and texts of literals, a lexeme alone tells its kind,
and the kind of its head tells what a list stands for.
-/

namespace Lox

/-! ### Trees that are alike -/

/-- Literals are alike if they are the same, or numbers with the same text. -/
inductive Literal.Alike : Literal → Literal → Prop
  | refl (v : Literal) : Alike v v
  | number {x y : Float} (h : (Value.number x).text = (Value.number y).text) :
      Alike (.number x) (.number y)

/-- Expressions are alike if they differ in nothing but the places of their tokens and in numbers
with the same text. -/
inductive Expr.Alike : Expr → Expr → Prop
  | literal {v v' : Literal} (h : v.Alike v') : Alike (.literal v) (.literal v')
  | grouping {e e' : Expr} (h : Alike e e') : Alike (.grouping e) (.grouping e')
  | unary {op op' : Token} {right right' : Expr} (hop : op.bare = op'.bare)
      (hright : Alike right right') : Alike (.unary op right) (.unary op' right')
  | binary {op op' : Token} {left left' right right' : Expr} (hleft : Alike left left')
      (hop : op.bare = op'.bare) (hright : Alike right right') :
      Alike (.binary left op right) (.binary left' op' right')
  | logical {op op' : Token} {left left' right right' : Expr} (hleft : Alike left left')
      (hop : op.bare = op'.bare) (hright : Alike right right') :
      Alike (.logical left op right) (.logical left' op' right')
  | variable {name name' : Token} (hname : name.bare = name'.bare) :
      Alike (.variable name) (.variable name')
  | assign {name name' : Token} {e e' : Expr} (hname : name.bare = name'.bare) (h : Alike e e') :
      Alike (.assign name e) (.assign name' e')
  | call {callee callee' : Expr} {paren paren' : Token} {args args' : List Expr}
      (hcallee : Alike callee callee') (hparen : paren.bare = paren'.bare)
      (hargs : List.Forall₂ Alike args args') :
      Alike (.call callee paren args) (.call callee' paren' args')

/-- Statements are alike if they differ in nothing but the places of their tokens and in numbers
with the same text. -/
inductive Stmt.Alike : Stmt → Stmt → Prop
  | expression {e e' : Expr} (h : e.Alike e') : Alike (.expression e) (.expression e')
  | print {e e' : Expr} (h : e.Alike e') : Alike (.print e) (.print e')
  | var {name name' : Token} {e e' : Option Expr} (hname : name.bare = name'.bare)
      (h : Option.Rel Expr.Alike e e') : Alike (.var name e) (.var name' e')
  | block {body body' : List Stmt} (h : List.Forall₂ Alike body body') :
      Alike (.block body) (.block body')
  | conditional {c c' : Expr} {t t' : Stmt} {e e' : Option Stmt} (hc : c.Alike c')
      (ht : Alike t t') (he : Option.Rel Alike e e') :
      Alike (.conditional c t e) (.conditional c' t' e')
  | loop {c c' : Expr} {body body' : Stmt} (hc : c.Alike c') (hbody : Alike body body') :
      Alike (.loop c body) (.loop c' body')
  | function {name name' : Token} {params params' : List Token} {body body' : List Stmt}
      (hname : name.bare = name'.bare) (hparams : params.map Token.bare = params'.map Token.bare)
      (h : List.Forall₂ Alike body body') :
      Alike (.function name params body) (.function name' params' body')
  | result {kw kw' : Token} {e e' : Option Expr} (hkw : kw.bare = kw'.bare)
      (h : Option.Rel Expr.Alike e e') : Alike (.result kw e) (.result kw' e')

/-! ### Lists -/

/-- Lists correspond item by item if they have the same image under a function that only identifies
what corresponds. -/
theorem forall₂_of_map_eq {α β γ : Type} {f : α → γ} {g : β → γ} {R : α → β → Prop} :
    ∀ {as : List α} {bs : List β}, (∀ a ∈ as, ∀ b ∈ bs, f a = g b → R a b) →
      as.map f = bs.map g → List.Forall₂ R as bs
  | [], [], _, _ => .nil
  | a :: as, b :: bs, h, heq => by
    obtain ⟨hhead, htail⟩ := List.cons.inj heq
    refine .cons (h a List.mem_cons_self b List.mem_cons_self hhead) (forall₂_of_map_eq ?_ htail)
    exact fun a ha b hb => h a (List.mem_cons_of_mem _ ha) b (List.mem_cons_of_mem _ hb)

/-- Optional things correspond if they do as lists. -/
theorem rel_of_forall₂_toList {α β : Type} {R : α → β → Prop} :
    ∀ {a : Option α} {b : Option β}, List.Forall₂ R a.toList b.toList → Option.Rel R a b
  | none, none, _ => .none
  | some _, some _, h => .some (List.forall₂_cons.1 h).1

/-! ### Atoms -/

open Lexical Scan Layout

namespace Form

theorem not_mem_delimiters {c : Char} (hc : isWordCharacter c = true) : c ∉ delimiters := by
  have hnone : delimiters.all (!isWordCharacter ·) = true := rfl
  intro hmem
  have hnot := List.all_eq_true.1 hnone c hmem
  simp [hc] at hnot

theorem not_mem_delimiters_of_isDigit {c : Char} (hc : isDigit c = true) : c ∉ delimiters :=
  not_mem_delimiters (by simp [isWordCharacter, hc])

theorem not_mem_delimiters_of_isLetter {c : Char} (hc : isLetter c = true) : c ∉ delimiters :=
  not_mem_delimiters (by simp [isWordCharacter, hc])

/-- Lexemes other than parentheses and strings are plain atoms. -/
theorem plainAtom_of_isPiece {text : List Char} {kind : Kind} {literal : Literal}
    (h : IsPiece text (.lexeme kind literal))
    (hkind : kind ∉ [.leftParen, .rightParen, .string]) : PlainAtom text := by
  refine ⟨h.ne_nil, ?_⟩
  cases h with
  | mark hmark =>
    have hplain : ∀ m ∈ marks, m.2 ∉ [.leftParen, .rightParen, .string] → PlainAtom m.1 := by
      decide
    exact (hplain _ hmark hkind).2
  | string => exact absurd (by simp) hkind
  | whole _ hdigits => exact fun c hc => not_mem_delimiters_of_isDigit (hdigits c hc)
  | fraction _ _ hdigits =>
    obtain ⟨hwhole, hpart⟩ := List.forall_mem_append.1 hdigits
    refine List.forall_mem_append.2 ⟨?_, List.forall_mem_cons.2 ⟨by decide, ?_⟩⟩
    · exact fun c hc => not_mem_delimiters_of_isDigit (hwhole c hc)
    · exact fun c hc => not_mem_delimiters_of_isDigit (hpart c hc)
  | keyword k =>
    obtain ⟨d, ds, htext, hd, hds⟩ := exists_of_keyword k
    rw [htext]
    exact List.forall_mem_cons.2 ⟨not_mem_delimiters_of_isLetter hd,
      fun c hc => not_mem_delimiters (hds c hc)⟩
  | name hd hds _ =>
    exact List.forall_mem_cons.2 ⟨not_mem_delimiters_of_isLetter hd,
      fun c hc => not_mem_delimiters (hds c hc)⟩

end Form

section
variable {x : Float} {b : Binary} {text : List Char} {q : ℚ}

/-- Numbers are written with digits, points, signs and the letter `e`. -/
theorem Layout.Written.not_mem_delimiters (h : Written b text q) :
    ∀ c ∈ text, c ∉ Form.delimiters := by
  have hdigits {ds : List Char} (h : ∀ d ∈ ds, isDigit d = true) : ∀ d ∈ ds, d ∉ Form.delimiters :=
    fun d hd => Form.not_mem_delimiters_of_isDigit (h d hd)
  have hsigns : ∀ sign ∈ ['+', '-'], sign ∉ Form.delimiters := by simp [Form.delimiters]
  have hpoint : '.' ∉ Form.delimiters := by decide
  have he : 'e' ∉ Form.delimiters := by decide
  cases h with
  | whole _ _ hplain => exact hdigits hplain.isDigit
  | fraction _ _ _ hplain hpart =>
    exact List.forall_mem_append.2 ⟨hdigits hplain.isDigit,
      List.forall_mem_cons.2 ⟨hpoint, hdigits hpart.isDigit⟩⟩
  | scientific _ _ hshape =>
    cases hshape with
    | whole hd _ hsign hexponent =>
      simp only [List.forall_mem_cons]
      exact ⟨Form.not_mem_delimiters_of_isDigit hd, he, hsigns _ hsign, hdigits hexponent.isDigit⟩
    | fraction hd _ hpart hsign hexponent =>
      simp only [List.forall_mem_cons, List.forall_mem_append]
      exact ⟨Form.not_mem_delimiters_of_isDigit hd, hpoint, hdigits hpart.isDigit, he,
        hsigns _ hsign, hdigits hexponent.isDigit⟩

theorem toList_text_number (hx : Numeral.ofFloat x = .finite b) :
    (Value.number x).text.toList = (if b.value < 0 then ['-'] else []) ++ digitText b := by
  rw [Value.text, Layout.text, hx, String.toList_ofList, finite_eq]

theorem plainAtom_number (hx : Numeral.ofFloat x = .finite b) :
    Form.PlainAtom (Value.number x).text.toList := by
  have hwritten := written_digitText (Numeral.isDouble_of_ofBits hx)
  rw [toList_text_number hx]
  obtain ⟨c, cs, htext, -⟩ := hwritten.exists_digit
  refine ⟨by simp [htext], List.forall_mem_append.2 ⟨?_, hwritten.not_mem_delimiters⟩⟩
  split
  · exact List.forall_mem_singleton.2 (by decide)
  · exact List.forall_mem_nil _

/-- The text of a number begins with a digit or with a minus. -/
theorem kindOf?_number (hx : Numeral.ofFloat x = .finite b) :
    ∃ kind ∈ [Kind.number, .minus], kindOf? (Value.number x).text.toList = some kind := by
  rw [toList_text_number hx]
  split
  · exact ⟨.minus, by decide, rfl⟩
  · obtain ⟨c, cs, htext, hc⟩ := (written_digitText (Numeral.isDouble_of_ofBits hx)).exists_digit
    refine ⟨.number, by decide, ?_⟩
    rw [List.nil_append, htext, kindOf?, front_digit hc]

end

/-! ### Literals -/

def Literal.Readable : Literal → Prop
  | .string _ => False
  | .number x => ∃ b, Numeral.ofFloat x = .finite b
  | .nil | .bool _ => True

/-- The kinds of the lexemes that the text of a literal can begin with. -/
def Literal.kinds : Literal → List Kind
  | .nil => [.keyword .nilWord]
  | .bool true => [.keyword .trueWord]
  | .bool false => [.keyword .falseWord]
  | .number _ => [.number, .minus]
  | .string _ => [.string]

namespace Literal

variable {v v' : Literal}

theorem Readable.kindOf?_text (h : v.Readable) :
    ∃ kind ∈ v.kinds, kindOf? (Value.ofLiteral v).text.toList = some kind := by
  cases v with
  | nil => exact ⟨_, List.mem_singleton_self _, kindOf?_of_isPiece (.keyword .nilWord)⟩
  | bool b =>
    cases b with
    | true => exact ⟨_, List.mem_singleton_self _, kindOf?_of_isPiece (.keyword .trueWord)⟩
    | false => exact ⟨_, List.mem_singleton_self _, kindOf?_of_isPiece (.keyword .falseWord)⟩
  | number x =>
    obtain ⟨b, hb⟩ := h
    exact kindOf?_number hb
  | string s => exact h.elim

theorem Readable.plainAtom (h : v.Readable) : Form.PlainAtom (Value.ofLiteral v).text.toList := by
  have hkeyword (k : Keyword) : Form.PlainAtom k.word.toList :=
    Form.plainAtom_of_isPiece (.keyword k) (by simp)
  cases v with
  | nil => exact hkeyword .nilWord
  | bool b =>
    cases b with
    | true => exact hkeyword .trueWord
    | false => exact hkeyword .falseWord
  | number x =>
    obtain ⟨b, hb⟩ := h
    exact plainAtom_number hb
  | string s => exact h.elim

/-- The text of a literal is not a name. -/
theorem Readable.kindOf?_ne (h : v.Readable) :
    kindOf? (Value.ofLiteral v).text.toList ≠ some .identifier := by
  obtain ⟨kind, hkind, heq⟩ := h.kindOf?_text
  rw [heq, Ne, Option.some_inj]
  rintro rfl
  cases v with
  | bool b => cases b <;> simp [kinds] at hkind
  | _ => simp [kinds] at hkind

theorem Readable.alike (h : v.Readable) (h' : v'.Readable)
    (heq : (Value.ofLiteral v).text.toList = (Value.ofLiteral v').text.toList) : v.Alike v' := by
  obtain ⟨kind, hkind, hkindOf⟩ := h.kindOf?_text
  obtain ⟨kind', hkind', hkindOf'⟩ := h'.kindOf?_text
  rw [heq, hkindOf', Option.some_inj] at hkindOf
  subst hkindOf
  -- Different literals begin with lexemes of different kinds, unless both are numbers.
  have hkinds : v = v' ∨ (∃ x, v = .number x) ∧ ∃ y, v' = .number y := by
    rcases v with _ | (_ | _) | x | s <;> rcases v' with _ | (_ | _) | y | s' <;>
      simp_all [kinds, Readable]
  rcases hkinds with rfl | ⟨⟨x, rfl⟩, y, rfl⟩
  · exact .refl v
  · exact .number (String.toList_inj.1 heq)

end Literal

/-! ### Nodes -/

def Token.IsOf (kinds : List Kind) (t : Token) : Prop := IsLexeme t ∧ t.kind ∈ kinds

/-- The tokens in the node of an expression are lexemes of kinds that belong there, and its literal
is no string, no infinite number and no NaN. -/
def Expr.Readable : Expr → Prop
  | .literal v => v.Readable
  | .grouping _ => True
  | .unary op _ => op.IsOf Grammar.unaryOperators
  | .binary _ op _ => op.IsOf Grammar.binaryOperators
  | .logical _ op _ => op.IsOf Grammar.logicalOperators
  | .variable name | .assign name _ => name.IsOf [.identifier]
  | .call _ paren _ => paren.IsOf [.rightParen]

def Stmt.Readable : Stmt → Prop
  | .var name _ => name.IsOf [.identifier]
  | .function name params _ => name.IsOf [.identifier] ∧ ∀ p ∈ params, p.IsOf [.identifier]
  | .result kw _ => kw.IsOf [.keyword .returnWord]
  | .expression _ | .print _ | .block _ | .conditional .. | .loop .. => True

inductive Expr.Shape
  | literal | grouping | unary | binary | logical | named | assign | call
  deriving DecidableEq

def Expr.shape : Expr → Shape
  | .literal _ => .literal
  | .grouping _ => .grouping
  | .unary .. => .unary
  | .binary .. => .binary
  | .logical .. => .logical
  | .variable _ => .named
  | .assign .. => .assign
  | .call .. => .call

inductive Expr.SameNode : Expr → Expr → Prop
  | literal (v v' : Literal) : SameNode (.literal v) (.literal v')
  | grouping (e e' : Expr) : SameNode (.grouping e) (.grouping e')
  | unary (op op' : Token) (e e' : Expr) : SameNode (.unary op e) (.unary op' e')
  | binary (l l' : Expr) (op op' : Token) (r r' : Expr) :
      SameNode (.binary l op r) (.binary l' op' r')
  | logical (l l' : Expr) (op op' : Token) (r r' : Expr) :
      SameNode (.logical l op r) (.logical l' op' r')
  | named (name name' : Token) : SameNode (.variable name) (.variable name')
  | assign (name name' : Token) (e e' : Expr) : SameNode (.assign name e) (.assign name' e')
  | call (callee callee' : Expr) (paren paren' : Token) (args args' : List Expr) :
      SameNode (.call callee paren args) (.call callee' paren' args')

theorem Expr.sameNode_of_shape_eq {e e' : Expr} (h : e.shape = e'.shape) : e.SameNode e' := by
  cases e <;> cases e' <;> first | constructor | cases h

/-- Which node a list stands for, from the kind of its head, from whether that is `group`, and from
the number of the other items. -/
def Form.listShape (kind : Option Kind) (isGroup : Bool) (items : Nat) : Expr.Shape :=
  match kind with
  | some .identifier => if isGroup then .grouping else .call
  | some .equal => .assign
  | some (.keyword _) => .logical
  | _ => if items = 1 then .unary else .binary

def Form.shape : Form → Expr.Shape
  | .atom text => if kindOf? text = some .identifier then .named else .literal
  | .list (.atom head :: items) =>
    listShape (kindOf? head) (head == "group".toList) items.length
  | .list _ => .call

namespace Token.IsOf

variable {t t' : Token} {kinds kinds' : List Kind}

theorem plainAtom (h : t.IsOf kinds)
    (hkinds : ∀ kind ∈ kinds, kind ∉ [.leftParen, .rightParen, .string]) :
    Form.PlainAtom t.lexeme.toList := Form.plainAtom_of_isPiece h.1 (hkinds _ h.2)

theorem bare_eq (h : t.IsOf kinds) (h' : t'.IsOf kinds')
    (heq : Form.atom t.lexeme.toList = Form.atom t'.lexeme.toList) : t.bare = t'.bare :=
  h.1.bare_eq h'.1 (Form.atom.inj heq)

/-- Lexemes of a kind that has one spelling are all the same. -/
theorem bare_eq_of_spelling {kind : Kind} {spelling : List Char}
    (hspelling : ∀ {text literal}, IsPiece text (.lexeme kind literal) → text = spelling)
    (h : t.IsOf [kind]) (h' : t'.IsOf [kind]) : t.bare = t'.bare := by
  obtain ⟨hpiece, hkind⟩ := h
  obtain ⟨hpiece', hkind'⟩ := h'
  refine hpiece.bare_eq hpiece' ?_
  rw [IsLexeme, List.mem_singleton.1 hkind] at hpiece
  rw [IsLexeme, List.mem_singleton.1 hkind'] at hpiece'
  rw [hspelling hpiece, hspelling hpiece']

/-- Lists of tokens with the same lexemes differ in nothing but places. -/
theorem map_bare_eq {ts ts' : List Token} (h : ∀ t ∈ ts, t.IsOf kinds)
    (h' : ∀ t ∈ ts', t.IsOf kinds') (heq : (ts.map fun t => Form.atom t.lexeme.toList) =
      ts'.map fun t => Form.atom t.lexeme.toList) : ts.map Token.bare = ts'.map Token.bare := by
  have hall : List.Forall₂ (fun t t' => t.bare = t'.bare) ts ts' :=
    forall₂_of_map_eq (fun t ht t' ht' => (h t ht).bare_eq (h' t' ht')) heq
  rwa [← List.forall₂_eq_eq_eq, List.forall₂_map_left_iff, List.forall₂_map_right_iff]

theorem exists_kind (h : t.IsOf kinds) :
    ∃ kind ∈ kinds, kindOf? t.lexeme.toList = some kind := ⟨t.kind, h.2, h.1.kindOf?_eq⟩

end Token.IsOf

/-- The form of an expression tells what its node is. -/
theorem Expr.Readable.shape_form {e : Expr} (h : e.Readable) : e.form.shape = e.shape := by
  -- What a list with an operator at its head stands for.
  have hoperator {kinds : List Kind} {items : Nat} {shape : Shape}
      (hshape : ∀ kind ∈ kinds, ∀ isGroup, Form.listShape (some kind) isGroup items = shape)
      {op : Token} (hop : op.IsOf kinds) (isGroup : Bool) :
      Form.listShape (kindOf? op.lexeme.toList) isGroup items = shape := by
    obtain ⟨kind, hkind, heq⟩ := hop.exists_kind
    rw [heq, hshape kind hkind]
  cases e with
  | literal v => exact if_neg h.kindOf?_ne
  | grouping e => rfl
  | unary op e =>
    have hshape : ∀ kind ∈ Grammar.unaryOperators, ∀ isGroup,
        Form.listShape (some kind) isGroup 1 = .unary := by decide
    exact hoperator hshape h _
  | binary l op r =>
    have hshape : ∀ kind ∈ Grammar.binaryOperators, ∀ isGroup,
        Form.listShape (some kind) isGroup 2 = .binary := by decide
    exact hoperator hshape h _
  | logical l op r =>
    have hshape : ∀ kind ∈ Grammar.logicalOperators, ∀ isGroup,
        Form.listShape (some kind) isGroup 2 = .logical := by decide
    exact hoperator hshape h _
  | «variable» name =>
    obtain ⟨kind, hkind, heq⟩ := Token.IsOf.exists_kind h
    rw [List.mem_singleton.1 hkind] at heq
    exact if_pos heq
  | assign name e => rfl
  | call callee paren args => rfl

/-! ### Statements -/

def Form.headKind? : Form → Option Kind
  | .list (.atom head :: _) => kindOf? head
  | _ => none

namespace Stmt

def headKind : Stmt → Kind
  | .expression _ => .semicolon
  | .print _ => .keyword .printWord
  | .var .. => .keyword .varWord
  | .block _ => .identifier
  | .conditional .. => .keyword .ifWord
  | .loop .. => .keyword .whileWord
  | .function .. => .keyword .funWord
  | .result .. => .keyword .returnWord

inductive SameNode : Stmt → Stmt → Prop
  | expression (e e' : Expr) : SameNode (.expression e) (.expression e')
  | print (e e' : Expr) : SameNode (.print e) (.print e')
  | var (name name' : Token) (e e' : Option Expr) : SameNode (.var name e) (.var name' e')
  | block (body body' : List Stmt) : SameNode (.block body) (.block body')
  | conditional (c c' : Expr) (t t' : Stmt) (e e' : Option Stmt) :
      SameNode (.conditional c t e) (.conditional c' t' e')
  | loop (c c' : Expr) (body body' : Stmt) : SameNode (.loop c body) (.loop c' body')
  | function (name name' : Token) (params params' : List Token) (body body' : List Stmt) :
      SameNode (.function name params body) (.function name' params' body')
  | result (kw kw' : Token) (e e' : Option Expr) : SameNode (.result kw e) (.result kw' e')

theorem sameNode_of_headKind_eq {s s' : Stmt} (h : s.headKind = s'.headKind) : s.SameNode s' := by
  cases s <;> cases s' <;> first | constructor | cases h

theorem headKind?_form (s : Stmt) : s.form.headKind? = some s.headKind := by
  cases s with
  | conditional c t e => cases e <;> rfl
  | _ => rfl

end Stmt

end Lox
