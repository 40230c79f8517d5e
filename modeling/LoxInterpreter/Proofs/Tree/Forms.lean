import LoxInterpreter.Tree.Prefix

/-!
Forms: atoms, and lists of forms in parentheses. The text of a form can be read in only one way if
its atoms are plain, that is, if none is empty and no blank or parenthesis is in one. The prefix
form of a tree is such a text.
-/

namespace Lox

inductive Form
  | atom (text : List Char)
  | list (items : List Form)

namespace Form

mutual

/-- The text of a form: the items of a list are in parentheses, with blanks between them. -/
def render : Form → List Char
  | atom text => text
  | list items => '(' :: renderItems items

def renderItems : List Form → List Char
  | [] => [')']
  | item :: items => item.render ++ renderMore items

def renderMore : List Form → List Char
  | [] => [')']
  | item :: items => ' ' :: (item.render ++ renderMore items)

end

def delimiters : List Char := [' ', '(', ')']

def PlainAtom (text : List Char) : Prop := text ≠ [] ∧ ∀ c ∈ text, c ∉ delimiters

instance (text : List Char) : Decidable (PlainAtom text) :=
  @instDecidableAnd _ _ inferInstance (List.decidableBAll (· ∉ delimiters) text)

inductive Plain : Form → Prop
  | atom {text : List Char} (h : PlainAtom text) : Plain (atom text)
  | list {items : List Form} (h : ∀ item ∈ items, Plain item) : Plain (list items)

/-- A list is plain if its head and its other items are. -/
theorem Plain.list_cons {head : List Char} {items : List Form} (hhead : PlainAtom head)
    (hitems : ∀ item ∈ items, item.Plain) : (Form.list (Form.atom head :: items)).Plain :=
  Plain.list (List.forall_mem_cons.2 ⟨Plain.atom hhead, hitems⟩)

theorem list_cons_inj {item item' : Form} {items items' : List Form}
    (h : list (item :: items) = list (item' :: items')) : item = item' ∧ items = items' :=
  List.cons.inj (list.inj h)

/-- A text does not go on with an atom. -/
def Delimited (text : List Char) : Prop := ∀ c ∈ text.head?, c ∈ delimiters

variable {text text' rest rest' : List Char}

theorem renderMore_eq_cons (items : List Form) :
    ∃ c cs, renderMore items = c :: cs ∧ c ∈ delimiters := by
  cases items with
  | nil => exact ⟨')', [], rfl, by decide⟩
  | cons item items => exact ⟨' ', _, rfl, by decide⟩

theorem delimited_renderMore (items : List Form) (rest : List Char) :
    Delimited (renderMore items ++ rest) := by
  obtain ⟨c, cs, heq, hc⟩ := renderMore_eq_cons items
  rw [heq]
  rintro _ ⟨⟩
  exact hc

/-- An atom ends where something else begins. -/
theorem PlainAtom.append_inj (h : PlainAtom text) (h' : PlainAtom text') (hrest : Delimited rest)
    (hrest' : Delimited rest') (heq : text ++ rest = text' ++ rest') :
    text = text' ∧ rest = rest' := by
  have htake {text rest : List Char} (h : PlainAtom text) (hrest : Delimited rest) :
      (text ++ rest).takeWhile (· ∉ delimiters) = text := by
    rw [List.takeWhile_append_of_pos fun c hc => decide_eq_true (h.2 c hc)]
    cases rest with
    | nil => simp
    | cons c cs => rw [List.takeWhile_cons_of_neg (by simp [hrest c rfl]), List.append_nil]
  have htext : text = text' := by rw [← htake h hrest, heq, htake h' hrest']
  subst htext
  exact ⟨rfl, List.append_cancel_left heq⟩

/-- An atom does not begin with a blank or a parenthesis. -/
theorem PlainAtom.append_ne {c : Char} (h : PlainAtom text) (hc : c ∈ delimiters)
    (cs : List Char) : text ++ rest ≠ c :: cs := by
  obtain ⟨d, ds, rfl⟩ := List.exists_cons_of_ne_nil h.1
  intro heq
  obtain ⟨rfl, -⟩ := List.cons.inj heq
  exact h.2 d List.mem_cons_self hc

/-- No form begins with a closing parenthesis. -/
theorem Plain.render_append_ne {f : Form} (h : f.Plain) (cs : List Char) :
    f.render ++ rest ≠ ')' :: cs := by
  cases h with
  | atom h => exact h.append_ne (by decide) cs
  | list _ => simp [render]

mutual

/-- What is behind a form tells where the form ends. -/
theorem render_append_inj : ∀ {f g : Form} {rest rest' : List Char}, f.Plain → g.Plain →
    Delimited rest → Delimited rest' → f.render ++ rest = g.render ++ rest' → f = g ∧ rest = rest'
  | atom text, atom text', rest, rest', .atom h, .atom h', hrest, hrest', heq => by
    obtain ⟨htext, hrests⟩ := h.append_inj h' hrest hrest' heq
    exact ⟨congrArg atom htext, hrests⟩
  | atom text, list items, rest, rest', .atom h, _, _, _, heq =>
    absurd heq (h.append_ne (by decide) _)
  | list items, atom text, rest, rest', _, .atom h, _, _, heq =>
    absurd heq.symm (h.append_ne (by decide) _)
  | list items, list items', rest, rest', .list h, .list h', _, _, heq => by
    obtain ⟨hitems, hrests⟩ := renderItems_append_inj h h' (List.cons.inj heq).2
    exact ⟨congrArg list hitems, hrests⟩

theorem renderItems_append_inj : ∀ {fs gs : List Form} {rest rest' : List Char},
    (∀ f ∈ fs, f.Plain) → (∀ g ∈ gs, g.Plain) → renderItems fs ++ rest = renderItems gs ++ rest' →
    fs = gs ∧ rest = rest'
  | [], [], rest, rest', _, _, heq => ⟨rfl, (List.cons.inj heq).2⟩
  | [], g :: gs, rest, rest', _, h', heq => by
    rw [renderItems, renderItems, List.append_assoc] at heq
    exact absurd heq.symm ((h' g List.mem_cons_self).render_append_ne rest)
  | f :: fs, [], rest, rest', h, _, heq => by
    rw [renderItems, renderItems, List.append_assoc] at heq
    exact absurd heq ((h f List.mem_cons_self).render_append_ne rest')
  | f :: fs, g :: gs, rest, rest', h, h', heq => by
    obtain ⟨hf, hfs⟩ := List.forall_mem_cons.1 h
    obtain ⟨hg, hgs⟩ := List.forall_mem_cons.1 h'
    rw [renderItems, renderItems, List.append_assoc, List.append_assoc] at heq
    obtain ⟨rfl, hmore⟩ := render_append_inj hf hg (delimited_renderMore fs rest)
      (delimited_renderMore gs rest') heq
    obtain ⟨rfl, hrests⟩ := renderMore_append_inj hfs hgs hmore
    exact ⟨rfl, hrests⟩

theorem renderMore_append_inj : ∀ {fs gs : List Form} {rest rest' : List Char},
    (∀ f ∈ fs, f.Plain) → (∀ g ∈ gs, g.Plain) → renderMore fs ++ rest = renderMore gs ++ rest' →
    fs = gs ∧ rest = rest'
  | [], [], rest, rest', _, _, heq => ⟨rfl, (List.cons.inj heq).2⟩
  | [], g :: gs, rest, rest', _, _, heq => by
    cases (List.cons.inj heq).1
  | f :: fs, [], rest, rest', _, _, heq => by
    cases (List.cons.inj heq).1
  | f :: fs, g :: gs, rest, rest', h, h', heq => by
    obtain ⟨hf, hfs⟩ := List.forall_mem_cons.1 h
    obtain ⟨hg, hgs⟩ := List.forall_mem_cons.1 h'
    rw [renderMore, renderMore, List.cons_append, List.cons_append, List.append_assoc,
      List.append_assoc] at heq
    obtain ⟨-, htail⟩ := List.cons.inj heq
    obtain ⟨rfl, hmore⟩ := render_append_inj hf hg (delimited_renderMore fs rest)
      (delimited_renderMore gs rest') htail
    obtain ⟨rfl, hrests⟩ := renderMore_append_inj hfs hgs hmore
    exact ⟨rfl, hrests⟩

end

/-- A form is known from its text. -/
theorem Plain.eq_of_render_eq {f g : Form} (hf : f.Plain) (hg : g.Plain)
    (h : f.render = g.render) : f = g := by
  have hnil : Delimited [] := by simp [Delimited]
  exact (render_append_inj hf hg hnil hnil (congrArg (· ++ []) h)).1

theorem renderMore_eq (items : List Form) :
    renderMore items = items.flatMap (fun item => ' ' :: item.render) ++ [')'] := by
  induction items with
  | nil => rfl
  | cons item items ih =>
    rw [renderMore, ih, List.flatMap_cons, List.append_assoc, List.cons_append]

/-- What is put in parentheses is the text of a list. -/
theorem toList_parenthesize (head : String) {parts : List String} {items : List Form}
    (h : parts.map String.toList = items.map render) :
    (parenthesize head parts).toList = (list (atom head.toList :: items)).render := by
  have hparts : (String.join (parts.map (" " ++ ·))).toList =
      items.flatMap fun item => ' ' :: item.render := by
    have hflat := congrArg (List.flatMap fun text => ' ' :: text) h
    rw [List.flatMap_map, List.flatMap_map] at hflat
    rw [String.toList_join, List.flatMap_map, ← hflat]
    simp [String.toList_append]
  rw [parenthesize, render, renderItems, render, renderMore_eq]
  simp [String.toList_append, hparts]

/-- Names with blanks between them, in parentheses, are the text of a list. -/
theorem toList_names (names : List String) :
    ("(" ++ " ".intercalate names ++ ")").toList =
      (list (names.map fun name => atom name.toList)).render := by
  have hitems : (" ".intercalate names).toList ++ [')'] =
      renderItems (names.map fun name => atom name.toList) := by
    induction names with
    | nil => rfl
    | cons name names ih =>
      cases names with
      | nil => simp [renderItems, renderMore, render]
      | cons name' names =>
        rw [String.intercalate_cons_cons, String.toList_append, String.toList_append,
          List.append_assoc, ih, List.append_assoc]
        rfl
  rw [render, ← hitems]
  simp [String.toList_append]

end Form

/-! ### Trees -/

mutual

def Expr.form : Expr → Form
  | .literal v => .atom (Value.ofLiteral v).text.toList
  | .grouping e => .list [.atom "group".toList, e.form]
  | .unary op e => .list [.atom op.lexeme.toList, e.form]
  | .binary l op r | .logical l op r => .list [.atom op.lexeme.toList, l.form, r.form]
  | .variable name => .atom name.lexeme.toList
  | .assign name e => .list [.atom "=".toList, .atom name.lexeme.toList, e.form]
  | .call callee _ args => .list (.atom "call".toList :: callee.form :: Expr.forms args)

def Expr.forms : List Expr → List Form
  | [] => []
  | e :: es => e.form :: Expr.forms es

end

theorem Expr.forms_eq_map (es : List Expr) : Expr.forms es = es.map Expr.form := by
  induction es with
  | nil => rfl
  | cons e es ih => rw [forms, ih, List.map_cons]

mutual

def Stmt.form : Stmt → Form
  | .expression e => .list [.atom ";".toList, e.form]
  | .print e => .list [.atom "print".toList, e.form]
  | .var name initializer =>
    .list (.atom "var".toList :: .atom name.lexeme.toList :: Expr.forms initializer.toList)
  | .block body => .list (.atom "block".toList :: Stmt.forms body)
  | .conditional c t none => .list [.atom "if".toList, c.form, t.form]
  | .conditional c t (some e) => .list [.atom "if".toList, c.form, t.form, e.form]
  | .loop c body => .list [.atom "while".toList, c.form, body.form]
  | .function name params body =>
    .list (.atom "fun".toList :: .atom name.lexeme.toList ::
      .list (params.map fun param => .atom param.lexeme.toList) :: Stmt.forms body)
  | .result _ value => .list (.atom "return".toList :: Expr.forms value.toList)

def Stmt.forms : List Stmt → List Form
  | [] => []
  | s :: ss => s.form :: Stmt.forms ss

end

theorem Stmt.forms_eq_map (ss : List Stmt) : Stmt.forms ss = ss.map Stmt.form := by
  induction ss with
  | nil => rfl
  | cons s ss ih => rw [forms, ih, List.map_cons]

mutual

/-- The prefix form of an expression is the text of its form. -/
theorem Expr.toList_text : ∀ e : Expr, e.text.toList = e.form.render
  | .literal v => rfl
  | .grouping e => Form.toList_parenthesize _ (by simp [e.toList_text])
  | .unary op e => Form.toList_parenthesize _ (by simp [e.toList_text])
  | .binary l op r => Form.toList_parenthesize _ (by simp [l.toList_text, r.toList_text])
  | .logical l op r => Form.toList_parenthesize _ (by simp [l.toList_text, r.toList_text])
  | .variable name => rfl
  | .assign name e => Form.toList_parenthesize _ (by simp [e.toList_text, Form.render])
  | .call callee _ args =>
    Form.toList_parenthesize _ (by simp [callee.toList_text, Expr.toList_texts args])

theorem Expr.toList_texts : ∀ es : List Expr,
    (Expr.texts es).map String.toList = (Expr.forms es).map Form.render
  | [] => rfl
  | e :: es => by
    rw [Expr.texts, Expr.forms, List.map_cons, List.map_cons, e.toList_text, Expr.toList_texts es]

end

mutual

/-- The prefix form of a statement is the text of its form. -/
theorem Stmt.toList_text : ∀ s : Stmt, s.text.toList = s.form.render
  | .expression e => Form.toList_parenthesize _ (by simp [e.toList_text])
  | .print e => Form.toList_parenthesize _ (by simp [e.toList_text])
  | .var name none => Form.toList_parenthesize _ (by simp [Form.render, Expr.forms])
  | .var name (some e) =>
    Form.toList_parenthesize _ (by simp [e.toList_text, Form.render, Expr.forms])
  | .block body => Form.toList_parenthesize _ (Stmt.toList_texts body)
  | .conditional c t none => Form.toList_parenthesize _ (by simp [c.toList_text, t.toList_text])
  | .conditional c t (some e) =>
    Form.toList_parenthesize _ (by simp [c.toList_text, t.toList_text, e.toList_text])
  | .loop c body => Form.toList_parenthesize _ (by simp [c.toList_text, body.toList_text])
  | .function name params body => by
    refine Form.toList_parenthesize _ ?_
    rw [List.map_cons, List.map_cons, Stmt.toList_texts body, Form.toList_names, List.map_map]
    rfl
  | .result _ none => Form.toList_parenthesize _ rfl
  | .result _ (some e) => Form.toList_parenthesize _ (by simp [e.toList_text, Expr.forms])

theorem Stmt.toList_texts : ∀ ss : List Stmt,
    (Stmt.texts ss).map String.toList = (Stmt.forms ss).map Form.render
  | [] => rfl
  | s :: ss => by
    rw [Stmt.texts, Stmt.forms, List.map_cons, List.map_cons, s.toList_text, Stmt.toList_texts ss]

end

end Lox
