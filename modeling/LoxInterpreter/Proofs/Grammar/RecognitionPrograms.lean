import LoxInterpreter.Proofs.Grammar.DanglingElse
import LoxInterpreter.Proofs.Grammar.Recognition

/-!
What the parser reads, the grammar derives: statements, declarations and blocks. As errors in a
declaration are recovered from, these parsers can end well although they gave up on a part. Then
the errors say so, and there need not be a derivation.
-/

namespace Lox

namespace Grammar

open Parse (Parser State)

variable {α : Type}

/-- Between the two states, what stands in `d` after the tokens `front` was read. No `else` that
`d` could take was left behind. -/
structure ReadAfter {c : Category} (front : List Token) (d : Derivation c) (s s' : State) :
    Prop where
  passes : ∃ ts, d.tokens = front ++ ts ∧ Passes s ts (d.faults s.depth) s'
  nearest : d.ElseNearest
  closed : d.endsOpen = true → Begins (· ≠ .keyword .elseWord) s'.rest

/-- A derivation was read and `value` gives the result for it, or a part was given up. -/
def Completes {c : Category} (front : List Token) (value : Derivation c → α) (s : State) (a : α)
    (s' : State) : Prop :=
  Ahead s s' ∧ ((∃ d : Derivation c, value d = a ∧ ReadAfter front d s s') ∨ HasFatal s')

theorem Completes.of_passes {c : Category} {front ts : List Token} {value : Derivation c → α}
    {s s' : State} {a : α} (d : Derivation c) (hvalue : value d = a)
    (htokens : d.tokens = front ++ ts) (h : Passes s ts (d.faults s.depth) s')
    (hnearest : d.ElseNearest) (hclosed : d.endsOpen = false) : Completes front value s a s' :=
  ⟨h.ahead, Or.inl ⟨d, hvalue, ⟨ts, htokens, h⟩, hnearest, by simp [hclosed]⟩⟩

/-- What is left of a derivation after its first token is read after that token. -/
theorem Completes.of_front {c : Category} {t : Token} {value : Derivation c → α}
    {s s₁ s' : State} {a : α} (ht : Passes s [t] [] s₁) (h : Completes [t] value s₁ a s') :
    s'.rest.length < s.rest.length ∧ Completes [] value s a s' := by
  obtain ⟨hahead, hor⟩ := h
  have hlength := ht.length_eq
  have hle := hahead.length_le
  rw [List.length_singleton] at hlength
  refine ⟨by omega, ht.ahead.trans hahead, ?_⟩
  rcases hor with ⟨d, hvalue, ⟨ts, htokens, hpasses⟩, hnearest, hclosed⟩ | hfatal
  · rw [ht.depth] at hpasses
    exact Or.inl ⟨d, hvalue, ⟨_, htokens, ht.trans hpasses⟩, hnearest, hclosed⟩
  · exact Or.inr hfatal

/-! ### Parts without statements -/

namespace Recognizes

open Lox.Grammar.Derivation

variable {fuel : Nat} {s : State}

theorem expressionStatement (hs : Terminated s.rest) (hfuel : 16 * s.rest.length ≤ fuel) :
    Recognizes (c := .expressionStatement) (Parse.expressionStatement fuel) s tree := by
  refine .bind ((recognizesExpressions fuel).expression hs hfuel) ?_
  rintro _ s₁ ⟨e, rfl, he⟩
  apply Meets.bind_expect he.ahead
  intro (stop : Mark .semicolon) s₂ hstop
  refine .pure ⟨.expressionStatement e stop, rfl, (he.trans hstop).cast rfl ?_⟩
  simp [faults]

theorem optionalExpression (stop : Kind) (hs : Terminated s.rest)
    (hfuel : 16 * s.rest.length ≤ fuel) :
    Recognizes (c := .optionalExpression) (Parse.unlessNext stop (Parse.expression fuel)) s
      tree := by
  refine .unlessNext hs (fun _ => ⟨noExpression, rfl, .refl hs⟩) fun _ => ?_
  refine ((recognizesExpressions fuel).expression hs hfuel).imp ?_
  rintro _ s₁ ⟨e, rfl, he⟩
  exact ⟨someExpression e, rfl, he⟩

/-- The parser of variable declarations recognizes what stands after their keyword. -/
theorem varDeclaration (kw : Word .varWord) (hs : Terminated s.rest)
    (hfuel : 16 * s.rest.length ≤ fuel) :
    Meets (Parse.varDeclaration fuel) s (fun a s' => ∃ (v : Derivation .varDeclaration)
      (ts : List Token), v.tree = a ∧ v.tokens = kw.token :: ts ∧
        Passes s ts (v.faults s.depth) s') (Broken s) := by
  apply Meets.bind_expect (Ahead.refl hs)
  intro (name : Mark .identifier) s₁ hname
  have hlength := hname.length_eq
  refine .bind (.afterOptional (T := fun a s' => Passes s₁ [] [] s' ∧ a = none ∨
      ∃ (equals : Mark .equal) (e : Derivation .expression), a = some e.tree ∧
        Passes s₁ (equals.token :: e.tokens) (e.faults s.depth) s')
    hname.terminated (by simp) (fun _ => Or.inl ⟨.refl hname.terminated, rfl⟩) ?_) ?_
  · intro u s₂ hu hequals
    have hlength' := hequals.length_eq
    refine (Meets.after (hname.trans hequals).ahead
      ((recognizesExpressions fuel).expression hequals.terminated (by omega))).imp ?_
    rintro _ s₃ ⟨e, rfl, he⟩
    rw [hequals.depth, hname.depth] at he
    exact Or.inr ⟨⟨u, by simp [hu]⟩, e, rfl, hequals.trans he⟩
  · rintro a s₂ (⟨hrest, rfl⟩ | ⟨equals, e, rfl, hrest⟩)
    · have hall := hname.trans hrest
      apply Meets.bind_expect hall.ahead
      intro (stop : Mark .semicolon) s₃ hstop
      exact .pure ⟨varWithout kw name stop, _, rfl, rfl, hall.trans hstop⟩
    · have hall := hname.trans hrest
      apply Meets.bind_expect hall.ahead
      intro (stop : Mark .semicolon) s₃ hstop
      refine .pure ⟨varWith kw name equals e stop, _, rfl, rfl, (hall.trans hstop).cast ?_ ?_⟩
      · simp
      · simp [faults]

theorem forInitializer (hs : Terminated s.rest) (hfuel : 16 * s.rest.length ≤ fuel) :
    Recognizes (c := .forInitializer) (Parse.forInitializer fuel) s tree := by
  obtain ⟨t, ts, hrest, -⟩ := hs.begins
  have htake : t.kind ≠ .eof → Passes s [t] [] { s with rest := ts } := .token hs hrest
  apply Meets.bind_peek hrest
  split
  next hk =>
    have hsemicolon : t.kind ∈ [Kind.semicolon] := by simp [hk]
    exact .bind_advance hrest
      (.pure ⟨noInitializer ⟨t, hsemicolon⟩, rfl, htake (by simp [hk])⟩)
  next hk =>
    have hkw := htake (by simp [hk])
    have hlength := hkw.length_eq
    let kw : Word .varWord := ⟨t, by simp [hk]⟩
    refine .bind_advance hrest (.map ?_)
    refine (Meets.after hkw.ahead (varDeclaration kw hkw.terminated (by omega))).imp ?_
    rintro _ s₁ ⟨v, us, rfl, htokens, hv⟩
    exact ⟨varInitializer v, rfl, (hkw.trans hv).cast htokens.symm rfl⟩
  next =>
    refine .map ((expressionStatement hs hfuel).imp ?_)
    rintro _ s₁ ⟨e, rfl, he⟩
    exact ⟨simpleInitializer e, rfl, he⟩

theorem names (hs : Terminated s.rest) (count : Nat) (hfuel : s.rest.length ≤ fuel) :
    Meets (Parse.parameters fuel count) s (fun a s' => ∃ names : Names, names.list = a ∧
      Passes s names.tokens (names.faults count) s') (Broken s) := by
  induction fuel generalizing s count with
  | zero =>
    have hpos := hs.length_pos
    omega
  | succ fuel ih =>
    refine .bind (.limit hs) ?_
    intro _ s₁ hlimit
    apply Meets.bind_expect hlimit.ahead
    intro (name : Mark .identifier) s₂ hname
    have hhead : overlong .tooManyParameters count s.rest =
        overlong .tooManyParameters count [name.token] := by
      have hrest : s.rest = s₁.rest := hlimit.rest
      rw [hrest, hname.rest, overlong_append (.any name.token [])]
    rw [hhead] at hlimit
    have hfirst := hlimit.trans hname
    refine .bind (.accept hname.terminated (by simp)) ?_
    rintro (_ | u) s₃ h
    · obtain ⟨rfl, -⟩ := h
      exact .pure ⟨.last name, rfl, hfirst.cast rfl (by simp [Names.faults])⟩
    · obtain ⟨hu, hcomma⟩ := h
      have hall := hfirst.trans hcomma
      have hlength := hall.length_eq
      simp only [List.length_append, List.length_singleton, List.length_nil] at hlength
      refine .bind (.after hall.ahead (ih hcomma.terminated (count + 1) (by omega))) ?_
      rintro _ s₄ ⟨rest, rfl, hrest⟩
      refine .pure ⟨.more name ⟨u, by simp [hu]⟩ rest, rfl, (hall.trans hrest).cast ?_ ?_⟩
      · simp [Names.tokens]
      · simp [Names.faults]

theorem parameters (hs : Terminated s.rest) (hfuel : s.rest.length ≤ fuel) :
    Meets (Parse.listBeforeParen (Parse.parameters fuel 0)) s (fun a s' =>
      ∃ params : Parameters, params.list = a ∧ Passes s params.tokens params.faults s')
      (Broken s) := by
  refine .listBeforeParen hs (fun _ => ⟨.none, rfl, .refl hs⟩) fun _ => ?_
  refine (names hs 0 hfuel).imp ?_
  rintro _ s₁ ⟨names, rfl, hnames⟩
  exact ⟨.some names, rfl, hnames⟩

/-- The parser of print statements recognizes what stands after their keyword. -/
theorem printStatement (kw : Word .printWord) (hs : Terminated s.rest)
    (hfuel : 16 * s.rest.length ≤ fuel) :
    Meets (Parse.printStatement fuel) s
      (Completes [kw.token] (tree (c := .statement)) s) (Broken s) := by
  refine .bind ((recognizesExpressions fuel).expression hs hfuel) ?_
  rintro _ s₁ ⟨e, rfl, he⟩
  apply Meets.bind_expect he.ahead
  intro (stop : Mark .semicolon) s₂ hstop
  refine .pure (.of_passes (print kw e stop) rfl rfl ((he.trans hstop).cast rfl ?_)
    ⟨trivial, elseNearest_of_isSimple e rfl⟩ rfl)
  simp [faults]

theorem rejectTopLevel {t : Token} {R : State → Prop} (hs : Terminated s.rest) :
    Meets (Parse.rejectTopLevel t) s (fun _ s' =>
      Passes s [] (if s.depth = 0 then [⟨t, .topLevelReturn⟩] else []) s') R := by
  refine .congr (Parse.rejectTopLevel_apply t s) ?_
  split
  · exact .note hs
  · exact .pure (.refl hs)

/-- The parser of return statements recognizes what stands after their keyword. -/
theorem returnStatement (kw : Word .returnWord) (hs : Terminated s.rest)
    (hfuel : 16 * s.rest.length ≤ fuel) :
    Meets (Parse.returnStatement fuel kw.token) s
      (Completes [kw.token] (tree (c := .statement)) s) (Broken s) := by
  refine .bind (rejectTopLevel hs) ?_
  intro _ s₁ hreject
  have hlength := hreject.length_eq
  rw [List.length_nil] at hlength
  refine .bind (.after hreject.ahead
    (optionalExpression .semicolon hreject.terminated (by omega))) ?_
  rintro _ s₂ ⟨value, rfl, hvalue⟩
  rw [hreject.depth] at hvalue
  have h₂ := hreject.trans hvalue
  apply Meets.bind_expect h₂.ahead
  intro (stop : Mark .semicolon) s₃ hstop
  refine .pure (.of_passes (returning kw value stop) rfl rfl ((h₂.trans hstop).cast rfl ?_)
    ⟨trivial, elseNearest_of_isSimple value rfl⟩ rfl)
  simp [faults]

/-- A condition between parentheses is recognized, as after `if` and after `while`. -/
theorem bind_condition {e e' : Expectation} {β : Type} {f : Expr → Parser β}
    {T : β → State → Prop} (hs : Terminated s.rest) (hfuel : 16 * s.rest.length ≤ fuel)
    (hf : ∀ (opening : Mark e.kind) (condition : Derivation .expression) (closing : Mark e'.kind)
      s', Passes s (opening.token :: (condition.tokens ++ [closing.token]))
        (condition.faults s.depth) s' → Meets (f condition.tree) s' T (Broken s)) :
    Meets (do
        let _ ← Parse.expect e
        let condition ← Parse.expression fuel
        let _ ← Parse.expect e'
        f condition) s T (Broken s) := by
  apply Meets.bind_expect (Ahead.refl hs)
  intro opening s₁ hopening
  have hlength := hopening.length_eq
  refine .bind (.after hopening.ahead
    ((recognizesExpressions fuel).expression hopening.terminated (by omega))) ?_
  rintro _ s₂ ⟨condition, rfl, hcondition⟩
  rw [hopening.depth] at hcondition
  have hall := hopening.trans hcondition
  apply Meets.bind_expect hall.ahead
  intro closing s₃ hclosing
  refine hf opening condition closing s₃ ((hall.trans hclosing).cast rfl ?_)
  rw [List.append_nil, List.nil_append]

end Recognizes

structure RecognizesPrograms (fuel : Nat) : Prop where
  declaration {s : State} : Terminated s.rest → Begins (· ≠ .eof) s.rest →
    16 * s.rest.length + 2 ≤ fuel →
    Meets (Parse.declaration fuel) s (fun a s' => s'.rest.length < s.rest.length ∧
      Completes [] (fun d : Derivation .declaration => some d.tree) s a s') fun _ => False
  declarations {s : State} (inBlock : Bool) : Terminated s.rest →
    16 * s.rest.length + 3 ≤ fuel →
    Meets (Parse.declarations fuel inBlock) s (fun a s' =>
      Begins (fun k => k = .eof ∨ inBlock = true ∧ k = .rightBrace) s'.rest ∧
        Completes [] (Derivation.tree (c := .declarations)) s a s') fun _ => False
  block {s : State} (opening : Mark .leftBrace) : Terminated s.rest →
    16 * s.rest.length + 4 ≤ fuel →
    Meets (Parse.block fuel) s
      (Completes [opening.token] (Derivation.tree (c := .block)) s) (Broken s)
  functionDeclaration {s : State} (kw : Word .funWord) : Terminated s.rest →
    16 * s.rest.length + 5 ≤ fuel →
    Meets (Parse.functionDeclaration fuel) s
      (Completes [kw.token] (Derivation.tree (c := .declaration)) s) (Broken s)
  statement {s : State} : Terminated s.rest → 16 * s.rest.length + 1 ≤ fuel →
    Meets (Parse.statement fuel) s (fun a s' => s'.rest.length < s.rest.length ∧
      Completes [] (Derivation.tree (c := .statement)) s a s') (Broken s)
  forStatement {s : State} (kw : Word .forWord) : Terminated s.rest →
    16 * s.rest.length + 2 ≤ fuel →
    Meets (Parse.forStatement fuel) s
      (Completes [kw.token] (Derivation.tree (c := .statement)) s) (Broken s)

namespace RecognizesPrograms

open Lox.Grammar.Derivation

variable {fuel : Nat} {s : State}

theorem step_block (ih : RecognizesPrograms fuel) (opening : Mark .leftBrace)
    (hs : Terminated s.rest) (hfuel : 16 * s.rest.length + 4 ≤ fuel + 1) :
    Meets (Parse.block (fuel + 1)) s (Completes [opening.token] (tree (c := .block)) s)
      (Broken s) := by
  refine .bind ((ih.declarations true hs (by omega)).mono (fun _ _ hQ => hQ) fun _ => False.elim) ?_
  rintro a s₁ ⟨-, hbody, hor⟩
  apply Meets.bind_expect hbody
  intro (closing : Mark .rightBrace) s₂ hclosing
  refine .pure ⟨hbody.trans hclosing.ahead, ?_⟩
  rcases hor with ⟨body, rfl, ⟨ts, rfl, hpasses⟩, hnearest, -⟩ | hfatal
  · let d := Derivation.block opening body closing
    refine Or.inl ⟨d, rfl, ⟨_, rfl, (hpasses.trans hclosing).cast rfl ?_⟩, ⟨trivial, hnearest⟩, ?_⟩
    · simp [d, faults]
    · intro h
      cases h
  · exact Or.inr (hclosing.ahead.hasFatal hfatal)

/-- The body of a function is a block one function deeper. -/
theorem step_body (ih : RecognizesPrograms fuel) (brace : Mark .leftBrace)
    (hs : Terminated s.rest) (hfuel : 16 * s.rest.length + 4 ≤ fuel) :
    Meets (Parse.inFunction (Parse.block fuel)) s (fun a s' => Ahead s s' ∧
      ((∃ (b : Derivation .block) (ts : List Token), b.tree = a ∧
        b.tokens = brace.token :: ts ∧ Passes s ts (b.faults (s.depth + 1)) s' ∧
        b.ElseNearest) ∨ HasFatal s')) (Broken s) := by
  have hblock := ih.block (s := { s with depth := s.depth + 1 }) brace hs hfuel
  have hleave : ∀ {s'}, Ahead { s with depth := s.depth + 1 } s' →
      Ahead s { s' with depth := s'.depth - 1 } := fun h =>
    ⟨h.rest, h.errors, by simp [h.depth], h.terminated⟩
  refine .inFunction (hblock.mono ?_ ?_)
  · rintro a s' ⟨hahead, hor⟩
    refine ⟨hleave hahead, ?_⟩
    rcases hor with ⟨b, rfl, ⟨ts, htokens, hpasses⟩, hnearest, -⟩ | hfatal
    · exact Or.inl ⟨b, ts, rfl, htokens, ⟨hpasses.rest, hpasses.errors, by simp [hpasses.depth],
        hpasses.terminated⟩, hnearest⟩
    · exact Or.inr hfatal
  · rintro s' ⟨hahead, hfatal⟩
    exact ⟨hleave hahead, hfatal⟩

theorem step_functionDeclaration (ih : RecognizesPrograms fuel) (kw : Word .funWord)
    (hs : Terminated s.rest) (hfuel : 16 * s.rest.length + 5 ≤ fuel + 1) :
    Meets (Parse.functionDeclaration (fuel + 1)) s
      (Completes [kw.token] (tree (c := .declaration)) s) (Broken s) := by
  apply Meets.bind_expect (Ahead.refl hs)
  intro (name : Mark .identifier) s₁ hname
  apply Meets.bind_expect hname.ahead
  intro (opening : Mark .leftParen) s₂ hopening
  have h₂ := hname.trans hopening
  have hlength₂ := h₂.length_eq
  refine .bind (.after h₂.ahead (Recognizes.parameters h₂.terminated (by omega))) ?_
  rintro _ s₃ ⟨params, rfl, hparams⟩
  have h₃ := h₂.trans hparams
  apply Meets.bind_expect h₃.ahead
  intro (closing : Mark .rightParen) s₄ hclosing
  have h₄ := h₃.trans hclosing
  apply Meets.bind_expect h₄.ahead
  intro (brace : Mark .leftBrace) s₅ hbrace
  have h₅ := h₄.trans hbrace
  have hlength₅ := h₅.length_eq
  simp only [List.length_append, List.length_singleton] at hlength₅
  refine .bind (.after h₅.ahead (step_body ih brace h₅.terminated (by omega))) ?_
  rintro a s₆ ⟨hahead, hor⟩
  rcases hor with ⟨body, ts, rfl, htokens, hbody, hnearest⟩ | hfatal
  · refine .pure (.of_passes (function kw name opening params closing body) rfl rfl
      ((h₅.trans hbody).cast ?_ ?_) ⟨trivial, elseNearest_of_all hnearest 1⟩ rfl)
    · simp [htokens]
    · simp [faults, h₅.depth]
  · exact .pure ⟨h₅.ahead.trans hahead, Or.inr hfatal⟩

theorem step_forStatement (ih : RecognizesPrograms fuel) (kw : Word .forWord)
    (hs : Terminated s.rest) (hfuel : 16 * s.rest.length + 2 ≤ fuel + 1) :
    Meets (Parse.forStatement (fuel + 1)) s
      (Completes [kw.token] (tree (c := .statement)) s) (Broken s) := by
  apply Meets.bind_expect (Ahead.refl hs)
  intro (opening : Mark .leftParen) s₁ h₁
  have hlength₁ := h₁.length_eq
  refine .bind (.after h₁.ahead (Recognizes.forInitializer h₁.terminated (by omega))) ?_
  rintro _ s₂ ⟨initializer, rfl, hinitializer⟩
  rw [h₁.depth] at hinitializer
  have h₂ := h₁.trans hinitializer
  have hlength₂ := h₂.length_eq
  refine .bind (.after h₂.ahead
    (Recognizes.optionalExpression .semicolon h₂.terminated (by omega))) ?_
  rintro _ s₃ ⟨condition, rfl, hcondition⟩
  rw [h₂.depth] at hcondition
  have h₃ := h₂.trans hcondition
  apply Meets.bind_expect h₃.ahead
  intro (stop : Mark .semicolon) s₄ hstop
  have h₄ := h₃.trans hstop
  have hlength₄ := h₄.length_eq
  refine .bind (.after h₄.ahead
    (Recognizes.optionalExpression .rightParen h₄.terminated (by omega))) ?_
  rintro _ s₅ ⟨increment, rfl, hincrement⟩
  rw [h₄.depth] at hincrement
  have h₅ := h₄.trans hincrement
  apply Meets.bind_expect h₅.ahead
  intro (closing : Mark .rightParen) s₆ hclosing
  have h₆ := h₅.trans hclosing
  have hlength₆ := h₆.length_eq
  simp only [List.length_append, List.length_singleton] at hlength₆
  refine .bind (.after h₆.ahead (ih.statement h₆.terminated (by omega))) ?_
  rintro a s₇ ⟨-, hahead, hor⟩
  refine .pure ⟨h₆.ahead.trans hahead, ?_⟩
  rcases hor with ⟨body, rfl, ⟨ts, rfl, hbody⟩, hnearest, hclosed⟩ | hfatal
  · let d := forLoop kw opening initializer condition stop increment closing body
    rw [h₆.depth] at hbody
    refine Or.inl ⟨d, rfl, ⟨_, ?_, h₆.trans hbody |>.cast rfl ?_⟩, ?_, hclosed⟩
    · simp [d, tokens]
    · simp [d, faults]
    · exact ⟨trivial, elseNearest_of_isSimple initializer rfl,
        elseNearest_of_isSimple condition rfl, elseNearest_of_isSimple increment rfl, hnearest⟩
  · exact Or.inr hfatal

/-- Between the two states, an `else` and its statement were read, or there was no `else`. -/
inductive ElsePart (s : State) : Option Stmt → State → Prop
  | none (h : Begins (· ≠ .keyword .elseWord) s.rest) : ElsePart s none s
  | some {s' : State} (elseKw : Word .elseWord) (e : Derivation .statement)
      (h : Passes s (elseKw.token :: e.tokens) (e.faults s.depth) s') (hnearest : e.ElseNearest)
      (hclosed : e.endsOpen = true → Begins (· ≠ .keyword .elseWord) s'.rest) :
      ElsePart s (some e.tree) s'

theorem step_elseBranch (ih : RecognizesPrograms fuel) (hs : Terminated s.rest)
    (hfuel : 16 * s.rest.length ≤ fuel) :
    Meets (Parse.afterOptional (.keyword .elseWord) (Parse.statement fuel)) s
      (fun b s' => Ahead s s' ∧ (ElsePart s b s' ∨ HasFatal s')) (Broken s) := by
  refine .afterOptional hs (by simp) (fun helse => ⟨.refl hs, Or.inl (.none helse)⟩) ?_
  intro t s₁ hk helse
  have hlength := helse.length_eq
  rw [List.length_singleton] at hlength
  refine (Meets.after helse.ahead (ih.statement helse.terminated (by omega))).imp ?_
  rintro b s₂ ⟨-, hahead, hor⟩
  refine ⟨helse.ahead.trans hahead, ?_⟩
  rcases hor with ⟨e, rfl, ⟨ts, rfl, he⟩, hnearest, hclosed⟩ | hfatal
  · rw [helse.depth] at he
    exact Or.inl (.some ⟨t, by simp [hk]⟩ e (helse.trans he) hnearest hclosed)
  · exact Or.inr hfatal

/-- What stands after the keyword of an `if` is recognized. The branches are statements, so that
a part of them may have been given up. -/
theorem step_conditional (ih : RecognizesPrograms fuel) (kw : Word .ifWord)
    (hs : Terminated s.rest) (hfuel : 16 * s.rest.length + 1 ≤ fuel) :
    Meets (do
        let _ ← Parse.expect .ifParen
        let condition ← Parse.expression fuel
        let _ ← Parse.expect .ifConditionEnd
        let thenBranch ← Parse.statement fuel
        let elseBranch ← Parse.afterOptional (.keyword .elseWord) (Parse.statement fuel)
        return .conditional condition thenBranch elseBranch) s
      (Completes [kw.token] (tree (c := .statement)) s) (Broken s) := by
  refine Recognizes.bind_condition hs (by omega) ?_
  intro (opening : Mark .leftParen) condition (closing : Mark .rightParen) s₁ h₁
  have hlength := h₁.length_eq
  rw [List.length_cons] at hlength
  refine .bind (.after h₁.ahead (ih.statement h₁.terminated (by omega))) ?_
  rintro a s₂ ⟨-, hahead, hor⟩
  have hlength' := hahead.length_le
  refine .bind (.after (h₁.ahead.trans hahead)
    (step_elseBranch ih hahead.terminated (by omega))) ?_
  rintro b s₃ ⟨hahead', hor'⟩
  refine .pure ⟨(h₁.ahead.trans hahead).trans hahead', ?_⟩
  have hcondition := elseNearest_of_isSimple condition rfl
  rcases hor with ⟨thenBranch, rfl, ⟨ts, rfl, hthen⟩, hnearest, hclosed⟩ | hfatal
  · rw [h₁.depth] at hthen
    have hpasses := h₁.trans hthen
    rcases hor' with helsePart | hfatal
    · cases helsePart with
      | none helse =>
        let d := ifOnly kw opening condition closing thenBranch
        refine Or.inl ⟨d, rfl, ⟨_, ?_, hpasses.cast rfl ?_⟩, ?_, fun _ => helse⟩
        · simp [d, tokens]
        · simp [d, faults]
        · exact ⟨trivial, hcondition, hnearest⟩
      | some elseKw e he hnearest' hclosed' =>
        -- The `else` comes next, so that the first branch has no `if` that could take it.
        have hthenClosed : thenBranch.endsOpen = false := by
          refine Bool.eq_false_iff.2 fun hopen => ?_
          obtain ⟨t, ts, hts, ht⟩ := hclosed hopen
          rw [he.rest] at hts
          cases hts
          exact ht elseKw.kind_eq
        rw [hthen.depth, h₁.depth] at he
        let d := ifElse kw opening condition closing thenBranch elseKw e
        refine Or.inl ⟨d, rfl, ⟨_, ?_, (hpasses.trans he).cast rfl ?_⟩, ?_, hclosed'⟩
        · simp [d, tokens]
        · simp [d, faults]
        · exact ⟨hthenClosed, hcondition, hnearest, hnearest'⟩
    · exact Or.inr hfatal
  · exact Or.inr (hahead'.hasFatal hfatal)

/-- What stands after the keyword of a `while` is recognized. -/
theorem step_loop (ih : RecognizesPrograms fuel) (kw : Word .whileWord)
    (hs : Terminated s.rest) (hfuel : 16 * s.rest.length + 1 ≤ fuel) :
    Meets (do
        let _ ← Parse.expect .whileParen
        let condition ← Parse.expression fuel
        let _ ← Parse.expect .whileConditionEnd
        return .loop condition (← Parse.statement fuel)) s
      (Completes [kw.token] (tree (c := .statement)) s) (Broken s) := by
  refine Recognizes.bind_condition hs (by omega) ?_
  intro (opening : Mark .leftParen) condition (closing : Mark .rightParen) s₁ h₁
  have hlength₁ := h₁.length_eq
  rw [List.length_cons] at hlength₁
  refine .bind (.after h₁.ahead (ih.statement h₁.terminated (by omega))) ?_
  rintro a s₂ ⟨-, hahead, hor⟩
  refine .pure ⟨h₁.ahead.trans hahead, ?_⟩
  rcases hor with ⟨body, rfl, ⟨ts, rfl, hbody⟩, hnearest, hclosed⟩ | hfatal
  · rw [h₁.depth] at hbody
    let d := whileLoop kw opening condition closing body
    refine Or.inl ⟨d, rfl, ⟨_, ?_, (h₁.trans hbody).cast rfl ?_⟩, ?_, hclosed⟩
    · simp [d, tokens]
    · simp [d, faults]
    · exact ⟨trivial, elseNearest_of_isSimple condition rfl, hnearest⟩
  · exact Or.inr hfatal

theorem step_statement (ih : RecognizesPrograms fuel) (hs : Terminated s.rest)
    (hfuel : 16 * s.rest.length + 1 ≤ fuel + 1) :
    Meets (Parse.statement (fuel + 1)) s (fun a s' => s'.rest.length < s.rest.length ∧
      Completes [] (tree (c := .statement)) s a s') (Broken s) := by
  obtain ⟨t, ts, hrest, -⟩ := hs.begins
  have htake : t.kind ≠ .eof → Passes s [t] [] { s with rest := ts } := .token hs hrest
  -- It is enough to recognize what stands after the first token.
  have hafter : ∀ {p : Parser Stmt}, t.kind ≠ .eof →
      Meets p { s with rest := ts } (Completes [t] (tree (c := .statement)) { s with rest := ts })
        (Broken { s with rest := ts }) →
      Meets p { s with rest := ts } (fun a s' => s'.rest.length < s.rest.length ∧
        Completes [] (tree (c := .statement)) s a s') (Broken s) := fun hne hp =>
    (Meets.after (htake hne).ahead hp).imp fun _ _ => Completes.of_front (htake hne)
  have hts : t.kind ≠ .eof → Terminated ts := fun hne => (htake hne).terminated
  have hlength : s.rest.length = ts.length + 1 := by rw [hrest, List.length_cons]
  apply Meets.bind_peek hrest
  split
  next hk =>
    have hne : t.kind ≠ .eof := by simp [hk]
    exact .bind_advance hrest (hafter hne
      (ih.forStatement ⟨t, by simp [hk]⟩ (hts hne) (by simp only; omega)))
  next hk =>
    have hne : t.kind ≠ .eof := by simp [hk]
    exact .bind_advance hrest (hafter hne
      (step_conditional ih ⟨t, by simp [hk]⟩ (hts hne) (by simp only; omega)))
  next hk =>
    have hne : t.kind ≠ .eof := by simp [hk]
    exact .bind_advance hrest (hafter hne
      (Recognizes.printStatement ⟨t, by simp [hk]⟩ (hts hne) (by simp only; omega)))
  next hk =>
    have hne : t.kind ≠ .eof := by simp [hk]
    exact .bind_advance hrest (hafter hne
      (Recognizes.returnStatement ⟨t, by simp [hk]⟩ (hts hne) (by simp only; omega)))
  next hk =>
    have hne : t.kind ≠ .eof := by simp [hk]
    exact .bind_advance hrest (hafter hne
      (step_loop ih ⟨t, by simp [hk]⟩ (hts hne) (by simp only; omega)))
  next hk =>
    have hne : t.kind ≠ .eof := by simp [hk]
    have hblock := ih.block (s := { s with rest := ts }) ⟨t, by simp [hk]⟩ (hts hne)
      (by simp only; omega)
    refine .bind_advance hrest (hafter hne (.bind hblock ?_))
    rintro a s₁ ⟨hahead, hor⟩
    refine .pure ⟨hahead, ?_⟩
    rcases hor with ⟨b, rfl, hread, hnearest, -⟩ | hfatal
    · exact Or.inl ⟨compound b, rfl, hread, ⟨trivial, hnearest⟩, by simp [endsOpen]⟩
    · exact Or.inr hfatal
  next =>
    refine (Recognizes.expressionStatement hs (by omega)).imp ?_
    rintro _ s₁ ⟨e, rfl, he⟩
    have hpos := (e.begins rfl).length_pos
    have hlength' := he.length_eq
    exact ⟨by omega, .of_passes (simple e) rfl rfl he
      ⟨trivial, elseNearest_of_isSimple e rfl⟩ rfl⟩

theorem length_resynchronize_lt {ts : List Token} (h : Begins (· ≠ .eof) ts) :
    (Parse.resynchronize ts).length < ts.length := by
  obtain ⟨t, us, rfl, ht⟩ := h
  rw [Parse.resynchronize, if_neg ht, List.length_cons]
  have hle := (Parse.skipFrom_isSuffix t us).length_le
  omega

/-- Where a declaration begins, tokens are skipped after an error even if none was taken. -/
theorem recovers (hs : Begins (· ≠ .eof) s.rest) {s' : State} (h : Broken s s') :
    (Parse.resynchronize s'.rest).length < s.rest.length ∧
      Ahead s { s' with rest := Parse.resynchronize s'.rest } := by
  obtain ⟨⟨hrest, herrors, hdepth, hterminated⟩, -⟩ := h
  have hsuffix := Parse.resynchronize_isSuffix s'.rest
  refine ⟨?_, hsuffix.trans hrest, herrors, hdepth, hterminated.resynchronize⟩
  -- If no token was taken, then the first one is skipped now.
  by_cases heq : s'.rest.length = s.rest.length
  · rw [hrest.eq_of_length heq]
    exact length_resynchronize_lt hs
  · have hle := hrest.length_le
    have hle' := hsuffix.length_le
    omega

theorem step_declaration (ih : RecognizesPrograms fuel) (hs : Terminated s.rest)
    (hbegins : Begins (· ≠ .eof) s.rest) (hfuel : 16 * s.rest.length + 2 ≤ fuel + 1) :
    Meets (Parse.declaration (fuel + 1)) s (fun a s' => s'.rest.length < s.rest.length ∧
      Completes [] (fun d : Derivation .declaration => some d.tree) s a s')
      fun _ => False := by
  have hfinish : ∀ a s', s'.rest.length < s.rest.length ∧
      Completes [] (tree (c := .declaration)) s a s' → s'.rest.length < s.rest.length ∧
        Completes [] (fun d : Derivation .declaration => some d.tree) s (some a) s' := by
    rintro a s' ⟨hlt, hahead, hor⟩
    refine ⟨hlt, hahead, hor.imp_left ?_⟩
    rintro ⟨d, rfl, hread⟩
    exact ⟨d, rfl, hread⟩
  have hskip : ∀ s', Broken s s' → (Parse.resynchronize s'.rest).length < s.rest.length ∧
      Completes [] (fun d : Derivation .declaration => some d.tree) s none
        { s' with rest := Parse.resynchronize s'.rest } := by
    intro s' hbroken
    obtain ⟨hlt, hahead⟩ := recovers hbegins hbroken
    exact ⟨hlt, hahead, Or.inr hbroken.2⟩
  obtain ⟨t, ts, hrest, hne⟩ := hbegins
  have htake : Passes s [t] [] { s with rest := ts } := .token hs hrest hne
  have hlength : s.rest.length = ts.length + 1 := by rw [hrest, List.length_cons]
  refine .recovering (.imp (.bind_peek hrest ?_) hfinish) hskip
  split
  next hk =>
    have henough : 16 * ts.length ≤ fuel := by omega
    have hvar := Recognizes.varDeclaration (s := { s with rest := ts }) ⟨t, by simp [hk]⟩
      htake.terminated henough
    refine .bind_advance hrest ((Meets.after htake.ahead hvar).imp ?_)
    rintro _ s₁ ⟨v, us, rfl, htokens, hv⟩
    exact Completes.of_front htake (.of_passes (variableDeclaration v) rfl htokens hv
      ⟨trivial, elseNearest_of_isSimple v rfl⟩ rfl)
  next hk =>
    have hfun := ih.functionDeclaration (s := { s with rest := ts }) ⟨t, by simp [hk]⟩
      htake.terminated (by simp only; omega)
    exact .bind_advance hrest
      ((Meets.after htake.ahead hfun).imp fun _ _ => Completes.of_front htake)
  next =>
    refine (ih.statement hs (by omega)).imp ?_
    rintro a s₁ ⟨hlt, hahead, hor⟩
    refine ⟨hlt, hahead, ?_⟩
    rcases hor with ⟨d, rfl, hread, hnearest, -⟩ | hfatal
    · exact Or.inl ⟨.statement d, rfl, hread, ⟨trivial, hnearest⟩, by simp [endsOpen]⟩
    · exact Or.inr hfatal

theorem step_declarations (ih : RecognizesPrograms fuel) (inBlock : Bool)
    (hs : Terminated s.rest) (hfuel : 16 * s.rest.length + 3 ≤ fuel + 1) :
    Meets (Parse.declarations (fuel + 1) inBlock) s (fun a s' =>
      Begins (fun k => k = .eof ∨ inBlock = true ∧ k = .rightBrace) s'.rest ∧
        Completes [] (tree (c := .declarations)) s a s') fun _ => False := by
  obtain ⟨t, ts, hrest, -⟩ := hs.begins
  apply Meets.bind_peek hrest
  dsimp only
  split
  next hends =>
    have hk : t.kind = .eof ∨ inBlock = true ∧ t.kind = .rightBrace := by simpa using hends
    exact .pure ⟨hrest ▸ .cons hk ts, .of_passes noDeclaration rfl rfl (.refl hs) trivial rfl⟩
  next hends =>
    have hne : Begins (· ≠ .eof) s.rest := by
      rw [hrest]
      exact .cons (fun heq => hends (by simp [heq])) ts
    refine .bind (ih.declaration hs hne (by omega)) ?_
    rintro a s₁ ⟨hlt, hahead, hor⟩
    have hrest := ih.declarations inBlock hahead.terminated (by omega)
    match a with
    | none =>
      refine hrest.imp ?_
      rintro b s₂ ⟨hends, hahead', -⟩
      refine ⟨hends, hahead.trans hahead', ?_⟩
      rcases hor with ⟨d, hd, -⟩ | hfatal
      · cases hd
      · exact Or.inr (hahead'.hasFatal hfatal)
    | some first =>
      refine .bind hrest ?_
      rintro b s₂ ⟨hends, hahead', hor'⟩
      refine .pure ⟨hends, hahead.trans hahead', ?_⟩
      rcases hor with ⟨d, hd, ⟨us, rfl, hfirst⟩, hnearest, -⟩ | hfatal
      · rcases hor' with ⟨ds, rfl, ⟨us', rfl, hmore⟩, hnearest', -⟩ | hfatal
        · rw [hahead.depth] at hmore
          cases hd
          exact Or.inl ⟨moreDeclarations d ds, rfl, ⟨_, rfl, hfirst.trans hmore⟩,
            ⟨trivial, hnearest, hnearest'⟩, by simp [endsOpen]⟩
        · exact Or.inr hfatal
      · exact Or.inr (hahead'.hasFatal hfatal)

end RecognizesPrograms

/-- Each parser of declarations and statements recognizes its category. -/
theorem recognizesPrograms (fuel : Nat) : RecognizesPrograms fuel := by
  induction fuel with
  | zero =>
    exact {
      declaration := fun _ _ _ => by omega
      declarations := fun _ _ _ => by omega
      block := fun _ _ _ => by omega
      functionDeclaration := fun _ _ _ => by omega
      statement := fun _ _ => by omega
      forStatement := fun _ _ _ => by omega }
  | succ fuel ih =>
    exact {
      declaration := ih.step_declaration
      declarations := ih.step_declarations
      block := ih.step_block
      functionDeclaration := ih.step_functionDeclaration
      statement := ih.step_statement
      forStatement := ih.step_forStatement }

end Grammar

end Lox
