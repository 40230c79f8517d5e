import LoxInterpreter.Proofs.Grammar.Derivation
import LoxInterpreter.Token.Continuation

/-!
Braces. In what the grammar derives, each opening brace has a closing one that matches it. How many
braces are open in front of a place is counted by `braceDepth`, and the count is positive there
exactly if an opening brace before the place is matched by a closing one behind it.
-/

namespace Lox

inductive Balanced : List Token → Prop
  | nil : Balanced []
  | plain {t : Token} {ts : List Token} (hopening : t.kind ≠ .leftBrace)
      (hclosing : t.kind ≠ .rightBrace) (h : Balanced ts) : Balanced (t :: ts)
  | braces {opening closing : Token} {inner ts : List Token} (hopening : opening.kind = .leftBrace)
      (hclosing : closing.kind = .rightBrace) (hinner : Balanced inner) (h : Balanced ts) :
      Balanced (opening :: (inner ++ closing :: ts))

variable {opening closing t : Token} {inner ts xs ys : List Token}

theorem Balanced.append (hxs : Balanced xs) (hys : Balanced ys) : Balanced (xs ++ ys) := by
  induction hxs with
  | nil => exact hys
  | plain hopening hclosing _ ih => exact .plain hopening hclosing ih
  | braces hopening hclosing hinner _ _ ih =>
    rw [List.cons_append, List.append_assoc, List.cons_append]
    exact .braces hopening hclosing hinner ih

/-! ### Depth -/

/-- By how much a token changes the number of open braces. -/
def Kind.braceStep : Kind → Int
  | .leftBrace => 1
  | .rightBrace => -1
  | _ => 0

theorem Kind.braceStep_eq_zero {k : Kind} (hopening : k ≠ .leftBrace) (hclosing : k ≠ .rightBrace) :
    k.braceStep = 0 := by
  cases k <;> first | rfl | contradiction

/-- The depth is the sum of the steps. -/
theorem braceDepth_eq_foldl (ts : List Token) :
    braceDepth ts = (ts.map Token.kind).foldl (fun depth k => depth + k.braceStep) 0 := by
  rw [List.foldl_map, braceDepth]
  congr 1
  funext depth t
  cases t.kind <;> simp [Kind.braceStep, Int.sub_eq_add_neg]

/-- What is open before is added to the depth. -/
theorem foldl_braceStep (kinds : List Kind) (n : Int) :
    kinds.foldl (fun depth k => depth + k.braceStep) n =
      n + kinds.foldl (fun depth k => depth + k.braceStep) 0 := by
  induction kinds generalizing n with
  | nil => simp
  | cons k kinds ih => rw [List.foldl_cons, List.foldl_cons, ih, ih (0 + _), Int.zero_add,
      Int.add_assoc]

@[simp] theorem braceDepth_nil : braceDepth [] = 0 := rfl

@[simp] theorem braceDepth_append (xs ys : List Token) :
    braceDepth (xs ++ ys) = braceDepth xs + braceDepth ys := by
  rw [braceDepth_eq_foldl, List.map_append, List.foldl_append, foldl_braceStep,
    ← braceDepth_eq_foldl, ← braceDepth_eq_foldl]

@[simp] theorem braceDepth_cons (t : Token) (ts : List Token) :
    braceDepth (t :: ts) = t.kind.braceStep + braceDepth ts := by
  rw [braceDepth_eq_foldl, List.map_cons, List.foldl_cons, Int.zero_add, foldl_braceStep,
    ← braceDepth_eq_foldl]

/-- Only the kinds of the tokens count. -/
theorem braceDepth_congr (h : xs.map Token.kind = ys.map Token.kind) :
    braceDepth xs = braceDepth ys := by
  rw [braceDepth_eq_foldl, braceDepth_eq_foldl, h]

namespace Balanced

theorem braceDepth_eq_zero (h : Balanced ts) : braceDepth ts = 0 := by
  induction h with
  | nil => rfl
  | plain hopening hclosing _ ih => simp [Kind.braceStep_eq_zero hopening hclosing, ih]
  | braces hopening hclosing _ _ ihinner ih =>
    simp [hopening, hclosing, ihinner, ih, Kind.braceStep]

/-- Where a row of balanced tokens is cut between two braces, or in them, or behind them. -/
theorem cut_cases (h : opening :: (inner ++ closing :: ts) = xs ++ ys) :
    xs = [] ∨
    (∃ inside rest, xs = opening :: inside ∧ inner = inside ++ rest ∧
      ys = rest ++ closing :: ts) ∨
    ∃ more, xs = opening :: (inner ++ closing :: more) ∧ ts = more ++ ys := by
  cases xs with
  | nil => exact Or.inl rfl
  | cons x xs =>
    rw [List.cons_append] at h
    obtain ⟨rfl, htail⟩ := List.cons.inj h
    refine Or.inr ?_
    rcases List.append_eq_append_iff.1 htail with ⟨more, rfl, hmore⟩ | ⟨rest, rfl, hrest⟩
    · cases more with
      | nil => exact Or.inl ⟨inner, [], by simp, by simp, hmore.symm⟩
      | cons c more =>
        obtain ⟨rfl, rfl⟩ := List.cons.inj hmore
        exact Or.inr ⟨more, rfl, rfl⟩
    · exact Or.inl ⟨xs, rest, rfl, rfl, hrest⟩

/-- No closing brace comes too early. -/
theorem braceDepth_nonneg (h : Balanced (xs ++ ys)) : 0 ≤ braceDepth xs := by
  generalize hts : xs ++ ys = ts at h
  induction h generalizing xs ys with
  | nil => simp [(List.append_eq_nil_iff.1 hts).1]
  | plain hopening hclosing _ ih =>
    cases xs with
    | nil => simp
    | cons x xs =>
      obtain ⟨rfl, htail⟩ := List.cons.inj hts
      simpa [Kind.braceStep_eq_zero hopening hclosing] using ih htail
  | braces hopening hclosing hinner _ ihinner ih =>
    rcases cut_cases hts.symm with rfl | ⟨inside, rest, rfl, rfl, -⟩ | ⟨more, rfl, rfl⟩
    · simp
    · have hinside := ihinner rfl
      simp only [braceDepth_cons, hopening, Kind.braceStep]
      omega
    · have hmore := ih rfl
      simp only [braceDepth_cons, braceDepth_append, hopening, hclosing, Kind.braceStep,
        hinner.braceDepth_eq_zero]
      omega

/-- Where braces are open, one of them is matched by a brace further on. -/
theorem exists_matching (h : Balanced (xs ++ ys)) (hdepth : 0 < braceDepth xs) :
    ∃ before opening inside rest closing after, xs = before ++ opening :: inside ∧
      ys = rest ++ closing :: after ∧ opening.kind = .leftBrace ∧ closing.kind = .rightBrace ∧
      Balanced (inside ++ rest) := by
  generalize hts : xs ++ ys = ts at h
  induction h generalizing xs ys with
  | nil => simp [(List.append_eq_nil_iff.1 hts).1] at hdepth
  | plain hopening hclosing _ ih =>
    cases xs with
    | nil => simp at hdepth
    | cons x xs =>
      obtain ⟨rfl, htail⟩ := List.cons.inj hts
      rw [braceDepth_cons, Kind.braceStep_eq_zero hopening hclosing, Int.zero_add] at hdepth
      obtain ⟨before, opening, inside, rest, closing, after, rfl, hmatch⟩ := ih hdepth htail
      exact ⟨x :: before, opening, inside, rest, closing, after, rfl, hmatch⟩
  | @braces opening closing inner ts hopening hclosing hinner _ _ ih =>
    rcases cut_cases hts.symm with rfl | ⟨inside, rest, rfl, rfl, rfl⟩ | ⟨more, rfl, rfl⟩
    · simp at hdepth
    · exact ⟨[], opening, inside, rest, closing, ts, rfl, rfl, hopening, hclosing, hinner⟩
    · simp only [braceDepth_cons, braceDepth_append, hopening, hclosing, Kind.braceStep,
        hinner.braceDepth_eq_zero] at hdepth
      obtain ⟨before, opening', inside, rest, closing', after, rfl, hmatch⟩ := ih (by omega) rfl
      exact ⟨opening :: (inner ++ closing :: before), opening', inside, rest, closing', after,
        by simp, hmatch⟩

end Balanced

/-! ### Derivations -/

namespace Grammar

def NoBraces (kinds : List Kind) : Prop := .leftBrace ∉ kinds ∧ .rightBrace ∉ kinds

instance (kinds : List Kind) : Decidable (NoBraces kinds) := inferInstanceAs (Decidable (_ ∧ _))

theorem Terminal.balanced {kinds : List Kind} (t : Terminal kinds) (hkinds : NoBraces kinds)
    (h : Balanced ts) : Balanced (t.token :: ts) :=
  .plain (ne_of_mem_of_not_mem t.kind_mem hkinds.1) (ne_of_mem_of_not_mem t.kind_mem hkinds.2) h

theorem noBraces_operators (l : Parse.Level) : NoBraces (operators l) := by
  cases l <;> decide

theorem Names.balanced (names : Names) (h : Balanced ts) : Balanced (names.tokens ++ ts) := by
  induction names with
  | last name => exact name.balanced (by decide) h
  | more name comma rest ih => exact name.balanced (by decide) (comma.balanced (by decide) ih)

theorem Parameters.balanced (params : Parameters) (h : Balanced ts) :
    Balanced (params.tokens ++ ts) := by
  cases params with
  | none => exact h
  | some names => exact names.balanced h

/-- The braces in what is derived match each other: they come in pairs, around blocks. -/
theorem Derivation.balanced {c : Category} (d : Derivation c) : Balanced d.tokens := by
  induction d with
  | noDeclaration | noExpression | noOperator | noCall | noArguments => exact .nil
  | variableDeclaration _ ih | statement _ ih | simple _ ih | compound _ ih | varInitializer _ ih
  | simpleInitializer _ ih | someExpression _ ih | disjunction _ ih | tighter _ _ ih
  | tightest _ ih | someArguments _ ih | lastArgument _ ih => exact ih
  | moreDeclarations first rest ihfirst ihrest | chain first rest ihfirst ihrest
  | call first rest ihfirst ihrest => exact ihfirst.append ihrest
  | block opening body closing ih => exact .braces opening.kind_eq closing.kind_eq ih .nil
  | function kw name opening params closing body ih =>
    exact kw.balanced (by decide) (name.balanced (by decide) (opening.balanced (by decide)
      (params.balanced (closing.balanced (by decide) ih))))
  | varWithout kw name stop =>
    exact kw.balanced (by decide) (name.balanced (by decide) (stop.balanced (by decide) .nil))
  | varWith kw name equals e stop ih =>
    exact kw.balanced (by decide) (name.balanced (by decide) (equals.balanced (by decide)
      (ih.append (stop.balanced (by decide) .nil))))
  | print kw _ stop ih | returning kw _ stop ih =>
    exact kw.balanced (by decide) (ih.append (stop.balanced (by decide) .nil))
  | ifOnly kw opening condition closing body ihcondition ihbody
  | whileLoop kw opening condition closing body ihcondition ihbody =>
    exact kw.balanced (by decide) (opening.balanced (by decide)
      (ihcondition.append (closing.balanced (by decide) ihbody)))
  | ifElse kw opening condition closing thenBranch elseKw elseBranch ihcondition ihthen ihelse =>
    exact kw.balanced (by decide) (opening.balanced (by decide) (ihcondition.append
      (closing.balanced (by decide) (ihthen.append (elseKw.balanced (by decide) ihelse)))))
  | forLoop kw opening initializer condition stop increment closing body ihinitializer ihcondition
      ihincrement ihbody =>
    exact kw.balanced (by decide) (opening.balanced (by decide) (ihinitializer.append
      (ihcondition.append (stop.balanced (by decide)
        (ihincrement.append (closing.balanced (by decide) ihbody))))))
  | expressionStatement e stop ih => exact ih.append (stop.balanced (by decide) .nil)
  | noInitializer stop => exact stop.balanced (by decide) .nil
  | assign target equals value ihtarget ihvalue =>
    exact ihtarget.append (equals.balanced (by decide) ihvalue)
  | moreOperators operator right rest ihright ihrest =>
    exact operator.balanced (noBraces_operators _) (ihright.append ihrest)
  | prefixed operator right ih => exact operator.balanced (by decide) ih
  | moreCalls opening args closing rest ihargs ihrest =>
    exact opening.balanced (by decide) (ihargs.append (closing.balanced (by decide) ihrest))
  | moreArguments e comma rest ihe ihrest =>
    exact ihe.append (comma.balanced (by decide) ihrest)
  | literal t => exact t.balanced (by decide) .nil
  | named t => exact t.balanced (by decide) .nil
  | grouping opening e closing ih =>
    exact opening.balanced (by decide) (ih.append (closing.balanced (by decide) .nil))

end Grammar

end Lox
