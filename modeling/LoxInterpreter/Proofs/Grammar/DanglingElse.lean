import LoxInterpreter.Proofs.Grammar.Faults

/-!
Which `if` an `else` belongs to. The rule that it is the nearest one excludes derivations, but no
programs: an `else` that is derived with an outer `if` can be moved to the nearest one, and
neither the tokens nor the faults change.
-/

namespace Lox

namespace Grammar

/-- Whether the derivations of a category have no `if` in them. -/
def Category.isSimple : Category → Bool
  | declarations | declaration | block | statement => false
  | _ => true

namespace Derivation

theorem elseNearest_of_isSimple {c : Category} (d : Derivation c) (h : c.isSimple = true) :
    d.ElseNearest := by
  rw [ElseNearest]
  induction d with
  | noDeclaration | moreDeclarations | variableDeclaration | function | statement | block | simple
  | print | ifOnly | ifElse | whileLoop | forLoop | returning | compound => cases h
  | varWithout | noInitializer | noExpression | noOperator | noCall | noArguments | literal
  | named => trivial
  | varWith _ _ _ _ _ ih | expressionStatement _ _ ih | varInitializer _ ih
  | simpleInitializer _ ih | someExpression _ ih | disjunction _ ih | tighter _ _ ih
  | tightest _ ih | prefixed _ _ ih | someArguments _ ih | lastArgument _ ih
  | grouping _ _ _ ih => exact ⟨trivial, ih rfl⟩
  | assign _ _ _ ihtarget ihvalue => exact ⟨trivial, ihtarget rfl, ihvalue rfl⟩
  | chain _ _ ihfirst ihrest | call _ _ ihfirst ihrest => exact ⟨trivial, ihfirst rfl, ihrest rfl⟩
  | moreOperators _ _ _ ihright ihrest => exact ⟨trivial, ihright rfl, ihrest rfl⟩
  | moreCalls _ _ _ _ ihargs ihrest => exact ⟨trivial, ihargs rfl, ihrest rfl⟩
  | moreArguments _ _ _ ihe ihrest => exact ⟨trivial, ihe rfl, ihrest rfl⟩

/-- Which `if` an `else` belongs to does not depend on the functions around it. -/
theorem elseNearest_of_all {c : Category} {d : Derivation c} {m : Nat}
    (h : d.All (fun _ part => part.NearestTakesElse) m) (n : Nat) :
    d.All (fun _ part => part.NearestTakesElse) n := by
  induction d generalizing m n <;> simp only [All] at h ⊢ <;> grind

/-- An `else` after a statement that can take one goes to the nearest `if` in it. -/
theorem exists_attach {c : Category} (d : Derivation c) (hopen : d.endsOpen = true)
    (hd : d.ElseNearest) (elseKw : Word .elseWord) {e : Derivation .statement}
    (he : e.ElseNearest) :
    ∃ d' : Derivation c, d'.tokens = d.tokens ++ elseKw.token :: e.tokens ∧
      (∀ depth, d'.faults depth = d.faults depth ++ e.faults depth) ∧ d'.ElseNearest := by
  rw [ElseNearest] at hd
  induction d with
  | ifOnly kw opening condition closing thenBranch _ ih =>
    obtain ⟨-, hcondition, hthen⟩ := hd
    by_cases h : thenBranch.endsOpen = true
    · obtain ⟨t, htokens, hfaults, ht⟩ := ih h hthen
      refine ⟨ifOnly kw opening condition closing t, ?_, fun depth => ?_, trivial, hcondition, ht⟩
      · simp [tokens, htokens]
      · simp [faults, hfaults]
    · have hclosed : thenBranch.endsOpen = false := Bool.eq_false_iff.2 h
      refine ⟨ifElse kw opening condition closing thenBranch elseKw e, ?_, fun depth => ?_,
        hclosed, hcondition, hthen, he⟩
      · simp [tokens]
      · simp [faults]
  | ifElse kw opening condition closing thenBranch elseKw' elseBranch _ _ ih =>
    obtain ⟨hclosed, hcondition, hthen, helse⟩ := hd
    obtain ⟨t, htokens, hfaults, ht⟩ := ih hopen helse
    refine ⟨ifElse kw opening condition closing thenBranch elseKw' t, ?_, fun depth => ?_,
      hclosed, hcondition, hthen, ht⟩
    · simp [tokens, htokens]
    · simp [faults, hfaults]
  | whileLoop kw opening condition closing body _ ih =>
    obtain ⟨-, hcondition, hbody⟩ := hd
    obtain ⟨t, htokens, hfaults, ht⟩ := ih hopen hbody
    refine ⟨whileLoop kw opening condition closing t, ?_, fun depth => ?_, trivial, hcondition, ht⟩
    · simp [tokens, htokens]
    · simp [faults, hfaults]
  | forLoop kw opening initializer condition stop increment closing body _ _ _ ih =>
    obtain ⟨-, hinitializer, hcondition, hincrement, hbody⟩ := hd
    obtain ⟨t, htokens, hfaults, ht⟩ := ih hopen hbody
    refine ⟨forLoop kw opening initializer condition stop increment closing t, ?_,
      fun depth => ?_, trivial, hinitializer, hcondition, hincrement, ht⟩
    · simp [tokens, htokens]
    · simp [faults, hfaults]
  | _ => cases hopen

/-- Each derivation can be changed to one in which each `else` belongs to the nearest `if`. -/
theorem exists_elseNearest {c : Category} (d : Derivation c) :
    ∃ d' : Derivation c, d'.tokens = d.tokens ∧ (∀ depth, d'.faults depth = d.faults depth) ∧
      d'.ElseNearest := by
  induction d with
  | noDeclaration => exact ⟨noDeclaration, rfl, fun _ => rfl, trivial⟩
  | moreDeclarations first rest ihfirst ihrest =>
    obtain ⟨first', htokens, hfaults, hfirst⟩ := ihfirst
    obtain ⟨rest', htokens', hfaults', hrest⟩ := ihrest
    refine ⟨moreDeclarations first' rest', ?_, fun depth => ?_, trivial, hfirst, hrest⟩
    · rw [tokens, tokens, htokens, htokens']
    · rw [faults, faults, hfaults, hfaults']
  | variableDeclaration v =>
    exact ⟨variableDeclaration v, rfl, fun _ => rfl, trivial, elseNearest_of_isSimple v rfl⟩
  | function kw name opening params closing body ih =>
    obtain ⟨body', htokens, hfaults, hbody⟩ := ih
    refine ⟨function kw name opening params closing body', ?_, fun depth => ?_, trivial,
      elseNearest_of_all hbody 1⟩
    · rw [tokens, tokens, htokens]
    · rw [faults, faults, hfaults]
  | statement s ih =>
    obtain ⟨s', htokens, hfaults, hs⟩ := ih
    exact ⟨statement s', htokens, hfaults, trivial, hs⟩
  | block opening body closing ih =>
    obtain ⟨body', htokens, hfaults, hbody⟩ := ih
    refine ⟨block opening body' closing, ?_, hfaults, trivial, hbody⟩
    rw [tokens, tokens, htokens]
  | simple s => exact ⟨simple s, rfl, fun _ => rfl, trivial, elseNearest_of_isSimple s rfl⟩
  | print kw e stop =>
    exact ⟨print kw e stop, rfl, fun _ => rfl, trivial, elseNearest_of_isSimple e rfl⟩
  | ifOnly kw opening condition closing thenBranch _ ih =>
    obtain ⟨then', htokens, hfaults, hthen⟩ := ih
    refine ⟨ifOnly kw opening condition closing then', ?_, fun depth => ?_, trivial,
      elseNearest_of_isSimple condition rfl, hthen⟩
    · rw [tokens, tokens, htokens]
    · rw [faults, faults, hfaults]
  | ifElse kw opening condition closing thenBranch elseKw elseBranch _ ihthen ihelse =>
    obtain ⟨then', htokens, hfaults, hthen⟩ := ihthen
    obtain ⟨else', htokens', hfaults', helse⟩ := ihelse
    have hcondition := elseNearest_of_isSimple condition rfl
    by_cases hopen : then'.endsOpen = true
    · obtain ⟨t, htt, htf, ht⟩ := exists_attach then' hopen hthen elseKw helse
      refine ⟨ifOnly kw opening condition closing t, ?_, fun depth => ?_, trivial, hcondition, ht⟩
      · rw [tokens, tokens, htt, htokens, htokens']
      · rw [faults, faults, htf, hfaults, hfaults', List.append_assoc]
    · have hclosed : then'.endsOpen = false := Bool.eq_false_iff.2 hopen
      refine ⟨ifElse kw opening condition closing then' elseKw else', ?_, fun depth => ?_,
        hclosed, hcondition, hthen, helse⟩
      · rw [tokens, tokens, htokens, htokens']
      · rw [faults, faults, hfaults, hfaults']
  | whileLoop kw opening condition closing body _ ih =>
    obtain ⟨body', htokens, hfaults, hbody⟩ := ih
    refine ⟨whileLoop kw opening condition closing body', ?_, fun depth => ?_, trivial,
      elseNearest_of_isSimple condition rfl, hbody⟩
    · rw [tokens, tokens, htokens]
    · rw [faults, faults, hfaults]
  | forLoop kw opening initializer condition stop increment closing body _ _ _ ih =>
    obtain ⟨body', htokens, hfaults, hbody⟩ := ih
    refine ⟨forLoop kw opening initializer condition stop increment closing body', ?_,
      fun depth => ?_, trivial, elseNearest_of_isSimple initializer rfl,
      elseNearest_of_isSimple condition rfl, elseNearest_of_isSimple increment rfl, hbody⟩
    · rw [tokens, tokens, htokens]
    · rw [faults, faults, hfaults]
  | returning kw value stop =>
    exact ⟨returning kw value stop, rfl, fun _ => rfl, trivial, elseNearest_of_isSimple value rfl⟩
  | compound b ih =>
    obtain ⟨b', htokens, hfaults, hb⟩ := ih
    exact ⟨compound b', htokens, hfaults, trivial, hb⟩
  | _ => exact ⟨_, rfl, fun _ => rfl, elseNearest_of_isSimple _ rfl⟩

end Derivation

end Grammar

end Lox
