import LoxInterpreter.Proofs.Grammar.BeginningsPrograms
import LoxInterpreter.Proofs.Grammar.Recovery

/-!
Where the first error stands. The first error that makes a parser give up is noticed as early as it
can be: the tokens before it begin some program, and together with its token they begin none.
-/

namespace Lox

namespace Grammar

open Parse (Parser State Level)

/-! ### What all derivations have in common -/

theorem Terminal.kind_ne {kinds : List Kind} (t : Terminal kinds) {k : Kind} (h : k ∉ kinds) :
    t.token.kind ≠ k := by
  rintro rfl
  exact h t.kind_mem

theorem eof_notMem_operators (l : Level) : Kind.eof ∉ operators l := by
  cases l <;> decide

theorem Names.kind_ne_eof (names : Names) : ∀ t ∈ names.tokens, t.kind ≠ .eof := by
  induction names with
  | last name => simp [tokens, name.kind_eq]
  | more name comma rest ih =>
    simp only [tokens, List.forall_mem_cons, name.kind_eq, comma.kind_eq]
    exact ⟨by decide, by decide, ih⟩

theorem Parameters.kind_ne_eof (params : Parameters) : ∀ t ∈ params.tokens, t.kind ≠ .eof := by
  cases params with
  | none => exact fun _ ht => absurd ht List.not_mem_nil
  | some names => exact names.kind_ne_eof

/-- No derivation has an end of text in it. -/
theorem Derivation.kind_ne_eof {c : Category} (d : Derivation c) :
    ∀ t ∈ d.tokens, t.kind ≠ .eof := by
  induction d with
  | prefixed operator right ih =>
    exact List.forall_mem_cons.2 ⟨operator.kind_ne (by decide), ih⟩
  | literal t => exact List.forall_mem_singleton.2 (t.kind_ne (by decide))
  | moreOperators operator right rest ihright ihrest =>
    refine List.forall_mem_cons.2 ⟨operator.kind_ne (eof_notMem_operators _), ?_⟩
    exact List.forall_mem_append.2 ⟨ihright, ihrest⟩
  | function kw name opening params closing body ih =>
    have hparams := params.kind_ne_eof
    simp +contextual [tokens, or_imp, Mark.kind_eq, *]
  | _ => simp +contextual [tokens, or_imp, Mark.kind_eq, *]

theorem not_isFatal_of_mem_overlong {cause : SyntaxCause} (h : ¬ IsFatal cause) (count : Nat)
    (ts : List Token) : ∀ e ∈ overlong cause count ts, ¬ IsFatal e.cause := by
  intro e he
  unfold overlong at he
  split at he
  · cases he
  · cases ts with
    | nil => cases he
    | cons t ts =>
      rw [List.mem_singleton.1 he]
      exact h

theorem Names.not_isFatal_of_mem_faults (names : Names) (count : Nat) :
    ∀ e ∈ names.faults count, ¬ IsFatal e.cause := by
  induction names generalizing count with
  | last name => exact not_isFatal_of_mem_overlong id count _
  | more name comma rest ih =>
    exact List.forall_mem_append.2 ⟨not_isFatal_of_mem_overlong id count _, ih (count + 1)⟩

/-- A parser goes on after each fault of a derivation. -/
theorem Derivation.not_isFatal_of_mem_faults {c : Category} (d : Derivation c) (depth : Nat) :
    ∀ e ∈ d.faults depth, ¬ IsFatal e.cause := by
  induction d generalizing depth with
  | function _ _ _ params _ body ih =>
    refine List.forall_mem_append.2 ⟨?_, ih (depth + 1)⟩
    cases params with
    | none => exact fun _ he => absurd he List.not_mem_nil
    | some names => exact names.not_isFatal_of_mem_faults 0
  | lastArgument e ih =>
    exact List.forall_mem_append.2 ⟨not_isFatal_of_mem_overlong id _ _, ih depth⟩
  | moreArguments e comma rest ihe ihrest =>
    refine List.forall_mem_append.2 ⟨List.forall_mem_append.2 ⟨?_, ihe depth⟩, ihrest depth⟩
    exact not_isFatal_of_mem_overlong id _ _
  | assign target equals value ihtarget ihvalue =>
    refine List.forall_mem_append.2
      ⟨List.forall_mem_append.2 ⟨ihtarget depth, ihvalue depth⟩, ?_⟩
    split
    · exact fun _ he => absurd he List.not_mem_nil
    · exact List.forall_mem_singleton.2 id
  | returning kw value stop ih =>
    refine List.forall_mem_append.2 ⟨?_, ih depth⟩
    split
    · exact List.forall_mem_singleton.2 id
    · exact fun _ he => absurd he List.not_mem_nil
  | _ => grind [faults]

/-! ### Errors and the tokens behind them -/

variable {α : Type} {p : Parser α} {s s' s'' : State} {e : SyntaxError}

namespace FirstFatal

/-- Errors after which a parser went on may be left out in front. -/
theorem of_after_noted (h : FirstFatal s s'' e) (hclean : Noted s s') (h' : Onward s' s'') :
    FirstFatal s' s'' e := by
  rcases h'.noted_or_firstFatal with hnoted | ⟨e', he'⟩
  · exact absurd (hclean.trans hnoted) h.not_noted
  · rw [h.unique (.of_noted hclean he')]
    exact he'

theorem token_mem (h : FirstFatal s s' e) (h' : Onward s s') : e.token ∈ s.rest := by
  obtain ⟨es, fs, heq, -, hfatal⟩ := h
  obtain ⟨gs, heq', hgs⟩ := h'.errors
  rw [heq, List.append_cancel_left_eq] at heq'
  exact hgs e (heq' ▸ by simp) hfatal

end FirstFatal

namespace Looks

/-- Tokens behind those of an error do not make another one the first. -/
theorem firstFatal_followedBy (hp : Looks p s) (h : FirstFatal s (final p s) e)
    (more : List Token) : FirstFatal s (final p (followedBy s more)) e := by
  cases hp.cutOff more with
  | ok hclean hrun _ => exact absurd (final_of_ok hrun ▸ hclean) h.not_noted
  | exhausted hclean hrun _ => exact absurd (final_of_error hrun ▸ hclean) h.not_noted
  | short hclean hrun _ => exact absurd (final_of_error hrun ▸ hclean) h.not_noted
  | failed hfirst hfirst' => exact h.unique hfirst ▸ hfirst'

/-- An error that is not there without the tokens behind stands at one of them, and without them
the tokens run out. -/
theorem ran_out (hp : Looks p s) {more : List Token}
    (h : FirstFatal s (final p (followedBy s more)) e)
    (hnone : ∀ e', ¬ FirstFatal s (final p s) e') :
    (∃ r, Noted s r ∧ p s = .error .noToken r) ∧ e.token ∈ more := by
  cases hp.cutOff more with
  | ok hclean _ hrun =>
    rw [final_of_ok hrun] at h
    exact absurd (hclean.congr rfl rfl) h.not_noted
  | exhausted hclean _ hrun =>
    rw [final_of_error hrun] at h
    exact absurd (hclean.congr rfl rfl) h.not_noted
  | failed hfirst _ => exact absurd hfirst (hnone _)
  | short hclean hrun honward =>
    rename_i r
    have hclean' : Noted s ⟨more, r.errors, r.depth⟩ := hclean.congr rfl rfl
    exact ⟨⟨r, hclean, hrun⟩, (h.of_after_noted hclean' honward).token_mem honward⟩

end Looks

/-- Among the rows of tokens from `front` to `front ++ ts`, there is a first one with `P`. -/
theorem exists_first {P : List Token → Prop} {front ts : List Token} (hfront : ¬ P front)
    (h : P (front ++ ts)) : ∃ before t after,
      front ++ ts = before ++ t :: after ∧ ¬ P before ∧ P (before ++ [t]) := by
  induction ts generalizing front with
  | nil => exact absurd (List.append_nil front ▸ h) hfront
  | cons t ts ih =>
    by_cases ht : P (front ++ [t])
    · exact ⟨front, t, ts, rfl, hfront, ht⟩
    · rw [List.append_cons] at h ⊢
      exact ih ht h

def startOf (ts : List Token) : State := ⟨ts, [], 0⟩

/-- Before the token of the first error the tokens run out, and with it the error is noticed. -/
theorem exists_before_error (hp : ∀ s, Looks p s) {ts : List Token}
    (h : FirstFatal (startOf ts) (final p (startOf ts)) e) :
    ∃ before after, ts = before ++ e.token :: after ∧
      (∃ r, Noted (startOf before) r ∧ p (startOf before) = .error .noToken r) ∧
      FirstFatal (startOf (before ++ [e.token])) (final p (startOf (before ++ [e.token]))) e := by
  let P : List Token → Prop := fun ts => ∃ e', FirstFatal (startOf ts) (final p (startOf ts)) e'
  have hnil : ¬ P [] := by
    rintro ⟨e', he'⟩
    exact absurd (he'.token_mem (hp _).onward) List.not_mem_nil
  have hts : P ([] ++ ts) := ⟨e, h⟩
  obtain ⟨before, t, after, rfl, hbefore, e', he'⟩ := exists_first hnil hts
  have hall : startOf (before ++ t :: after) = followedBy (startOf (before ++ [t])) after := by
    simp [startOf, followedBy]
  obtain rfl : e' = e := by
    have hfirst := (hp _).firstFatal_followedBy he' after
    rw [← hall] at hfirst
    exact hfirst.unique h
  have hone : startOf (before ++ [t]) = followedBy (startOf before) [t] := rfl
  obtain ⟨hshort, hmem⟩ :=
    (hp (startOf before)).ran_out (hone ▸ he') fun e' he' => hbefore ⟨e', he'⟩
  rw [List.mem_singleton] at hmem
  exact ⟨before, after, by rw [hmem], hshort, hmem ▸ he'⟩

theorem Spells.exists_more {L : α → List Token → Prop} (h : Spells L p s) (hclean : Noted s s')
    (hrun : p s = .error .noToken s') : ∃ a more, L a (s.rest ++ more) := by
  cases h.spelling with
  | ok _ hrun' => cases hrun.symm.trans hrun'
  | exhausted hrun' => cases hrun.symm.trans hrun'
  | short _ _ hL => exact ⟨_, _, hL⟩
  | failed hfirst => exact absurd (final_of_error hrun ▸ hclean) hfirst.not_noted

/-! ### Programs -/

/-- The row of tokens is a program of the grammar, without an end of text. -/
def IsProgram (ts : List Token) : Prop := ∃ d : Derivation .declarations, d.tokens = ts

/-- Programs are the rows of tokens for which no parser gives up. -/
theorem isProgram_iff {body : List Token} {stop : Token} (hbody : ∀ t ∈ body, t.kind ≠ .eof)
    (hstop : stop.kind = .eof) :
    IsProgram body ↔ ∀ e ∈ (parse (body ++ [stop])).errors, ¬ IsFatal e.cause := by
  have hterminated : Terminated (body ++ [stop]) := .append hbody hstop
  constructor
  · rintro ⟨d, rfl⟩
    obtain ⟨d', htokens, -, hnearest⟩ := d.exists_elseNearest
    rw [← htokens] at hterminated ⊢
    rw [parse_derivation d' hnearest hterminated hstop]
    exact d'.not_isFatal_of_mem_faults 0
  · intro hnone
    rcases parse_finds hterminated with ⟨d, stop', htokens, -, -⟩ | ⟨e, he, hfatal⟩
    · exact ⟨d, (List.append_inj' htokens rfl).1.symm⟩
    · exact absurd hfatal (hnone e he)

/-- The parser of declarations, with any fuel that is enough, ends with the errors of the parse. -/
theorem firstFatal_parse_iff {body : List Token} {stop : Token} (hbody : ∀ t ∈ body, t.kind ≠ .eof)
    (hstop : stop.kind = .eof) {fuel : Nat} (hfuel : Parse.fuelFor (body ++ [stop]) ≤ fuel) :
    FirstFatal (startOf (body ++ [stop]))
        (final (Parse.declarations fuel false) (startOf (body ++ [stop]))) e ↔
      ∃ es fs, (parse (body ++ [stop])).errors = es ++ e :: fs ∧ (∀ f ∈ es, ¬ IsFatal f.cause) ∧
        IsFatal e.cause := by
  have hrun := declarations_after (.append hbody hstop) [] hfuel
  rw [List.nil_append] at hrun
  rw [startOf, final_of_ok hrun]
  rfl

theorem IsProgram.not_firstFatal {body : List Token} {stop : Token} (h : IsProgram body)
    (hstop : stop.kind = .eof) {fuel : Nat} (hfuel : Parse.fuelFor (body ++ [stop]) ≤ fuel) :
    ¬ FirstFatal (startOf (body ++ [stop]))
      (final (Parse.declarations fuel false) (startOf (body ++ [stop]))) e := by
  have hbody : ∀ t ∈ body, t.kind ≠ .eof := by
    obtain ⟨d, rfl⟩ := h
    exact d.kind_ne_eof
  intro hfirst
  obtain ⟨es, fs, heq, -, hfatal⟩ := (firstFatal_parse_iff hbody hstop hfuel).1 hfirst
  exact (isProgram_iff hbody hstop).1 h e (heq ▸ by simp) hfatal

/-- A row of tokens that ends with the token of an error begins no program. -/
theorem not_isProgram_append {ts : List Token} {stop : Token} (hts : ∀ t ∈ ts, t.kind ≠ .eof)
    (hstop : stop.kind = .eof) {fuel : Nat} (hfuel : Parse.fuelFor (ts ++ [stop]) ≤ fuel)
    (htoken : e.token.kind ≠ .eof)
    (h : FirstFatal (startOf ts) (final (Parse.declarations fuel false) (startOf ts)) e)
    (more : List Token) : ¬ IsProgram (ts ++ more) := by
  intro hprogram
  -- With enough fuel for the program too, there still is an error in front.
  obtain ⟨large, hlarge, hmore⟩ : ∃ large, fuel ≤ large ∧
      Parse.fuelFor (ts ++ more ++ [stop]) ≤ large :=
    ⟨max fuel _, Nat.le_max_left _ _, Nat.le_max_right _ _⟩
  have hlook : ∀ fuel s, Looks (Parse.declarations fuel false) s := fun fuel s =>
    (programsLook fuel).declarations false s
  have hstopped := (hlook fuel _).firstFatal_followedBy h [stop]
  have hparse := (firstFatal_parse_iff hts hstop hfuel).1 hstopped
  have hstopped' := (firstFatal_parse_iff hts hstop (Nat.le_trans hfuel hlarge)).2 hparse
  by_cases hfirst : ∃ e',
      FirstFatal (startOf ts) (final (Parse.declarations large false) (startOf ts)) e'
  · obtain ⟨e', he'⟩ := hfirst
    have hall := (hlook large _).firstFatal_followedBy he' (more ++ [stop])
    have hstate : followedBy (startOf ts) (more ++ [stop]) = startOf (ts ++ more ++ [stop]) := by
      simp [startOf, followedBy]
    rw [hstate] at hall
    exact hprogram.not_firstFatal hstop hmore hall
  · obtain ⟨-, hmem⟩ := (hlook large (startOf ts)).ran_out hstopped' fun e' he' => hfirst ⟨e', he'⟩
    rw [List.mem_singleton.1 hmem] at htoken
    exact htoken hstop

end Grammar

open Grammar

/-- The first error for which a parser gives up is located as early as possible. The tokens before
it can be completed to a program of the grammar, which has any disjunction in front of an equals
sign, lists of any length and returns anywhere. But no such program begins with the tokens up to and
including its own, and if that is the end of the text, the tokens before are not a program. If there
is no such error, the tokens are a program. -/
theorem first_error_earliest {body : List Token} {stop : Token} (hbody : ∀ t ∈ body, t.kind ≠ .eof)
    (hstop : stop.kind = .eof) :
    (∀ es e fs, (parse (body ++ [stop])).errors = es ++ e :: fs →
      (∀ f ∈ es, ¬ IsFatal f.cause) → IsFatal e.cause →
      ∃ before after, body ++ [stop] = before ++ e.token :: after ∧
        (∃ more, IsProgram (before ++ more)) ∧
        (∀ more, ¬ IsProgram (before ++ e.token :: more)) ∧
        (e.token.kind = .eof → ¬ IsProgram before)) ∧
    ((∀ e ∈ (parse (body ++ [stop])).errors, ¬ IsFatal e.cause) → IsProgram body) := by
  refine ⟨fun es e fs heq hes hfatal => ?_, (isProgram_iff hbody hstop).2⟩
  let fuel := Parse.fuelFor (stop :: (body ++ [stop]))
  have hlook : ∀ s, Looks (Parse.declarations fuel false) s :=
    (programsLook fuel).declarations false
  have hfuel : Parse.fuelFor (body ++ [stop]) ≤ fuel := by
    simp only [fuel, Parse.fuelFor, List.length_cons]
    omega
  have hfirst := (firstFatal_parse_iff hbody hstop hfuel).2 ⟨es, fs, heq, hes, hfatal⟩
  obtain ⟨before, after, hsplit, ⟨r, hclean, hrun⟩, hfirst⟩ := exists_before_error hlook hfirst
  have hlength := congrArg List.length hsplit
  simp only [List.length_append, List.length_cons, List.length_nil] at hlength
  refine ⟨before, after, hsplit, ?_, fun more hprogram => ?_, fun heof hprogram => ?_⟩
  · obtain ⟨_, more, hmore⟩ :=
      ((programsSpell fuel).declarations false (startOf before)).exists_more hclean hrun
    exact ⟨more, hmore⟩
  · have hfront : ∀ t ∈ before ++ e.token :: more, t.kind ≠ .eof := by
      obtain ⟨d, hd⟩ := hprogram
      exact hd ▸ d.kind_ne_eof
    rw [List.append_cons] at hprogram hfront
    refine not_isProgram_append (fun t ht => hfront t (List.mem_append_left _ ht)) hstop ?_
      (hfront e.token (by simp)) hfirst more hprogram
    simp only [fuel, Parse.fuelFor, List.length_cons, List.length_append, List.length_nil]
    omega
  · refine hprogram.not_firstFatal heof ?_ hfirst
    simp only [fuel, Parse.fuelFor, List.length_cons, List.length_append, List.length_nil]
    omega

/-- In `print (nil;` the semicolon is the first error: `print (nil` can be completed to a program,
but no program begins with `print (nil;`. -/
theorem first_error_earliest_print :
    let word : Token := ⟨.keyword .printWord, "print", .nil, 1, some 0⟩
    let opening : Token := ⟨.leftParen, "(", .nil, 1, some 6⟩
    let value : Token := ⟨.keyword .nilWord, "nil", .nil, 1, some 7⟩
    let semicolon : Token := ⟨.semicolon, ";", .nil, 1, some 10⟩
    let stop : Token := ⟨.eof, "", .nil, 1, some 11⟩
    let body : List Token := [word, opening, value, semicolon]
    (∀ t ∈ body, t.kind ≠ .eof) ∧ stop.kind = .eof ∧
      (parse (body ++ [stop])).errors = [⟨semicolon, .expected .groupingEnd⟩] ∧
      ∃ before after, body ++ [stop] = before ++ semicolon :: after ∧
        (∃ more, IsProgram (before ++ more)) ∧
        ∀ more, ¬ IsProgram (before ++ semicolon :: more) := by
  intro word opening value semicolon stop body
  have hbody : ∀ t ∈ body, t.kind ≠ .eof := by decide
  have hstop : stop.kind = .eof := rfl
  have hparse : (parse (body ++ [stop])).errors =
      [] ++ ⟨semicolon, .expected .groupingEnd⟩ :: [] := rfl
  obtain ⟨hearliest, -⟩ := first_error_earliest hbody hstop
  obtain ⟨before, after, hsplit, hmore, hnone, -⟩ :=
    hearliest _ _ _ hparse (fun _ hf => absurd hf List.not_mem_nil) trivial
  exact ⟨hbody, hstop, hparse, before, after, hsplit, hmore, hnone⟩

end Lox
