import LoxInterpreter.Proofs.Grammar.Meets

/-!
What the parser reads, the grammar derives. Started with enough fuel on tokens that end with the
only end of text, the parser of each form of expression ends: it has read the tokens of a
derivation as its tree and recorded the faults of it, or it gave up and recorded why. The
induction is on the fuel. From one token to the next the parser descends at most sixteen times,
so that sixteen calls for each token ahead are enough.
-/

namespace Lox

namespace Grammar

open Parse (Parser State Level)

variable {α : Type}

/-- Between two states a derivation was read, and `value` gives the result for it. -/
def Finds {c : Category} (value : Derivation c → α) (s : State) (a : α) (s' : State) : Prop :=
  ∃ d : Derivation c, value d = a ∧ Passes s d.tokens (d.faults s.depth) s'

def Recognizes {c : Category} (p : Parser α) (s : State) (value : Derivation c → α) : Prop :=
  Meets p s (Finds value s) (Broken s)

/-- How many levels of operators are looser. -/
def rank : Level → Nat
  | .disjunction => 0
  | .conjunction => 1
  | .equality => 2
  | .comparison => 3
  | .term => 4
  | .factor => 5

theorem rank_le (l : Level) : rank l ≤ 5 := by
  cases l <;> decide

theorem rank_of_tighter {l l' : Level} (h : Tighter l l') : rank l' = rank l + 1 := by
  cases h <;> rfl

/-- Each parser of expressions recognizes its category, if the fuel is enough. The parsers of
tighter operators need less of it, as they are called later. -/
structure RecognizesExpressions (fuel : Nat) : Prop where
  expression {s : State} : Terminated s.rest → 16 * s.rest.length ≤ fuel →
    Recognizes (c := .expression) (Parse.expression fuel) s Derivation.tree
  chain {s : State} (l : Level) : Terminated s.rest →
    16 * s.rest.length ≤ fuel + 2 * rank l + 1 →
    Recognizes (c := .chain l) (Parse.chain fuel l) s Derivation.tree
  chainAfter {s : State} (l : Level) (left : Expr) : Terminated s.rest →
    16 * s.rest.length ≤ fuel →
    Recognizes (c := .chainRest l) (Parse.chainAfter fuel l left) s fun d => d.tree left
  operand {s : State} (l : Level) : Terminated s.rest →
    16 * s.rest.length ≤ fuel + 2 * rank l + 2 →
    Recognizes (c := .operand l) (Parse.operand fuel l) s Derivation.tree
  unary {s : State} : Terminated s.rest → 16 * s.rest.length ≤ fuel + 13 →
    Recognizes (c := .unary) (Parse.unary fuel) s Derivation.tree
  callAfter {s : State} (callee : Expr) : Terminated s.rest → 16 * s.rest.length ≤ fuel →
    Recognizes (c := .callRest) (Parse.callAfter fuel callee) s fun d => d.tree callee
  arguments {s : State} (n : Nat) : Terminated s.rest → 16 * s.rest.length + 1 ≤ fuel →
    Recognizes (c := .arguments n) (Parse.arguments fuel n) s Derivation.tree
  primary {s : State} : Terminated s.rest → 16 * s.rest.length ≤ fuel + 14 →
    Recognizes (c := .primary) (Parse.primary fuel) s Derivation.tree

namespace Recognizes

open Lox.Grammar.Derivation

variable {fuel : Nat} {s : State}

theorem expression (ih : RecognizesExpressions fuel) (hs : Terminated s.rest)
    (hfuel : 16 * s.rest.length ≤ fuel + 1) :
    Recognizes (c := .expression) (Parse.expression (fuel + 1)) s tree := by
  refine .bind (ih.chain .disjunction hs hfuel) ?_
  rintro _ s₁ ⟨target, rfl, htarget⟩
  refine .bind (.accept htarget.terminated (by simp)) ?_
  rintro (_ | t) s₂ h
  · obtain ⟨rfl, -⟩ := h
    exact .pure ⟨disjunction target, rfl, htarget⟩
  · obtain ⟨hk, ht⟩ := h
    have hlength := (htarget.trans ht).length_eq
    simp only [List.length_append, List.length_singleton] at hlength
    refine .bind (.after (htarget.trans ht).ahead (ih.expression ht.terminated (by omega))) ?_
    rintro _ s₃ ⟨value, rfl, hvalue⟩
    have hdepth : s₂.depth = s.depth := ht.depth.trans htarget.depth
    rw [hdepth] at hvalue
    let equals : Mark .equal := ⟨t, by simp [hk]⟩
    have hall := htarget.trans (ht.trans hvalue)
    split
    next name htree =>
      refine .pure ⟨assign target equals value, ?_, hall.cast rfl ?_⟩
      · rw [tree, htree]
      · simp [faults, htree]
    next hname =>
      refine .bind (.note hvalue.terminated) ?_
      intro _ s₄ hnote
      refine .pure ⟨assign target equals value, ?_, (hall.trans hnote).cast ?_ ?_⟩
      · rw [tree]
        split
        next name htree => exact (hname name htree).elim
        next => rfl
      · simp [tokens, equals]
      · rw [faults]
        split
        next name htree => exact (hname name htree).elim
        next => simp [equals]

theorem chain (ih : RecognizesExpressions fuel) (l : Level) (hs : Terminated s.rest)
    (hfuel : 16 * s.rest.length ≤ fuel + 1 + 2 * rank l + 1) :
    Recognizes (c := .chain l) (Parse.chain (fuel + 1) l) s tree := by
  refine .bind (ih.operand l hs (by omega)) ?_
  rintro _ s₁ ⟨first, rfl, hfirst⟩
  -- The first operand took a token, which is worth more calls than there are levels.
  have hlength := hfirst.length_eq
  have hpos := (first.begins rfl).length_pos
  have hrank := rank_le l
  refine (Meets.after hfirst.ahead (ih.chainAfter l first.tree hfirst.terminated
    (by omega))).imp ?_
  rintro _ s₂ ⟨rest, rfl, hrest⟩
  rw [hfirst.depth] at hrest
  exact ⟨.chain first rest, rfl, hfirst.trans hrest⟩

theorem chainAfter (ih : RecognizesExpressions fuel) (l : Level) (left : Expr)
    (hs : Terminated s.rest) (hfuel : 16 * s.rest.length ≤ fuel + 1) :
    Recognizes (c := .chainRest l) (Parse.chainAfter (fuel + 1) l left) s
      fun d => d.tree left := by
  have heof : l.joins .eof = false := by cases l <;> rfl
  refine .bind (.acceptWhen hs heof) ?_
  rintro (_ | t) s₁ h
  · obtain ⟨rfl, -⟩ := h
    exact .pure ⟨noOperator, rfl, .refl hs⟩
  · obtain ⟨hk, ht⟩ := h
    have hlength := ht.length_eq
    rw [List.length_singleton] at hlength
    refine .bind (.after ht.ahead (ih.operand l ht.terminated (by omega))) ?_
    rintro _ s₂ ⟨right, rfl, hright⟩
    have hlength' := hright.length_eq
    have hall := ht.trans hright
    refine (Meets.after hall.ahead (ih.chainAfter l _ hright.terminated (by omega))).imp ?_
    rintro _ s₃ ⟨rest, rfl, hrest⟩
    rw [hright.depth] at hrest
    rw [ht.depth] at hright hrest
    refine ⟨moreOperators ⟨t, joins_iff.1 hk⟩ right rest, ?_, (ht.trans (hright.trans hrest))⟩
    rw [join_eq]
    rfl

theorem operand (ih : RecognizesExpressions fuel) (l : Level) (hs : Terminated s.rest)
    (hfuel : 16 * s.rest.length ≤ fuel + 1 + 2 * rank l + 2) :
    Recognizes (c := .operand l) (Parse.operand (fuel + 1) l) s tree := by
  rw [Parse.operand]
  split
  next l' hl =>
    have htighter : Tighter l l' := tighter?_eq_some_iff.1 hl
    have hrank := rank_of_tighter htighter
    refine (ih.chain l' hs (by omega)).imp ?_
    rintro _ s₁ ⟨e, rfl, he⟩
    exact ⟨tighter htighter e, rfl, he⟩
  next hl =>
    obtain rfl : l = .factor := tighter?_eq_none_iff.1 hl
    refine (ih.unary hs hfuel).imp ?_
    rintro _ s₁ ⟨e, rfl, he⟩
    exact ⟨tightest e, rfl, he⟩

theorem unary (ih : RecognizesExpressions fuel) (hs : Terminated s.rest)
    (hfuel : 16 * s.rest.length ≤ fuel + 1 + 13) :
    Recognizes (c := .unary) (Parse.unary (fuel + 1)) s tree := by
  refine .bind (.acceptWhen hs rfl) ?_
  rintro (_ | t) s₁ h
  · obtain ⟨rfl, -⟩ := h
    refine .bind (ih.primary hs hfuel) ?_
    rintro _ s₂ ⟨callee, rfl, hcallee⟩
    have hlength := hcallee.length_eq
    have hpos := (callee.begins rfl).length_pos
    refine (Meets.after hcallee.ahead (ih.callAfter _ hcallee.terminated (by omega))).imp ?_
    rintro _ s₃ ⟨rest, rfl, hrest⟩
    rw [hcallee.depth] at hrest
    exact ⟨call callee rest, rfl, hcallee.trans hrest⟩
  · obtain ⟨hk, ht⟩ := h
    have hlength := ht.length_eq
    rw [List.length_singleton] at hlength
    refine .bind (.after ht.ahead (ih.unary ht.terminated (by omega))) ?_
    rintro _ s₂ ⟨right, rfl, hright⟩
    rw [ht.depth] at hright
    have hmem : t.kind ∈ [Kind.bang, .minus] := by simpa [Parse.isUnaryOperator] using hk
    exact .pure ⟨prefixed ⟨t, hmem⟩ right, rfl, ht.trans hright⟩

theorem optionalArguments (ih : RecognizesExpressions fuel) (hs : Terminated s.rest)
    (hfuel : 16 * s.rest.length + 1 ≤ fuel) :
    Recognizes (c := .optionalArguments) (Parse.listBeforeParen (Parse.arguments fuel 0)) s
      tree := by
  refine .listBeforeParen hs (fun _ => ⟨noArguments, rfl, .refl hs⟩) fun _ => ?_
  refine (ih.arguments 0 hs hfuel).imp ?_
  rintro _ s₁ ⟨args, rfl, hargs⟩
  exact ⟨someArguments args, rfl, hargs⟩

theorem callAfter (ih : RecognizesExpressions fuel) (callee : Expr) (hs : Terminated s.rest)
    (hfuel : 16 * s.rest.length ≤ fuel + 1) :
    Recognizes (c := .callRest) (Parse.callAfter (fuel + 1) callee) s fun d => d.tree callee := by
  refine .bind (.accept hs (by simp)) ?_
  rintro (_ | t) s₁ h
  · obtain ⟨rfl, -⟩ := h
    exact .pure ⟨noCall, rfl, .refl hs⟩
  · obtain ⟨hk, ht⟩ := h
    have hlength := ht.length_eq
    rw [List.length_singleton] at hlength
    refine .bind (.after ht.ahead (optionalArguments ih ht.terminated (by omega))) ?_
    rintro _ s₂ ⟨args, rfl, hargs⟩
    apply Meets.bind_expect (ht.trans hargs).ahead
    intro (closing : Mark .rightParen) s₃ hclosing
    have hall := ht.trans (hargs.trans hclosing)
    have hlength' := hall.length_eq
    simp only [List.length_append, List.length_singleton] at hlength'
    refine (Meets.after hall.ahead (ih.callAfter _ hclosing.terminated (by omega))).imp ?_
    rintro _ s₄ ⟨rest, rfl, hrest⟩
    refine ⟨moreCalls ⟨t, by simp [hk]⟩ args closing rest, rfl, (hall.trans hrest).cast ?_ ?_⟩
    · simp [tokens]
    · simp [faults, hall.depth, ht.depth]

theorem arguments (ih : RecognizesExpressions fuel) (n : Nat) (hs : Terminated s.rest)
    (hfuel : 16 * s.rest.length + 1 ≤ fuel + 1) :
    Recognizes (c := .arguments n) (Parse.arguments (fuel + 1) n) s tree := by
  refine .bind (.limit hs) ?_
  intro _ s₁ hlimit
  have hrest : s.rest = s₁.rest := hlimit.rest
  rw [hrest] at hfuel
  refine .bind (.after hlimit.ahead (ih.expression hlimit.terminated (by omega))) ?_
  rintro _ s₂ ⟨e, rfl, he⟩
  have hhead : overlong .tooManyArguments n s.rest = overlong .tooManyArguments n e.tokens := by
    rw [hrest, he.rest, overlong_append (e.begins rfl)]
  rw [hhead] at hlimit
  rw [hlimit.depth] at he
  have hfirst := hlimit.trans he
  refine .bind (.accept he.terminated (by simp)) ?_
  rintro (_ | t) s₃ h
  · obtain ⟨rfl, -⟩ := h
    exact .pure ⟨lastArgument e, rfl, hfirst⟩
  · obtain ⟨hk, ht⟩ := h
    have hlength := (hfirst.trans ht).length_eq
    simp only [List.length_append, List.length_singleton, List.length_nil, hrest] at hlength
    refine .bind (.after (hfirst.trans ht).ahead
      (ih.arguments (n + 1) ht.terminated (by omega))) ?_
    rintro _ s₄ ⟨rest, rfl, hrest⟩
    refine .pure ⟨moreArguments e ⟨t, by simp [hk]⟩ rest, rfl,
      ((hfirst.trans ht).trans hrest).cast ?_ ?_⟩
    · simp [tokens]
    · simp [faults, ht.depth, hfirst.depth]

theorem primary (ih : RecognizesExpressions fuel) (hs : Terminated s.rest)
    (hfuel : 16 * s.rest.length ≤ fuel + 1 + 14) :
    Recognizes (c := .primary) (Parse.primary (fuel + 1)) s tree := by
  obtain ⟨t, ts, hrest, -⟩ := hs.begins
  have htake : t.kind ≠ .eof → Passes s [t] [] { s with rest := ts } := .token hs hrest
  have hliteral : ∀ hk : t.kind ∈ literals,
      Finds tree s (Expr.literal (literalOf t)) { s with rest := ts } := fun hk =>
    ⟨literal ⟨t, hk⟩, rfl, htake (by rintro heq; rw [heq] at hk; revert hk; decide)⟩
  apply Meets.bind_peek hrest
  split
  case h_6 hk =>
    have hname : t.kind ∈ [Kind.identifier] := by simp [hk]
    exact .bind_advance hrest (.pure ⟨named ⟨t, hname⟩, rfl, htake (by simp [hk])⟩)
  case h_7 hk =>
    have hopening := htake (by simp [hk])
    have hlength := hopening.length_eq
    rw [List.length_singleton] at hlength
    refine .bind_advance hrest (.bind (.after hopening.ahead
      (ih.expression hopening.terminated (by omega))) ?_)
    rintro _ s₂ ⟨e, rfl, he⟩
    apply Meets.bind_expect (hopening.trans he).ahead
    intro (closing : Mark .rightParen) s₃ hclosing
    refine .pure ⟨grouping ⟨t, by simp [hk]⟩ e closing, rfl,
      (hopening.trans (he.trans hclosing)).cast rfl ?_⟩
    simp [faults]
  case h_8 => exact .fail hs trivial
  -- The five kinds of literals.
  all_goals
    rename_i hk
    refine .bind_advance hrest (.pure ?_)
    have h := hliteral (by simp [literals, hk])
    rw [literalOf, hk] at h
    exact h

end Recognizes

/-- Each parser of expressions recognizes its category. -/
theorem recognizesExpressions (fuel : Nat) : RecognizesExpressions fuel := by
  induction fuel with
  | zero =>
    have hpos : ∀ {s : State}, Terminated s.rest → 0 < s.rest.length := Terminated.length_pos
    exact {
      expression := fun hs _ => by have := hpos hs; omega
      chain := fun l hs _ => by have := hpos hs; have := rank_le l; omega
      chainAfter := fun _ _ hs _ => by have := hpos hs; omega
      operand := fun l hs _ => by have := hpos hs; have := rank_le l; omega
      unary := fun hs _ => by have := hpos hs; omega
      callAfter := fun _ hs _ => by have := hpos hs; omega
      arguments := fun _ hs _ => by have := hpos hs; omega
      primary := fun hs _ => by have := hpos hs; omega }
  | succ fuel ih =>
    exact {
      expression := .expression ih
      chain := .chain ih
      chainAfter := .chainAfter ih
      operand := .operand ih
      unary := .unary ih
      callAfter := .callAfter ih
      arguments := .arguments ih
      primary := .primary ih }

end Grammar

end Lox
