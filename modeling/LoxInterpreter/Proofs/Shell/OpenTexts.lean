import LoxInterpreter.Proofs.Diagnostic.Excerpts
import LoxInterpreter.Proofs.Grammar.Braces
import LoxInterpreter.Proofs.Grammar.Trees
import LoxInterpreter.Proofs.Lexical.JoinedTexts

/-!
Texts that go on. What is typed up to the end of a line is the beginning of a source, and the shell
asks for more exactly if the line ends in the middle of something: inside a string, inside a block
comment, or between two braces that match each other. Which of them it is shows only in the rest of
the source, but whether there is one of them does not depend on it.
-/

namespace Lox

variable {text : List Char} {first : Int} {t : Token} {start stop start' stop' o o' : Nat}
  {ts : List Token}

/-! ### Where tokens stand -/

/-- An offset is known from how many newlines are before it and from its column. -/
theorem eq_of_count_eq (hle : start ≤ stop)
    (hcount : (text.take start).count '\n' = (text.take stop).count '\n')
    (hcolumn : start - lineStart text start = stop - lineStart text stop) : start = stop := by
  have hnone : '\n' ∉ slice text start stop := by
    rw [← take_append_slice text hle, List.count_append] at hcount
    exact List.count_eq_zero.1 (by omega)
  have hline := lineStart_eq_of_not_mem hle hnone
  have hbegins := lineStart_le text start
  omega

namespace StandsAt

theorem length_lexeme (h : StandsAt text first t start stop) :
    t.lexeme.toList.length = stop - start := by
  rw [h.lexeme, String.toList_ofList, slice, List.length_drop, List.length_take,
    Nat.min_eq_left h.stop_le]

/-- The newlines before the token are those before its end without its own. -/
theorem count_start (h : StandsAt text first t start stop) :
    ((text.take start).count '\n' : Int) = t.line - first - t.lexeme.toList.count '\n' := by
  have hline := h.line
  rw [← take_append_slice text h.start_le, List.count_append] at hline
  rw [hline, h.lexeme, String.toList_ofList]
  omega

/-- A token stands at one place only. -/
theorem unique (h : StandsAt text first t start stop) (h' : StandsAt text first t start' stop') :
    start = start' ∧ stop = stop' := by
  have hlength := h.length_lexeme.symm.trans h'.length_lexeme
  have hcount : (text.take start).count '\n' = (text.take start').count '\n' :=
    Int.ofNat.inj (h.count_start.trans h'.count_start.symm)
  have hcolumn := Option.some.inj (h.column.symm.trans h'.column)
  have hstart : start = start' := by
    rcases Nat.le_total start start' with hle | hle
    · exact eq_of_count_eq hle hcount hcolumn
    · exact (eq_of_count_eq hle hcount.symm hcolumn.symm).symm
  have hle := h.start_le
  have hle' := h'.start_le
  omega

end StandsAt

theorem Laid.le (h : Laid text first o ts o') : o ≤ o' := by
  induction h with
  | nil h => exact h
  | cons hstart hlt _ _ ih => omega

/-- Tokens that are laid between two offsets stand between them. -/
theorem Laid.exists_of_mem (h : Laid text first o ts o') (ht : t ∈ ts) :
    ∃ start stop, StandsAt text first t start stop ∧ o ≤ start ∧ start < stop ∧ stop ≤ o' := by
  induction h with
  | nil => cases ht
  | cons hstart hlt hu hts ih =>
    rcases List.mem_cons.1 ht with rfl | ht
    · exact ⟨_, _, hu, hstart, hlt, hts.le⟩
    · obtain ⟨start, stop, hstands, hle, hends⟩ := ih ht
      exact ⟨start, stop, hstands, by omega, hends⟩

/-- So a place of such a token is between them. -/
theorem Laid.bounds (h : Laid text first o ts o') (ht : t ∈ ts)
    (hstands : StandsAt text first t start stop) : o ≤ start ∧ stop ≤ o' := by
  obtain ⟨_, _, hstands', hle, -, hends⟩ := h.exists_of_mem ht
  obtain ⟨rfl, rfl⟩ := hstands.unique hstands'
  exact ⟨hle, hends⟩

/-! ### Beginnings of texts -/

namespace Lexical

open Scan

variable {rest more : List Char} {cause : ScanCause} {lexeme : String} {source : String}
  {ps : List Piece}

/-- If a beginning of a text gets stuck and the text does not, then because a string or a comment
that is not closed there goes on behind the beginning. -/
theorem exists_first_of_stuck (h : Stuck rest cause lexeme)
    (hends : (pieces (rest ++ '\n' :: more)).2 = .complete) :
    cause.isUnterminated = true ∧ ∃ p ps, pieces (rest ++ '\n' :: more) = (p :: ps, .complete) ∧
      rest.length < p.text.length ∧
      ((∃ literal, p.role = .lexeme .string literal) ∨
        p.role = .blank ∧ ['/', '*'] <+: p.text) := by
  cases rest with
  | nil => cases h.obstacle
  | cons c cs =>
    cases hfront : front c (cs ++ '\n' :: more) with
    | error cause' =>
      rw [List.cons_append, pieces, hfront] at hends
      cases hends
    | ok p =>
      have hallowed : Allowed (c :: cs ++ '\n' :: more) p.text p.role := allowed_of_front hfront
      have hlength : (c :: cs).length < p.text.length := by
        -- A piece that ends before the newline would also be one of the beginning.
        by_contra hle
        have hfits := List.prefix_of_prefix_length_le hallowed.isPrefix
          (List.prefix_append (c :: cs) ('\n' :: more)) (Nat.not_lt.1 hle)
        exact h.not_allowed _ _ ⟨hfits, hallowed.isPiece, fun hopens =>
          hallowed.opening (hopens.trans (List.prefix_append _ _))⟩
      have hpieces : pieces (c :: cs ++ '\n' :: more) =
          (p :: (pieces (c :: cs ++ '\n' :: more)).1.tail, .complete) := by
        rw [← hends, List.cons_append, pieces, hfront]
        rfl
      have hobstacle := h.obstacle
      generalize htext : c :: cs = rest at hobstacle
      cases hobstacle with
      | string =>
        cases htext
        refine ⟨rfl, p, _, hpieces, hlength, Or.inl ?_⟩
        rw [front_quote] at hfront
        split at hfront
        · cases hfront
          exact ⟨_, rfl⟩
        · cases hfront
      | comment =>
        cases htext
        refine ⟨rfl, p, _, hpieces, hlength, Or.inr ?_⟩
        rw [List.cons_append, front_opening] at hfront
        split at hfront
        · cases hfront
          exact ⟨rfl, _, rfl⟩
        · cases hfront
      | character =>
        cases htext
        rw [front_of_unexpectedCharacter (front_of_stuck h)] at hfront
        cases hfront

/-- How many braces are open does not depend on where a text begins. -/
theorem braceDepth_tokensAt (place place' : Place) (ps : List Piece) :
    braceDepth (tokensAt place ps) = braceDepth (tokensAt place' ps) := by
  have hkinds (place : Place) : (tokensAt place ps).map Token.kind = (lexemes ps).map (·.1) := by
    rw [← map_content_tokensAt place ps, List.map_map]
    rfl
  exact braceDepth_congr ((hkinds place).trans (hkinds place').symm)

/-- A text that scans goes on if braces are open at its end. -/
theorem continues_of_complete (h : pieces source.toList = (ps, .complete)) (place : Place) :
    continues source = true ↔ 0 < braceDepth (tokensAt place ps) := by
  rw [continues, scan, scanChars, h]
  simp [Kind.braceStep, braceDepth_tokensAt ⟨1, 0⟩ place]

theorem continues_of_stuck (h : pieces source.toList = (ps, .stuck cause rest)) :
    continues source = cause.isUnterminated := by
  rw [continues, scan, scanChars, h]
  cases cause <;> rfl

end Lexical

/-! ### The middle of something -/

namespace CleanSource

open Scan (textOf)
open Lexical (Cut)

def InString (source : CleanSource) (offset : Nat) : Prop :=
  ∃ t ∈ source.tokens, t.kind = .string ∧ ∃ start stop,
    StandsAt source.text.toList source.line t start stop ∧ start ≤ offset ∧ offset < stop

def InBlockComment (source : CleanSource) (offset : Nat) : Prop :=
  ∃ before p after, Cut source.text.toList (before ++ p :: after) [] ∧ p.role = .blank ∧
    ['/', '*'] <+: p.text ∧ (textOf before).length ≤ offset ∧
    offset < (textOf before ++ p.text).length

/-- An offset is behind an opening brace and before the closing brace that matches it. -/
def BetweenBraces (source : CleanSource) (offset : Nat) : Prop :=
  ∃ before opening inner closing after,
    source.tokens = before ++ opening :: (inner ++ closing :: after) ∧
    opening.kind = .leftBrace ∧ closing.kind = .rightBrace ∧ Balanced inner ∧
    ∃ start stop start' stop', StandsAt source.text.toList source.line opening start stop ∧
      StandsAt source.text.toList source.line closing start' stop' ∧
      stop ≤ offset ∧ offset < start'

variable (source : CleanSource)

/-- The braces of a source match each other. -/
theorem exists_balanced : ∃ body stop, source.tokens = body ++ [stop] ∧ stop.kind = .eof ∧
    Balanced body := by
  obtain ⟨text, line, tokens, hscan, hparse⟩ := source
  obtain ⟨body, stop, rfl, hbody, hstop⟩ := Lexical.exists_of_scan hscan
  obtain ⟨d, rfl, -⟩ := Grammar.exists_of_errors_eq_nil (.append hbody hstop) hparse
  exact ⟨d.tokens, stop, rfl, hstop, d.balanced⟩

/-- The tokens of a source are those of its pieces. -/
theorem exists_pieces : ∃ ps stop, Scan.pieces source.text.toList = (ps, .complete) ∧
    source.tokens = Scan.tokensAt ⟨source.line, 0⟩ ps ++ [stop] ∧ stop.kind = .eof :=
  Lexical.exists_pieces_of_scanChars source.scans

section

open Scan Lexical

variable {source} {a b : String} {ps : List Piece}

/-- A source in which the first part scans: its tokens come before the newline or behind it. -/
theorem exists_parts (hcut : source.text = a ++ "\n" ++ b)
    (hps : pieces a.toList = (ps, .complete)) :
    ∃ qs rear stop, pieces source.text.toList = (ps ++ newline :: qs, .complete) ∧
      source.tokens = tokensAt ⟨source.line, 0⟩ ps ++ (rear ++ [stop]) ∧ stop.kind = .eof ∧
      Laid source.text.toList source.line 0 (tokensAt ⟨source.line, 0⟩ ps) a.length ∧
      Laid source.text.toList source.line (a.length + 1) rear source.text.toList.length := by
  obtain ⟨all, stop, hall, htokens, hstop⟩ := source.exists_pieces
  have hjoined := pieces_append_newline hps b.toList
  rw [← toList_append_newline, ← hcut, hall] at hjoined
  obtain ⟨rfl, hends⟩ := Prod.mk.inj hjoined
  have ha : textOf ps = a.toList := by
    have htext := textOf_pieces a.toList
    rwa [hps, Ending.rest, List.append_nil] at htext
  have hb : textOf (pieces b.toList).1 = b.toList := by
    have htext := textOf_pieces b.toList
    rwa [← hends, Ending.rest, List.append_nil] at htext
  have htext : source.text.toList = a.toList ++ '\n' :: b.toList := by
    rw [hcut, toList_append_newline]
  have hfront := laid_tokensAt source.line [] ('\n' :: b.toList) ps
  have hrear := laid_tokensAt source.line (a.toList ++ ['\n']) [] (pieces b.toList).1
  simp only [List.nil_append, List.append_nil, List.append_assoc, List.singleton_append, ha, hb,
    ← htext, List.length_nil, List.length_append, List.length_singleton, String.length_toList]
    at hfront hrear
  refine ⟨_, _, stop, hall, ?_, hstop, hfront, hrear.mono (Nat.le_refl _)⟩
  rw [htokens, tokensAt_append, ha, Place.after_append, List.append_assoc]
  rfl

theorem not_inString_of_complete (hcut : source.text = a ++ "\n" ++ b)
    (hps : pieces a.toList = (ps, .complete)) : ¬ source.InString a.length := by
  rintro ⟨t, ht, hkind, start, stop', hstands, hstart, hstop'⟩
  obtain ⟨_, rear, stop, -, htokens, hstop, hfront, hrear⟩ := exists_parts hcut hps
  rw [htokens] at ht
  rcases List.mem_append.1 ht with ht | ht
  · have hbounds := hfront.bounds ht hstands
    omega
  rcases List.mem_append.1 ht with ht | ht
  · have hbounds := hrear.bounds ht hstands
    omega
  · rw [List.mem_singleton.1 ht, hstop] at hkind
    cases hkind

theorem not_inBlockComment_of_complete (hcut : source.text = a ++ "\n" ++ b)
    (hps : pieces a.toList = (ps, .complete)) : ¬ source.InBlockComment a.length := by
  rintro ⟨before, p, after, hpieces, -, hopens, hstart, hstop⟩
  obtain ⟨qs, -, -, hall, -⟩ := exists_parts hcut hps
  have ha : (textOf ps).length = a.length := by
    have htext := textOf_pieces a.toList
    rw [hps, Ending.rest, List.append_nil] at htext
    rw [htext, String.length_toList]
  -- The piece at the offset is the newline, which begins no comment.
  have hnewline : p ≠ newline := by
    rintro rfl
    exact absurd hopens (by decide)
  have hends : EndsWell .complete := trivial
  obtain ⟨hparts, -⟩ := Prod.mk.inj (hall.symm.trans (pieces_of_cut hpieces rfl hends))
  rcases List.append_eq_append_iff.1 hparts with ⟨more, rfl, hmore⟩ | ⟨more, rfl, hmore⟩
  · cases more with
    | nil => exact hnewline (List.cons.inj hmore).1.symm
    | cons q more =>
      obtain ⟨rfl, -⟩ := List.cons.inj hmore
      simp [textOf, newline, Piece.text] at hstart ha
      omega
  · cases more with
    | nil => exact hnewline (List.cons.inj hmore).1
    | cons q more =>
      obtain ⟨rfl, -⟩ := List.cons.inj hmore
      simp [textOf] at hstop ha
      omega

/-- A list is cut between two of its elements if the one is not behind and the other not before. -/
theorem exists_of_not_mem {α : Type} {x y : α} {before inner after front rear : List α}
    (h : before ++ x :: (inner ++ y :: after) = front ++ rear) (hx : x ∉ rear) (hy : y ∉ front) :
    ∃ inside rest, front = before ++ x :: inside ∧ inner = inside ++ rest := by
  rcases List.append_eq_append_iff.1 h with ⟨more, rfl, hmore⟩ | ⟨more, rfl, rfl⟩
  · cases more with
    | nil =>
      rw [List.nil_append] at hmore
      exact absurd (hmore ▸ List.mem_cons_self) hx
    | cons _ inside =>
      obtain ⟨rfl, hinside⟩ := List.cons.inj hmore
      rcases List.append_eq_append_iff.1 hinside with ⟨last, rfl, hlast⟩ | ⟨rest, rfl, -⟩
      · cases last with
        | nil => exact ⟨inner, [], by simp, by simp⟩
        | cons _ last =>
          obtain ⟨rfl, -⟩ := List.cons.inj hlast
          exact absurd (by simp) hy
      · exact ⟨inside, rest, rfl, rfl⟩
  · exact absurd (by simp) hx

/-- Between two parts of a source, braces are open exactly if some of them match across. -/
theorem betweenBraces_iff_of_complete (hcut : source.text = a ++ "\n" ++ b)
    (hps : pieces a.toList = (ps, .complete)) :
    source.BetweenBraces a.length ↔ 0 < braceDepth (tokensAt ⟨source.line, 0⟩ ps) := by
  obtain ⟨qs, rear, stop, -, htokens, hstop, hfront, hrear⟩ := exists_parts hcut hps
  obtain ⟨body, stop', htokens', hstop', hbalanced⟩ := source.exists_balanced
  generalize tokensAt ⟨source.line, 0⟩ ps = front at *
  have hbody : body = front ++ rear := by
    rw [htokens', ← List.append_assoc] at htokens
    exact (List.append_inj' htokens rfl).1
  subst hbody
  constructor
  · rintro ⟨before, opening, inner, closing, after, hall, hopening, hclosing, hinner, _, _, _, _,
      hopens, hcloses, hle, hlt⟩
    have hnotBehind : opening ∉ rear ++ [stop] := by
      intro hmem
      rcases List.mem_append.1 hmem with hmem | hmem
      · have hbounds := hrear.bounds hmem hopens
        have hstarts := hopens.start_le
        omega
      · rw [List.mem_singleton.1 hmem, hstop] at hopening
        cases hopening
    have hnotBefore : closing ∉ front := by
      intro hmem
      have hbounds := hfront.bounds hmem hcloses
      have hstarts := hcloses.start_le
      omega
    obtain ⟨inside, rest, rfl, rfl⟩ :=
      exists_of_not_mem (hall.symm.trans htokens) hnotBehind hnotBefore
    rw [List.append_assoc] at hbalanced
    have hbefore := hbalanced.braceDepth_nonneg
    have hinside := hinner.braceDepth_nonneg
    simp only [braceDepth_append, braceDepth_cons, hopening, Kind.braceStep]
    omega
  · intro hdepth
    obtain ⟨before, opening, inside, rest, closing, after, rfl, rfl, hopening, hclosing, hinner⟩ :=
      hbalanced.exists_matching hdepth
    obtain ⟨start, stop₁, hopens, -, -, hle⟩ := hfront.exists_of_mem
      (List.mem_append_right before List.mem_cons_self)
    obtain ⟨start', stop₂, hcloses, hlt, -, -⟩ := hrear.exists_of_mem
      (List.mem_append_right rest List.mem_cons_self)
    refine ⟨before, opening, inside ++ rest, closing, after ++ [stop], ?_, hopening, hclosing,
      hinner, start, stop₁, start', stop₂, hopens, hcloses, hle, hlt⟩
    rw [htokens]
    simp

/-- If the first part does not scan, then a string or a comment goes over its end. -/
theorem inside_of_stuck {cause : ScanCause} {rest : List Char}
    (hcut : source.text = a ++ "\n" ++ b) (hps : pieces a.toList = (ps, .stuck cause rest)) :
    cause.isUnterminated = true ∧
      (source.InString a.length ∨ source.InBlockComment a.length) := by
  obtain ⟨all, stop, hall, htokens, -⟩ := source.exists_pieces
  have htext : source.text.toList = a.toList ++ '\n' :: b.toList := by
    rw [hcut, toList_append_newline]
  obtain ⟨hbegins, lexeme, hstuck⟩ := cut_of_pieces hps
  dsimp only [Ending.rest] at hbegins
  have ha : textOf ps ++ rest = a.toList := by
    have hparts := textOf_pieces a.toList
    rw [hps] at hparts
    exact hparts
  have hjoined := pieces_of_cut_append hbegins b.toList
  rw [← htext, hall] at hjoined
  obtain ⟨rfl, hends⟩ := Prod.mk.inj hjoined
  obtain ⟨hcause, p, qs, hfirst, hlength, hrole⟩ := exists_first_of_stuck hstuck hends.symm
  rw [hfirst] at hall htokens
  have hstart : (textOf ps).length ≤ a.length := by
    rw [← String.length_toList, ← ha, List.length_append]
    omega
  have hstop : a.length < (textOf ps ++ p.text).length := by
    rw [← String.length_toList, ← ha, List.length_append, List.length_append]
    omega
  refine ⟨hcause, ?_⟩
  rcases hrole with ⟨literal, hstring⟩ | ⟨hblank, hopens⟩
  · have hsource : source.text.toList = textOf ps ++ p.text ++ textOf qs := by
      have hpieces := textOf_pieces source.text.toList
      rw [hall, Ending.rest, List.append_nil] at hpieces
      rw [← hpieces]
      simp [textOf]
    have hstands := standsAt source.line (textOf ps) p.text (textOf qs) .string literal
    rw [← hsource] at hstands
    refine Or.inl ⟨_, ?_, rfl, _, _, hstands, hstart, hstop⟩
    rw [htokens, tokensAt_append, tokensAt, hstring]
    simp
  · exact Or.inr ⟨ps, p, qs, (cut_of_pieces hall).1, hblank, hopens, hstart, hstop⟩

end

/-- A source without errors does not go on. -/
theorem continues_eq_false : continues source.text = false := by
  obtain ⟨ps, stop, hps, htokens, hstop⟩ := source.exists_pieces
  obtain ⟨body, stop', htokens', -, hbalanced⟩ := source.exists_balanced
  obtain ⟨rfl, -⟩ := List.append_inj' (htokens'.symm.trans htokens) rfl
  rw [Bool.eq_false_iff, Ne, Lexical.continues_of_complete hps ⟨source.line, 0⟩,
    hbalanced.braceDepth_eq_zero]
  exact Int.lt_irrefl 0

end CleanSource

/-- A source that scans and parses without errors is complete. If it is cut at a newline, then the
part before is not complete exactly if the newline is inside a string or a block comment, or between
an opening brace and the closing brace that matches it. -/
theorem continues_exact (source : CleanSource) :
    continues source.text = false ∧ ∀ a b : String, source.text = a ++ "\n" ++ b →
      (continues a = true ↔ source.InString a.length ∨ source.InBlockComment a.length ∨
        source.BetweenBraces a.length) := by
  refine ⟨source.continues_eq_false, fun a b hcut => ?_⟩
  cases hpieces : Scan.pieces a.toList with
  | mk ps ending =>
    cases ending with
    | complete =>
      rw [Lexical.continues_of_complete hpieces ⟨source.line, 0⟩,
        ← CleanSource.betweenBraces_iff_of_complete hcut hpieces]
      simp [CleanSource.not_inString_of_complete hcut hpieces,
        CleanSource.not_inBlockComment_of_complete hcut hpieces]
    | stuck cause rest =>
      obtain ⟨hcause, hinside⟩ := CleanSource.inside_of_stuck hcut hpieces
      rw [Lexical.continues_of_stuck hpieces, hcause, ← or_assoc]
      exact iff_of_true rfl (Or.inl hinside)

/-- The first line of a block waits for the second one. The brace in the comment does not count. -/
theorem continues_exact_block :
    ∃ source : CleanSource, source.text = "\x7b // \x7d" ++ "\n" ++ "\x7d" ∧
      continues source.text = false ∧ continues "\x7b // \x7d" = true ∧
      (source.InString 6 ∨ source.InBlockComment 6 ∨ source.BetweenBraces 6) := by
  let opening : Token := ⟨.leftBrace, "\x7b", .nil, 1, some 0⟩
  let closing : Token := ⟨.rightBrace, "\x7d", .nil, 2, some 0⟩
  let stop : Token := ⟨.eof, "", .nil, 2, some 1⟩
  have hscan : scan "\x7b // \x7d\n\x7d" 1 = .ok [opening, closing, stop] := by cbv
  have hparse : (parse [opening, closing, stop]).errors = [] := rfl
  let source : CleanSource := ⟨_, 1, _, hscan, hparse⟩
  have hwaits : continues "\x7b // \x7d" = true := by cbv
  obtain ⟨hcomplete, hcuts⟩ := continues_exact source
  exact ⟨source, rfl, hcomplete, hwaits, (hcuts "\x7b // \x7d" "\x7d" rfl).1 hwaits⟩

end Lox
