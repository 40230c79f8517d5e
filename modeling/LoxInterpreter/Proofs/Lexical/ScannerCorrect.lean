import LoxInterpreter.Proofs.Lexical.Front

/-!
The scanner is exact. It succeeds on the texts that can be cut into longest pieces, and its tokens
are the lexemes of the cut. Otherwise it fails where the cut gets stuck, with the lexemes before.
-/

namespace Lox

namespace Lexical

open Scan

/-- Where a cut ends, it could not go on. -/
def EndsWell : Ending → Prop
  | .complete => True
  | .stuck cause rest => ∃ lexeme, Stuck rest cause lexeme

/-- Pieces are cut in front of a text. -/
theorem pieces_text_append (p : Piece) (text : List Char)
    (h : front p.first (p.more ++ text) = .ok p) :
    pieces (p.text ++ text) = (p :: (pieces text).1, (pieces text).2) := by
  have hdrop : (p.more ++ text).drop p.more.length = text := List.drop_left
  rw [Piece.text, List.cons_append, pieces, h]
  dsimp only
  rw [hdrop]

/-- The scanner cuts a text as far as that goes. -/
theorem cut_pieces (text : List Char) :
    Cut text (pieces text).1 (pieces text).2.rest ∧ EndsWell (pieces text).2 := by
  fun_induction pieces text with
  | case1 => exact ⟨.done, trivial⟩
  | case2 c cs cause h => exact ⟨.done, stuck_of_front h⟩
  | case3 c cs p h ps ending heq ih =>
    obtain ⟨rfl, rest, rfl⟩ := isPrefix_of_front h
    rw [List.drop_left] at heq ih
    rw [heq] at ih
    have hlongest : Longest (p.text ++ rest) p.text p.role := longest_of_front h
    exact ⟨.more hlongest ih.1, ih.2⟩

theorem cut_of_pieces {text : List Char} {ps : List Piece} {ending : Ending}
    (h : pieces text = (ps, ending)) : Cut text ps ending.rest ∧ EndsWell ending := by
  have hcut := cut_pieces text
  rwa [h] at hcut

/-- There is only one way to cut a text as far as that goes. -/
theorem pieces_of_cut {text rest : List Char} {ps : List Piece} {ending : Ending}
    (h : Cut text ps rest) (hrest : ending.rest = rest) (hends : EndsWell ending) :
    pieces text = (ps, ending) := by
  induction h with
  | @done rest =>
    cases ending with
    | complete =>
      obtain rfl : rest = [] := hrest.symm
      rw [pieces]
    | stuck cause rest' =>
      obtain rfl : rest' = rest := hrest
      obtain ⟨lexeme, hstuck⟩ := hends
      cases rest' with
      | nil => cases hstuck.obstacle
      | cons c cs => rw [pieces, front_of_stuck hstuck]
  | @more p text rest ps hlongest _ ih =>
    rw [pieces_text_append p text (front_of_longest hlongest), ih hrest]

/-- The tokens of pieces are their lexemes. -/
theorem map_content_tokensAt (start : Place) (ps : List Piece) :
    (tokensAt start ps).map content = lexemes ps := by
  induction ps generalizing start with
  | nil => rfl
  | cons p ps ih =>
    rw [tokensAt, lexemes, List.filterMap_cons]
    cases hrole : p.role with
    | blank => exact ih _
    | lexeme kind literal =>
      rw [List.map_cons, ih]
      rfl

theorem ofStuck_eq {rest : List Char} {cause : ScanCause} {lexeme : String} (start : Place)
    (h : Obstacle rest cause lexeme) :
    (ScanError.ofStuck cause rest start).cause = cause ∧
      (ScanError.ofStuck cause rest start).lexeme = lexeme := by
  cases h <;> exact ⟨rfl, rfl⟩

theorem scanChars_of_complete {text : List Char} {ps : List Piece} (line : Int)
    (h : pieces text = (ps, .complete)) :
    ∃ tokens, scanChars text line = .ok tokens ∧
      tokens.map content = lexemes ps ++ [(.eof, "", .nil)] := by
  rw [scanChars, h]
  refine ⟨_, rfl, ?_⟩
  rw [List.map_append, map_content_tokensAt]
  rfl

theorem scanChars_of_stuck {text rest : List Char} {ps : List Piece} {cause : ScanCause}
    {lexeme : String} (line : Int) (h : pieces text = (ps, .stuck cause rest))
    (hobstacle : Obstacle rest cause lexeme) :
    ∃ f, scanChars text line = .error f ∧ f.before.map content = lexemes ps ∧
      f.error.cause = cause ∧ f.error.lexeme = lexeme := by
  rw [scanChars, h]
  obtain ⟨hcause, hlexeme⟩ := ofStuck_eq (Place.after ⟨line, 0⟩ (textOf ps)) hobstacle
  exact ⟨_, rfl, map_content_tokensAt _ ps, hcause, hlexeme⟩

/-- A scan succeeds with a whole cut, or fails with one that gets stuck. -/
theorem scanChars_cases (text : List Char) (line : Int) :
    (∃ ps tokens, Cut text ps [] ∧ scanChars text line = .ok tokens ∧
      tokens.map content = lexemes ps ++ [(.eof, "", .nil)]) ∨
    ∃ ps rest cause lexeme f, Cut text ps rest ∧ Stuck rest cause lexeme ∧
      scanChars text line = .error f ∧ f.before.map content = lexemes ps ∧
        f.error.cause = cause ∧ f.error.lexeme = lexeme := by
  cases hpieces : pieces text with
  | mk ps ending =>
    obtain ⟨hcut, hends⟩ := cut_of_pieces hpieces
    cases ending with
    | complete =>
      obtain ⟨tokens, hscan, hcontent⟩ := scanChars_of_complete line hpieces
      exact Or.inl ⟨ps, tokens, hcut, hscan, hcontent⟩
    | stuck cause rest =>
      obtain ⟨lexeme, hstuck⟩ := hends
      obtain ⟨f, hscan, hbefore, hcause, hlexeme⟩ :=
        scanChars_of_stuck line hpieces hstuck.obstacle
      exact Or.inr ⟨ps, rest, cause, lexeme, f, hcut, hstuck, hscan, hbefore, hcause, hlexeme⟩

end Lexical

open Lexical

/-- A scan succeeds if and only if the whole text can be cut into longest pieces, and gives the
lexemes of the cut. It fails if and only if the cut gets stuck, and reports what stands there and
the lexemes before it. -/
theorem scan_exact (source : String) (line : Int) :
    (∀ contents, (∃ tokens, scan source line = .ok tokens ∧ tokens.map content = contents) ↔
      ∃ ps, Cut source.toList ps [] ∧ contents = lexemes ps ++ [(.eof, "", .nil)]) ∧
    ∀ before cause lexeme, (∃ f, scan source line = .error f ∧ f.before.map content = before ∧
        f.error.cause = cause ∧ f.error.lexeme = lexeme) ↔
      ∃ ps rest, Cut source.toList ps rest ∧ Stuck rest cause lexeme ∧ before = lexemes ps := by
  have hcases := scanChars_cases source.toList line
  refine ⟨fun contents => ⟨?_, ?_⟩, fun before cause lexeme => ⟨?_, ?_⟩⟩
  · rintro ⟨tokens, hscan, rfl⟩
    rcases hcases with ⟨ps, tokens', hcut, hok, hcontent⟩ | ⟨_, _, _, _, f, -, -, herror, -⟩
    · obtain rfl : tokens = tokens' := Except.ok.inj (hscan.symm.trans hok)
      exact ⟨ps, hcut, hcontent⟩
    · cases hscan.symm.trans herror
  · rintro ⟨ps, hps, rfl⟩
    have hends : EndsWell .complete := trivial
    have hpieces := pieces_of_cut hps rfl hends
    exact scanChars_of_complete line hpieces
  · rintro ⟨f, hscan, rfl, rfl, rfl⟩
    rcases hcases with ⟨_, tokens, -, hok, -⟩ | ⟨ps, rest, cause, lexeme, f', hcut, hstuck, herror,
      hbefore, rfl, rfl⟩
    · cases hscan.symm.trans hok
    · obtain rfl : f = f' := Except.error.inj (hscan.symm.trans herror)
      exact ⟨ps, rest, hcut, hstuck, hbefore⟩
  · rintro ⟨ps, rest, hps, hstuck, rfl⟩
    have hends : EndsWell (.stuck cause rest) := ⟨lexeme, hstuck⟩
    have hpieces := pieces_of_cut hps rfl hends
    exact scanChars_of_stuck line hpieces hstuck.obstacle

end Lox
