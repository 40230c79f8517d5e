import LoxInterpreter.Proofs.Lexical.Restart

/-!
Texts one after the other, with a newline between them. Behind a text that scans, the other one is
scanned as on its own, whether or not that succeeds. A character at which no lexeme begins stays one
whatever follows the text.
-/

namespace Lox

namespace Lexical

open Scan

variable {c d : Char} {cs : List Char}

/-- Whether a character is unexpected does not depend on what follows it. -/
theorem front_of_unexpectedCharacter (h : front c cs = .error (.unexpectedCharacter d))
    (more : List Char) : front c more = .error (.unexpectedCharacter d) := by
  cases hspace : isSpace c || c == '\n' with
  | true =>
    rw [front_space hspace] at h
    cases h
  | false =>
  cases hword : isWordCharacter c with
  | true =>
    rw [front_of_isWordCharacter hword] at h
    split at h <;> cases h
  | false =>
  cases hsingle : single? c with
  | some kind =>
    rw [front_single hsingle] at h
    cases h
  | none =>
  cases hdouble : double? c with
  | some kinds =>
    rw [front_double hdouble] at h
    split at h <;> cases h
  | none =>
  by_cases hslash : c = '/'
  · subst hslash
    rw [front_slash] at h
    repeat' split at h
    all_goals cases h
  by_cases hquote : c = '"'
  · subst hquote
    rw [front_quote] at h
    split at h <;> cases h
  · have hfront := front_other hspace hsingle hdouble hslash hquote hword
    rw [hfront] at h ⊢
    exact h

/-- A cut that gets stuck at an unexpected character gets stuck there whatever follows. -/
theorem pieces_append_of_unexpectedCharacter {text rest : List Char} {ps : List Piece}
    (h : pieces text = (ps, .stuck (.unexpectedCharacter d) rest)) (more : List Char) :
    pieces (text ++ '\n' :: more) =
      (ps, .stuck (.unexpectedCharacter d) (rest ++ '\n' :: more)) := by
  obtain ⟨hcut, lexeme, hstuck⟩ := cut_of_pieces h
  rw [pieces_of_cut_append hcut]
  cases rest with
  | nil => cases hstuck.obstacle
  | cons c cs =>
    have hfront := front_of_unexpectedCharacter (front_of_stuck hstuck) (cs ++ '\n' :: more)
    rw [Ending.rest, List.cons_append, pieces, hfront, List.append_nil]

theorem scanChars_append_of_unexpectedCharacter {text : List Char} {line : Int} {f : ScanFailure}
    (h : scanChars text line = .error f) (hcause : f.error.cause = .unexpectedCharacter d)
    (more : List Char) : scanChars (text ++ '\n' :: more) line = .error f := by
  unfold scanChars at h ⊢
  cases hpieces : pieces text with
  | mk ps ending =>
    rw [hpieces] at h
    cases ending with
    | complete => cases h
    | stuck cause rest =>
      cases h
      cases cause with
      | unexpectedCharacter d' => rw [pieces_append_of_unexpectedCharacter hpieces]; rfl
      | unterminatedString => cases hcause
      | unterminatedComment => cases hcause

end Lexical

open Lexical

/-- A text `a` that scans does not change how the text `b` is scanned on the lines behind it: there
are the tokens of `a` without its end, and then the tokens of `b` or its failure. If the scan of `a`
fails over a character that begins no lexeme, it fails in the same way whatever `b` is. -/
theorem scan_joined_texts (a b : String) (line : Int) :
    (∀ ta, scan a line = .ok ta → ∃ body stop, ta = body ++ [stop] ∧ stop.kind = .eof ∧
      (∀ t ∈ body, t.kind ≠ .eof) ∧
      scan (a ++ "\n" ++ b) line = match scan b (line + a.toList.count '\n' + 1) with
        | .ok tb => .ok (body ++ tb)
        | .error f => .error ⟨body ++ f.before, f.error⟩) ∧
    ∀ f c, scan a line = .error f → f.error.cause = .unexpectedCharacter c →
      scan (a ++ "\n" ++ b) line = .error f := by
  refine ⟨fun ta hscan => ?_, fun f c hscan hcause => ?_⟩
  · obtain ⟨body, stop, rfl, hbody, hstop⟩ := exists_of_scan hscan
    refine ⟨body, stop, rfl, hstop, hbody, ?_⟩
    rw [scan_append_newline hscan, List.dropLast_concat]
    rfl
  · rw [scan, toList_append_newline]
    exact scanChars_append_of_unexpectedCharacter hscan hcause b.toList

/-- Behind the comment in `!//=`, the line `=@` is scanned as on its own: its equals sign does not
belong to the exclamation mark, and its second character is an error. In front of any other line,
that error stays the same. -/
theorem scan_joined_texts_comment :
    let bang : Token := ⟨.bang, "!", .nil, 1, some 0⟩
    let f (line : Int) : ScanFailure :=
      ⟨[⟨.equal, "=", .nil, line, some 0⟩], ⟨.unexpectedCharacter '@', line, "@", 1⟩⟩
    scan "!//=" 1 = .ok [bang, ⟨.eof, "", .nil, 1, some 4⟩] ∧
      scan "=@" (1 + "!//=".toList.count '\n' + 1) = .error (f 2) ∧
      scan ("!//=" ++ "\n" ++ "=@") 1 = .error ⟨bang :: (f 2).before, (f 2).error⟩ ∧
      scan "=@" 1 = .error (f 1) ∧ (f 1).error.cause = .unexpectedCharacter '@' ∧
      scan ("=@" ++ "\n" ++ "!//=") 1 = .error (f 1) := by
  intro bang f
  have hscana : scan "!//=" 1 = .ok ([bang] ++ [⟨.eof, "", .nil, 1, some 4⟩]) := by cbv
  have hscanb : scan "=@" (1 + "!//=".toList.count '\n' + 1) = .error (f 2) := by cbv
  have hfails : scan "=@" 1 = .error (f 1) := by cbv
  obtain ⟨hjoins, -⟩ := scan_joined_texts "!//=" "=@" 1
  obtain ⟨-, hstays⟩ := scan_joined_texts "=@" "!//=" 1
  obtain ⟨body, stop, htokens, -, -, hjoined⟩ := hjoins _ hscana
  obtain ⟨rfl, -⟩ := List.append_inj' htokens rfl
  rw [hscanb] at hjoined
  exact ⟨hscana, hscanb, hjoined, hfails, rfl, hstays _ _ hfails rfl⟩

end Lox
