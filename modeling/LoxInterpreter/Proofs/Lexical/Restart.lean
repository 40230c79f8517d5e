import LoxInterpreter.Proofs.Lexical.ScannerCorrect

/-!
The scanner restarts at a newline. A text that is cut completely is cut in the same way in front
of a newline, since no piece goes on over it, and what follows is scanned as a text of its own
that begins one line further down.
-/

namespace Lox

namespace Lexical

open Scan

variable {c : Char} {cs : List Char} {p : Piece}

/-! ### Pieces in front of a newline -/

theorem takeWhile_append_newline {p : Char → Bool} (hp : p '\n' = false) (cs more : List Char) :
    (cs ++ '\n' :: more).takeWhile p = cs.takeWhile p := by
  induction cs with
  | nil => exact List.takeWhile_cons_of_neg (by simp [hp])
  | cons c cs ih =>
    rw [List.cons_append, List.takeWhile_cons, List.takeWhile_cons, ih]

theorem dropWhile_append_newline {p : Char → Bool} (hp : p '\n' = false) (cs more : List Char) :
    (cs ++ '\n' :: more).dropWhile p = cs.dropWhile p ++ '\n' :: more := by
  induction cs with
  | nil => exact List.dropWhile_cons_of_neg (by simp [hp])
  | cons c cs ih =>
    rw [List.cons_append, List.dropWhile_cons, List.dropWhile_cons, ih]
    split <;> rfl

theorem fraction_append_newline (cs more : List Char) :
    fraction (cs ++ '\n' :: more) = fraction cs := by
  match cs with
  | [] => rfl
  | c :: cs =>
    by_cases hc : c = '.'
    · subst hc
      rw [List.cons_append, fraction, fraction, takeWhile_append_newline rfl]
    · have hnone : ∀ ds, fraction (c :: ds) = [] := fun ds => by
        rw [fraction]
        exact fun _ h => hc (List.cons.inj h).1
      rw [List.cons_append, hnone, hnone]

theorem numberTail_append_newline (cs more : List Char) :
    numberTail (cs ++ '\n' :: more) = numberTail cs := by
  rw [numberTail, numberTail, takeWhile_append_newline rfl, dropWhile_append_newline rfl,
    fraction_append_newline]

/-- A closed comment stays closed at the same place, whatever follows. -/
theorem commentBody_of_append {body : List Char} (h : commentBody cs = some body)
    (more : List Char) : commentBody (cs ++ more) = some body := by
  obtain ⟨rest, rfl⟩ := commentBody_isPrefix h
  obtain ⟨inner, rfl, hinner⟩ := exists_of_commentBody h
  rw [List.append_assoc, commentBody_append hinner]

theorem front_double_append_newline {alone withEqual : Kind}
    (hdouble : double? c = some (alone, withEqual)) (h : front c cs = .ok p)
    (more : List Char) : front c (cs ++ '\n' :: more) = .ok p := by
  rw [front_double hdouble] at h ⊢
  cases cs with
  | nil => exact h
  | cons d cs =>
    rw [List.cons_append]
    split at h
    next heq =>
      cases heq
      exact h
    next hne =>
      split
      next heq =>
        cases heq
        exact (hne cs rfl).elim
      next => exact h

theorem front_slash_append_newline (h : front '/' cs = .ok p) (more : List Char) :
    front '/' (cs ++ '\n' :: more) = .ok p := by
  cases cs with
  | nil => exact h
  | cons d cs =>
    rw [List.cons_append]
    by_cases hcomment : d = '/'
    · subst hcomment
      rw [front_slash] at h ⊢
      simp only [takeWhile_append_newline (p := (· != '\n')) rfl]
      exact h
    by_cases hblock : d = '*'
    · subst hblock
      rw [front_opening] at h ⊢
      split at h
      next body hbody =>
        rw [commentBody_of_append hbody]
        exact h
      next => cases h
    · have hfront : ∀ rest, front '/' (d :: rest) = .ok ⟨'/', [], .lexeme .slash .nil⟩ := by
        intro rest
        rw [front_slash]
        split
        next heq => exact (hcomment (List.cons.inj heq).1).elim
        next heq => exact (hblock (List.cons.inj heq).1).elim
        next => rfl
      rwa [hfront] at h ⊢

theorem front_quote_append (h : front '"' cs = .ok p) (more : List Char) :
    front '"' (cs ++ more) = .ok p := by
  rw [front_quote] at h ⊢
  split at h
  next hlength =>
    have htake : (cs ++ more).takeWhile (· != '"') = cs.takeWhile (· != '"') := by
      rw [List.takeWhile_append, if_neg (Nat.ne_of_lt hlength)]
    have hlength' : (cs.takeWhile (· != '"')).length < (cs ++ more).length := by
      rw [List.length_append]
      omega
    rw [htake, if_pos hlength']
    exact h
  next => cases h

/-- No piece changes when a newline follows the text. -/
theorem front_append_newline (h : front c cs = .ok p) (more : List Char) :
    front c (cs ++ '\n' :: more) = .ok p := by
  cases hspace : isSpace c || c == '\n' with
  | true => rwa [front_space hspace] at h ⊢
  | false =>
  cases hword : isWordCharacter c with
  | true =>
    rw [front_of_isWordCharacter hword] at h ⊢
    rwa [numberTail_append_newline, takeWhile_append_newline rfl]
  | false =>
  cases hsingle : single? c with
  | some kind => rwa [front_single hsingle] at h ⊢
  | none =>
  cases hdouble : double? c with
  | some kinds => exact front_double_append_newline hdouble h more
  | none =>
  by_cases hslash : c = '/'
  · subst hslash
    exact front_slash_append_newline h more
  by_cases hquote : c = '"'
  · subst hquote
    exact front_quote_append h ('\n' :: more)
  · rw [front_other hspace hsingle hdouble hslash hquote hword] at h
    cases h

/-! ### Cuts in front of a newline -/

def newline : Piece := ⟨'\n', [], .blank⟩

/-- What is cut off a text is also cut off in front of a newline. -/
theorem pieces_of_cut_append {text rest : List Char} {ps : List Piece} (h : Cut text ps rest)
    (more : List Char) : pieces (text ++ '\n' :: more) =
      (ps ++ (pieces (rest ++ '\n' :: more)).1, (pieces (rest ++ '\n' :: more)).2) := by
  induction h with
  | done => rfl
  | @more p text rest ps hlongest _ ih =>
    have hfront := front_append_newline (front_of_longest hlongest) more
    rw [List.append_assoc] at hfront ⊢
    rw [pieces_text_append p _ hfront, ih]
    rfl

/-- A complete cut goes on behind a newline. -/
theorem pieces_append_newline {text : List Char} {ps : List Piece}
    (h : pieces text = (ps, .complete)) (more : List Char) :
    pieces (text ++ '\n' :: more) = (ps ++ newline :: (pieces more).1, (pieces more).2) := by
  have hcut : Cut text ps [] := (cut_of_pieces h).1
  have hnewline : pieces ('\n' :: more) = (newline :: (pieces more).1, (pieces more).2) :=
    pieces_text_append newline more rfl
  rw [pieces_of_cut_append hcut, List.nil_append, hnewline]

/-! ### Tokens in front of a newline -/

theorem line_next (place : Place) (c : Char) :
    (place.next c).line = place.line + [c].count '\n' := by
  unfold Place.next
  split
  next hc => simp [hc]
  next hc => simp [hc]

/-- The line of a place counts the newlines before it. -/
theorem line_after (place : Place) (text : List Char) :
    (place.after text).line = place.line + text.count '\n' := by
  induction text generalizing place with
  | nil => simp
  | cons c cs ih =>
    rw [Place.after_cons, ih, line_next, List.count_cons (l := cs), List.count_singleton]
    push_cast
    omega

theorem tokensAt_append (start : Place) (ps qs : List Piece) :
    tokensAt start (ps ++ qs) = tokensAt start ps ++ tokensAt (start.after (textOf ps)) qs := by
  induction ps generalizing start with
  | nil => rfl
  | cons p ps ih =>
    have htext : textOf (p :: ps) = p.text ++ textOf ps := rfl
    rw [List.cons_append, tokensAt, tokensAt, ih, htext, Place.after_append]
    split <;> rfl

def prepend (ts : List Token) : Except ScanFailure (List Token) → Except ScanFailure (List Token)
  | .ok us => .ok (ts ++ us)
  | .error f => .error ⟨ts ++ f.before, f.error⟩

/-- A scan that succeeds is a complete cut. -/
theorem exists_pieces_of_scanChars {text : List Char} {line : Int} {ts : List Token}
    (h : scanChars text line = .ok ts) :
    ∃ ps stop, pieces text = (ps, .complete) ∧ ts = tokensAt ⟨line, 0⟩ ps ++ [stop] ∧
      stop.kind = .eof := by
  unfold scanChars at h
  cases hpieces : pieces text with
  | mk ps ending =>
    rw [hpieces] at h
    cases ending with
    | complete =>
      cases h
      exact ⟨ps, _, rfl, rfl, rfl⟩
    | stuck cause rest => cases h

/-- The place behind a text and a newline is the beginning of a line. -/
theorem after_newline (line : Int) (text : List Char) :
    (Place.after ⟨line, 0⟩ text).next '\n' = ⟨line + text.count '\n' + 1, 0⟩ := by
  rw [Place.next, if_pos rfl, line_after]

/-- Behind a newline, the scanner goes on as if a text of its own began on the next line. -/
theorem scanChars_append_newline {text : List Char} {line : Int} {ts : List Token}
    (h : scanChars text line = .ok ts) (more : List Char) :
    scanChars (text ++ '\n' :: more) line =
      prepend ts.dropLast (scanChars more (line + text.count '\n' + 1)) := by
  obtain ⟨ps, stop, hps, rfl, -⟩ := exists_pieces_of_scanChars h
  have htext : textOf ps = text := by
    have hall := textOf_pieces text
    rwa [hps, Ending.rest, List.append_nil] at hall
  have htokens : ∀ qs, tokensAt ⟨line, 0⟩ (ps ++ newline :: qs) =
      tokensAt ⟨line, 0⟩ ps ++ tokensAt ⟨line + text.count '\n' + 1, 0⟩ qs := by
    intro qs
    rw [tokensAt_append, htext, ← after_newline]
    rfl
  have hplace : ∀ qs, Place.after ⟨line, 0⟩ (textOf (ps ++ newline :: qs)) =
      Place.after ⟨line + text.count '\n' + 1, 0⟩ (textOf qs) := by
    intro qs
    have happend : textOf (ps ++ newline :: qs) = text ++ '\n' :: textOf qs := by
      rw [← htext]
      exact List.flatMap_append
    rw [happend, Place.after_append, Place.after_cons, after_newline]
  rw [List.dropLast_concat]
  unfold scanChars
  rw [pieces_append_newline hps]
  cases hmore : pieces more with
  | mk qs ending =>
    dsimp only
    rw [htokens, hplace]
    cases ending with
    | complete => exact congrArg Except.ok (List.append_assoc _ _ _)
    | stuck cause rest => rfl

theorem toList_append_newline (a b : String) :
    (a ++ "\n" ++ b).toList = a.toList ++ '\n' :: b.toList := by
  simp [String.toList_append]

theorem scan_append_newline {a b : String} {line : Int} {ts : List Token}
    (h : scan a line = .ok ts) :
    scan (a ++ "\n" ++ b) line =
      prepend ts.dropLast (scan b (line + a.toList.count '\n' + 1)) := by
  rw [scan, toList_append_newline]
  exact scanChars_append_newline h b.toList

/-! ### The end of the text -/

theorem kind_ne_eof_of_isPiece {text : List Char} {kind : Kind} {literal : Literal}
    (h : IsPiece text (.lexeme kind literal)) : kind ≠ .eof := by
  cases h with
  | mark hmark =>
    have hne : ∀ m ∈ marks, m.2 ≠ .eof := by decide
    exact hne _ hmark
  | _ => simp

theorem isPiece_of_cut {text rest : List Char} {ps : List Piece} (h : Cut text ps rest) :
    ∀ p ∈ ps, IsPiece p.text p.role := by
  induction h with
  | done => simp
  | more hlongest _ ih =>
    intro p hp
    rcases List.mem_cons.1 hp with rfl | hp
    · exact hlongest.allowed.isPiece
    · exact ih p hp

theorem kind_ne_eof_of_mem_tokensAt {ps : List Piece} (hps : ∀ p ∈ ps, IsPiece p.text p.role)
    (start : Place) : ∀ t ∈ tokensAt start ps, t.kind ≠ .eof := by
  induction ps generalizing start with
  | nil => simp [tokensAt]
  | cons p ps ih =>
    have hp := hps p List.mem_cons_self
    have hrest := ih fun q hq => hps q (List.mem_cons_of_mem p hq)
    rw [tokensAt]
    split
    next => exact hrest _
    next kind literal hrole =>
      rw [hrole] at hp
      intro t ht
      rcases List.mem_cons.1 ht with rfl | ht
      · exact kind_ne_eof_of_isPiece hp
      · exact hrest _ t ht

/-- The last token of a scan is its only end of text. -/
theorem exists_of_scan {source : String} {line : Int} {ts : List Token}
    (h : scan source line = .ok ts) :
    ∃ body stop, ts = body ++ [stop] ∧ (∀ t ∈ body, t.kind ≠ .eof) ∧ stop.kind = .eof := by
  obtain ⟨ps, stop, hps, rfl, hstop⟩ := exists_pieces_of_scanChars h
  have hpieces := isPiece_of_cut (cut_of_pieces hps).1
  exact ⟨_, stop, rfl, kind_ne_eof_of_mem_tokensAt hpieces _, hstop⟩

end Lexical

end Lox
