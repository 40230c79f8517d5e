import LoxInterpreter.Proofs.Lexical.Restart
import Mathlib.Data.List.Induction

/-!
Where tokens stand. A token is a slice of the text, from one offset to another. Its column counts
from the beginning of the line that it starts on, and its line is the one that it ends on. For an
error it is the same, but its line is the one up to which the text has been read by then.
-/

namespace Lox

def slice (text : List Char) (start stop : Nat) : List Char := (text.take stop).drop start

/-- The offset behind the last newline before an offset, or 0 if there is none. -/
def lineStart (text : List Char) (offset : Nat) : Nat :=
  ((text.take offset).reverse.dropWhile (· != '\n')).length

/-- The token is the slice of the text between the two offsets, and its place says so. -/
structure StandsAt (text : List Char) (first : Int) (t : Token) (start stop : Nat) : Prop where
  start_le : start ≤ stop
  stop_le : stop ≤ text.length
  lexeme : t.lexeme = String.ofList (slice text start stop)
  column : t.column = some (start - lineStart text start)
  line : t.line = first + (text.take stop).count '\n'

theorem StandsAt.lexeme_eq_empty {text : List Char} {first : Int} {t : Token} {offset : Nat}
    (h : StandsAt text first t offset offset) : t.lexeme = "" := by
  rw [h.lexeme, slice, List.drop_take, Nat.sub_self, List.take_zero, String.ofList_nil]

/-- Between two offsets, tokens that are not empty stand one behind the other. -/
inductive Laid (text : List Char) (first : Int) : Nat → List Token → Nat → Prop
  | nil {o o' : Nat} (h : o ≤ o') : Laid text first o [] o'
  | cons {o start stop o' : Nat} {t : Token} {ts : List Token} (hstart : o ≤ start)
      (hlt : start < stop) (ht : StandsAt text first t start stop)
      (hts : Laid text first stop ts o') : Laid text first o (t :: ts) o'

/-- A token among others stands behind those before it. -/
theorem Laid.exists_of_append {text : List Char} {first : Int} {before after : List Token}
    {t : Token} {o o' : Nat} (h : Laid text first o (before ++ t :: after) o') :
    ∃ start stop, Laid text first o before start ∧ StandsAt text first t start stop ∧
      start < stop := by
  induction before generalizing o with
  | nil =>
    cases h with
    | cons hstart hlt ht _ => exact ⟨_, _, .nil hstart, ht, hlt⟩
  | cons u before ih =>
    cases h with
    | cons hstart hlt hu hts =>
      obtain ⟨start, stop, hbefore, ht, hlt'⟩ := ih hts
      exact ⟨start, stop, .cons hstart hlt hu hbefore, ht, hlt'⟩

theorem Laid.mono {text : List Char} {first : Int} {o o₁ o' : Nat} {ts : List Token}
    (h : Laid text first o₁ ts o') (hle : o ≤ o₁) : Laid text first o ts o' := by
  cases h with
  | nil h => exact .nil (Nat.le_trans hle h)
  | cons hstart hlt ht hts => exact .cons (Nat.le_trans hle hstart) hlt ht hts

/-- How much of a text has been read when the scanner fails over what stands at an offset: the
whole of it if something is not closed. -/
def readBy (text : List Char) (start : Nat) : ScanCause → Nat
  | .unexpectedCharacter _ => start + 1
  | .unterminatedString | .unterminatedComment => text.length

structure FailsAt (text : List Char) (first : Int) (e : ScanError) (start : Nat) : Prop where
  lexeme : ∃ stop, start < stop ∧ stop ≤ text.length ∧
    e.lexeme = String.ofList (slice text start stop)
  column : e.column = start - lineStart text start
  line : e.line = first + (text.take (readBy text start e.cause)).count '\n'

namespace Lexical

open Scan

variable {text front rest : List Char} {first : Int}

/-! ### Places -/

theorem slice_append (front middle rest : List Char) :
    slice (front ++ middle ++ rest) front.length (front ++ middle).length = middle := by
  rw [slice, List.take_left, List.drop_left]

theorem lineStart_append (front rest : List Char) :
    lineStart (front ++ rest) front.length = (front.reverse.dropWhile (· != '\n')).length := by
  rw [lineStart, List.take_left]

/-- The column of a place counts from the beginning of its line. -/
theorem column_after (first : Int) (front rest : List Char) :
    (Place.after ⟨first, 0⟩ front).column =
      front.length - lineStart (front ++ rest) front.length := by
  rw [lineStart_append]
  induction front using List.reverseRecOn with
  | nil => rfl
  | append_singleton front c ih =>
    have hle := (List.dropWhile_suffix (l := front.reverse) (· != '\n')).length_le
    rw [List.length_reverse] at hle
    rw [Place.after_append, Place.after_cons, Place.after_nil, List.reverse_concat, Place.next]
    by_cases hc : c = '\n'
    · rw [if_pos hc, List.dropWhile_cons_of_neg (by simp [hc])]
      simp
    · rw [if_neg hc, List.dropWhile_cons_of_pos (by simp [hc]), ih, List.length_append,
        List.length_singleton]
      exact (Nat.succ_sub hle).symm

theorem line_after_take (first : Int) (front rest : List Char) :
    (Place.after ⟨first, 0⟩ front).line =
      first + ((front ++ rest).take front.length).count '\n' := by
  rw [line_after, List.take_left]

/-! ### Tokens -/

/-- What is read between two places is a token there. -/
theorem standsAt (first : Int) (front middle rest : List Char) (kind : Kind) (literal : Literal) :
    StandsAt (front ++ middle ++ rest) first
      ⟨kind, String.ofList middle, literal, (Place.after ⟨first, 0⟩ (front ++ middle)).line,
        some (Place.after ⟨first, 0⟩ front).column⟩ front.length (front ++ middle).length where
  start_le := by simp
  stop_le := by simp
  lexeme := by rw [slice_append]
  column := by rw [column_after first front (middle ++ rest), List.append_assoc]
  line := line_after_take first (front ++ middle) rest

theorem laid_tokensAt (first : Int) (front rest : List Char) (ps : List Piece) :
    Laid (front ++ (textOf ps ++ rest)) first front.length
      (tokensAt (Place.after ⟨first, 0⟩ front) ps) (front ++ textOf ps).length := by
  induction ps generalizing front with
  | nil => exact .nil (by simp)
  | cons p ps ih =>
    have htext : textOf (p :: ps) = p.text ++ textOf ps := rfl
    have hlt : front.length < (front ++ p.text).length := by simp [Piece.text]
    have hrest := ih (front ++ p.text)
    have hstands := standsAt first front p.text (textOf ps ++ rest)
    rw [Place.after_append] at hrest hstands
    simp only [htext, List.append_assoc] at hrest hstands ⊢
    rw [tokensAt]
    cases p.role with
    | blank => exact hrest.mono (by simp)
    | lexeme kind literal =>
      exact .cons (Nat.le_refl _) (by simpa using hlt) (hstands kind literal) hrest

/-! ### Errors -/

theorem failsAt {cause : ScanCause} {lexeme : String} (first : Int) (front : List Char)
    (h : Stuck rest cause lexeme) :
    FailsAt (front ++ rest) first (ScanError.ofStuck cause rest (Place.after ⟨first, 0⟩ front))
      front.length := by
  have hend : (Place.after (Place.after ⟨first, 0⟩ front) rest).line =
      first + ((front ++ rest).take (front ++ rest).length).count '\n' := by
    rw [← Place.after_append, line_after, List.take_length]
  cases h.obstacle with
  | @string cs =>
    refine ⟨⟨(front ++ '"' :: cs).length, by simp, Nat.le_refl _, ?_⟩, column_after _ _ _, hend⟩
    have hslice := slice_append front ('"' :: cs) []
    rw [List.append_nil] at hslice
    rw [hslice]
    rfl
  | @comment cs =>
    have hslice := slice_append front ['/', '*'] cs
    rw [List.append_assoc] at hslice
    refine ⟨⟨(front ++ ['/', '*']).length, by simp, by simp, ?_⟩, column_after _ _ _, hend⟩
    exact congrArg String.ofList hslice.symm
  | @character c cs hquote hslash =>
    have hslice := slice_append front [c] cs
    rw [List.append_assoc] at hslice
    have hnewline : c ≠ '\n' := by
      rintro rfl
      cases (front_of_stuck h).symm.trans (front_space rfl cs)
    refine ⟨⟨(front ++ [c]).length, by simp, by simp, ?_⟩, column_after _ _ _, ?_⟩
    · rw [List.singleton_append] at hslice
      rw [hslice]
      rfl
    · have hline := line_after_take first (front ++ [c]) cs
      rw [Place.after_append, Place.after_cons, Place.next, if_neg hnewline, List.append_assoc,
        List.length_append] at hline
      exact hline

/-! ### Scans -/

variable {source : String}

/-- The tokens of a scan stand one behind the other, and the end of the text behind them. -/
theorem laid_of_scan {tokens : List Token} (h : scan source first = .ok tokens) :
    ∃ body stop, tokens = body ++ [stop] ∧ stop.kind = .eof ∧
      Laid source.toList first 0 body source.toList.length ∧
      StandsAt source.toList first stop source.toList.length source.toList.length := by
  unfold scan scanChars at h
  generalize source.toList = text at h ⊢
  have htext := textOf_pieces text
  cases hpieces : pieces text with
  | mk ps ending =>
    rw [hpieces] at h htext
    cases ending with
    | stuck cause rest => cases h
    | complete =>
      cases h
      have hlaid := laid_tokensAt first [] [] ps
      have hstands := standsAt first (textOf ps) [] [] .eof .nil
      rw [Ending.rest, List.append_nil] at htext
      rw [List.append_nil, List.append_nil] at hstands
      rw [List.nil_append, List.nil_append, List.append_nil] at hlaid
      subst htext
      exact ⟨_, _, rfl, rfl, hlaid, hstands⟩

/-- A scan that fails got stuck somewhere, behind the tokens before. -/
theorem exists_of_scan_error {f : ScanFailure} (h : scan source first = .error f) :
    ∃ front rest cause lexeme, source.toList = front ++ rest ∧ Stuck rest cause lexeme ∧
      f.error = .ofStuck cause rest (Place.after ⟨first, 0⟩ front) ∧
      Laid source.toList first 0 f.before front.length ∧
      FailsAt source.toList first f.error front.length := by
  unfold scan scanChars at h
  generalize source.toList = text at h ⊢
  have htext := textOf_pieces text
  cases hpieces : pieces text with
  | mk ps ending =>
    rw [hpieces] at h htext
    cases ending with
    | complete => cases h
    | stuck cause rest =>
      cases h
      obtain ⟨lexeme, hstuck⟩ := (cut_of_pieces hpieces).2
      have hlaid := laid_tokensAt first [] rest ps
      rw [List.nil_append, List.nil_append] at hlaid
      subst htext
      exact ⟨textOf ps, rest, cause, lexeme, rfl, hstuck, rfl, hlaid, failsAt first _ hstuck⟩

/-- A token of a scan that is not empty stands behind the tokens before it. -/
theorem exists_place_of_scan {before after : List Token} {t : Token}
    (h : scan source first = .ok (before ++ t :: after)) (hne : t.lexeme ≠ "") :
    ∃ start stop, Laid source.toList first 0 before start ∧
      StandsAt source.toList first t start stop ∧ start < stop := by
  obtain ⟨body, stop, htokens, -, hlaid, hstop⟩ := laid_of_scan h
  rcases List.eq_nil_or_concat after with rfl | ⟨inner, last, rfl⟩
  · obtain ⟨-, heq⟩ := List.append_inj' htokens rfl
    rw [← List.singleton_inj.1 heq] at hstop
    exact absurd hstop.lexeme_eq_empty hne
  · rw [List.concat_eq_append, ← List.cons_append, ← List.append_assoc] at htokens
    obtain ⟨rfl, -⟩ := List.append_inj' htokens rfl
    exact hlaid.exists_of_append

end Lexical

open Lexical

/-- Each token of a scan is a slice of the source. Its column counts from the beginning of the line
that it starts on, its line is the first one and the newlines up to its end, and it stands behind
the tokens before it. The end of the text is the empty slice behind all characters. If the scan
fails, then over what stands at some offset behind the tokens before. The column of the error counts
in the same way, and its line is the first one and the newlines that have been read, which are all
of them if a string or a comment is not closed. -/
theorem scan_places (source : String) (first : Int) :
    (∀ tokens, scan source first = .ok tokens → ∃ body stop, tokens = body ++ [stop] ∧
      stop.kind = .eof ∧ Laid source.toList first 0 body source.toList.length ∧
      StandsAt source.toList first stop source.toList.length source.toList.length) ∧
    ∀ f, scan source first = .error f → ∃ start, Laid source.toList first 0 f.before start ∧
      FailsAt source.toList first f.error start := by
  refine ⟨fun tokens h => laid_of_scan h, fun f h => ?_⟩
  obtain ⟨front, -, -, -, -, -, -, hlaid, hfails⟩ := exists_of_scan_error h
  exact ⟨front.length, hlaid, hfails⟩

/-- The string in `"a↵" b` starts on the first line and ends on the second one, where the name
counts its column. A string that is not closed is noticed on the last line. -/
theorem scan_places_string :
    let string : Token := ⟨.string, "\"a\n\"", .string "a\n", 2, some 0⟩
    let name : Token := ⟨.identifier, "b", .nil, 2, some 2⟩
    let stop : Token := ⟨.eof, "", .nil, 2, some 3⟩
    let error : ScanError := ⟨.unterminatedString, 3, "\"\n", 0⟩
    scan "\"a\n\" b" 1 = .ok [string, name, stop] ∧
      Laid "\"a\n\" b".toList 1 0 [string, name] 6 ∧ StandsAt "\"a\n\" b".toList 1 stop 6 6 ∧
      scan "\n\"\n" 1 = .error ⟨[], error⟩ ∧ ∃ start, FailsAt "\n\"\n".toList 1 error start := by
  intro string name stop error
  have hscan : scan "\"a\n\" b" 1 = .ok ([string, name] ++ [stop]) := by cbv
  have hfails : scan "\n\"\n" 1 = .error ⟨[], error⟩ := by cbv
  obtain ⟨hok, -⟩ := scan_places "\"a\n\" b" 1
  obtain ⟨-, herror⟩ := scan_places "\n\"\n" 1
  obtain ⟨body, stop', htokens, -, hlaid, hstands⟩ := hok _ hscan
  obtain ⟨rfl, hstop⟩ := List.append_inj' htokens rfl
  obtain ⟨start, -, hstart⟩ := herror _ hfails
  rw [← List.singleton_inj.1 hstop] at hstands
  exact ⟨hscan, hlaid, hstands, hfails, start, hstart⟩

end Lox
