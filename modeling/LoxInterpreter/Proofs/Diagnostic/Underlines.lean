import LoxInterpreter.Machine
import LoxInterpreter.Proofs.Diagnostic.Excerpts
import LoxInterpreter.Tree.Parse

/-!
Errors about what stands on a single line: an unexpected character, or a token without newlines. The
column of such an error is the place of its text in the line that is shown, so that just this
occurrence is underlined.
-/

namespace Lox

open Text (Style)

variable {text : List Char} {first : Int} {t : Token} {e : ScanError} {start stop : Nat}

/-- An error about a token is on the line that the token ends on. -/
theorem StandsAt.isOn (h : StandsAt text first t start stop) (phase : Phase) (message : String) :
    (Diagnostic.atToken phase t message).IsOn text first (start - lineStart text start) stop where
  internal := rfl
  line := congrArg some h.line
  column := congrArg (Option.map Int.ofNat) h.column
  offset_le := h.stop_le

/-- An error of the scanner is on the line up to which the text was read. -/
theorem FailsAt.isOn (h : FailsAt text first e start) :
    e.toDiagnostic.IsOn text first (start - lineStart text start) (readBy text start e.cause) where
  internal := rfl
  line := congrArg some h.line
  column := congrArg (fun n : Nat => some (n : Int)) h.column
  offset_le := by
    obtain ⟨stop, hlt, hle, -⟩ := h.lexeme
    cases e.cause with
    | unexpectedCharacter c => exact Nat.le_trans hlt hle
    | unterminatedString | unterminatedComment => exact Nat.le_refl _

namespace Diagnostic

theorem target_of_not_mem {d : Diagnostic} (h : '\n' ∉ d.lexeme.toList) :
    d.target = d.lexeme.toList :=
  List.takeWhile_eq_self_iff.2 fun _ hc => bne_iff_ne.2 (ne_of_mem_of_not_mem hc h)

end Diagnostic

namespace Reporter

variable {r : Reporter} {path source : String} {d : Diagnostic} {style : Style}

/-- Below the message comes the line of an offset, in which the characters from there up to another
one are underlined. -/
def Underlines (r : Reporter) (style : Style) (d : Diagnostic) (text : List Char)
    (start stop : Nat) : Prop :=
  r.Shows style d (Diagnostic.underlined style (slice text (lineStart text start) start)
    (slice text start stop) (slice text stop (lineEnd text start)) ++ "\n")

/-- What stands at the column of an error is underlined there. -/
theorem ShowsOn.underlines
    (h : r.ShowsOn style d (lineAt text start) (start - lineStart text start))
    (htarget : d.target = slice text start stop) (hle : start ≤ stop)
    (hstop : stop ≤ text.length) (hline : '\n' ∉ slice text start stop) :
    r.Underlines style d text start stop := by
  have hend : stop ≤ lineEnd text start :=
    lineEnd_eq_of_not_mem hle hstop hline ▸ le_lineEnd text stop
  have hbefore : (lineAt text start).take (start - lineStart text start) =
      slice text (lineStart text start) start := take_slice text _ (le_lineEnd text start)
  have hrest : (lineAt text start).drop (start - lineStart text start) =
      slice text start (lineEnd text start) := drop_slice text (lineStart_le text start) _
  have hlength : d.target.length = stop - start := by
    rw [htarget, slice, List.length_drop, List.length_take, Nat.min_eq_left hstop]
  have hoccurs : d.target <+: (lineAt text start).drop (start - lineStart text start) := by
    rw [hrest, htarget, ← take_slice text start hend]
    exact List.take_prefix _ _
  have hshows := h.atColumn hoccurs
  rwa [Diagnostic.underlinedAt, hbefore, ← List.drop_drop, hrest, hlength, drop_slice text hle,
    htarget] at hshows

/-- An error at a place without newlines, with the text there as its own. -/
theorem underlines (hlast : r.sources.head? = some (.ofText path source first))
    (hlines : NewlinesOnly source.toList)
    (hd : d.IsOn source.toList first (start - lineStart source.toList start) stop)
    (hlexeme : d.lexeme.toList = slice source.toList start stop) (hlt : start < stop)
    (hline : '\n' ∉ slice source.toList start stop) (style : Style) :
    r.Underlines style d source.toList start stop := by
  have htarget : d.target = slice source.toList start stop := by
    rw [← hlexeme] at hline ⊢
    exact Diagnostic.target_of_not_mem hline
  have hne : d.target ≠ [] := by
    rw [htarget, slice, ← List.length_pos_iff, List.length_drop, List.length_take,
      Nat.min_eq_left hd.offset_le]
    exact Nat.sub_pos_of_lt hlt
  -- The line is looked up for the end of the text, and is the one on which the text begins.
  have hshows := showsOn hlast hlines hd hne style
  rw [lineAt_eq_of_not_mem hlt.le hd.offset_le hline] at hshows
  exact hshows.underlines htarget hlt.le hd.offset_le hline

end Reporter

namespace Lexical

open Scan

/-- An unexpected character stands where the scanner got stuck, and ends no line. -/
theorem exists_of_unexpectedCharacter {source : String} {f : ScanFailure} {c : Char}
    (h : scan source first = .error f) (hcause : f.error.cause = .unexpectedCharacter c) :
    ∃ start, Laid source.toList first 0 f.before start ∧
      FailsAt source.toList first f.error start ∧ f.error.lexeme.toList = [c] ∧
      slice source.toList start (start + 1) = [c] ∧ c ≠ '\n' := by
  obtain ⟨front, rest, cause, lexeme, htext, hstuck, herror, hlaid, hfails⟩ :=
    exists_of_scan_error h
  obtain ⟨hcause', hlexeme⟩ := ofStuck_eq (Place.after ⟨first, 0⟩ front) hstuck.obstacle
  rw [← herror] at hcause' hlexeme
  rw [hcause] at hcause'
  subst hcause'
  refine ⟨front.length, hlaid, hfails, ?_⟩
  cases hstuck.obstacle with
  | @character _ cs hquote hslash =>
    refine ⟨?_, ?_, ?_⟩
    · rw [hlexeme]
      exact String.toList_ofList
    · have hslice := slice_append front [c] cs
      rw [List.append_assoc, List.singleton_append, List.length_append] at hslice
      rw [htext]
      exact hslice
    · rintro rfl
      cases (front_of_stuck hstuck).symm.trans (front_space rfl cs)

end Lexical

/-- If only newlines end the lines of the source that was registered last, then an error about an
unexpected character in it, or at a token that is not empty and has no newline, is shown with the
line that the character or the token is on. In this line just the character or the token is
underlined, and no other occurrence of the same text. -/
theorem report_underlines {r : Reporter} {path source : String} {first : Int}
    (hlast : r.sources.head? = some (.ofText path source first))
    (hlines : NewlinesOnly source.toList) (style : Style) :
    (∀ f c, scan source first = .error f → f.error.cause = .unexpectedCharacter c →
      ∃ start, Laid source.toList first 0 f.before start ∧
        FailsAt source.toList first f.error start ∧
        slice source.toList start (start + 1) = [c] ∧
        r.Underlines style f.error.toDiagnostic source.toList start (start + 1)) ∧
    ∀ before t after, scan source first = .ok (before ++ t :: after) →
      t.lexeme ≠ "" → '\n' ∉ t.lexeme.toList →
      ∃ start stop, Laid source.toList first 0 before start ∧
        StandsAt source.toList first t start stop ∧
        (∀ cause, r.Underlines style (SyntaxError.toDiagnostic ⟨t, cause⟩) source.toList start
          stop) ∧
        ∀ cause, r.Underlines style (RuntimeError.toDiagnostic ⟨t, cause⟩) source.toList start
          stop := by
  refine ⟨fun f c hscan hcause => ?_, fun before t after hscan hne hnewline => ?_⟩
  · obtain ⟨start, hlaid, hfails, hlexeme, hslice, hc⟩ :=
      Lexical.exists_of_unexpectedCharacter hscan hcause
    have hon := hfails.isOn
    rw [hcause] at hon
    have hline : '\n' ∉ slice source.toList start (start + 1) := by
      rw [hslice, List.mem_singleton]
      exact hc.symm
    exact ⟨start, hlaid, hfails, hslice, Reporter.underlines hlast hlines hon
      (hlexeme.trans hslice.symm) (Nat.lt_succ_self start) hline style⟩
  · obtain ⟨start, stop, hlaid, hstands, hlt⟩ := Lexical.exists_place_of_scan hscan hne
    have hlexeme : t.lexeme.toList = slice source.toList start stop := by
      rw [hstands.lexeme, String.toList_ofList]
    have hline := hlexeme ▸ hnewline
    have hunderlines (phase : Phase) (message : String) :
        r.Underlines style (.atToken phase t message) source.toList start stop :=
      Reporter.underlines hlast hlines (hstands.isOn phase message) hlexeme hlt hline style
    exact ⟨start, stop, hlaid, hstands, fun _ => hunderlines _ _, fun _ => hunderlines _ _⟩

/-- In `b - c - d` the second minus is underlined, and in `"@" @` the character behind the
string. -/
theorem report_underlines_repeated :
    let name (lexeme : String) (column : Nat) : Token := ⟨.identifier, lexeme, .nil, 1, some column⟩
    let minus (column : Nat) : Token := ⟨.minus, "-", .nil, 1, some column⟩
    let stop : Token := ⟨.eof, "", .nil, 1, some 9⟩
    let error := RuntimeError.toDiagnostic ⟨minus 6, .operandsNotNumbers⟩
    let unexpected : ScanError := ⟨.unexpectedCharacter '@', 1, "@", 4⟩
    let reporter (source : String) : Reporter := Reporter.register {} (.ofText "a" source 1)
    scan "b - c - d" 1 =
        .ok ([name "b" 0, minus 2, name "c" 4] ++ minus 6 :: [name "d" 8, stop]) ∧
      (∃ start stop, StandsAt "b - c - d".toList 1 (minus 6) start stop ∧
        (reporter "b - c - d").Underlines .plain error "b - c - d".toList start stop) ∧
      (reporter "b - c - d").Shows .plain error "  b - c - d\n        ^\n" ∧
      scan "\"@\" @" 1 = .error ⟨[⟨.string, "\"@\"", .string "@", 1, some 0⟩], unexpected⟩ ∧
      ∃ start, FailsAt "\"@\" @".toList 1 unexpected start ∧
        (reporter "\"@\" @").Underlines .plain unexpected.toDiagnostic "\"@\" @".toList start
          (start + 1) := by
  intro name minus stop error unexpected reporter
  have hscan : scan "b - c - d" 1 =
      .ok ([name "b" 0, minus 2, name "c" 4] ++ minus 6 :: [name "d" 8, stop]) := by cbv
  have hfails : scan "\"@\" @" 1 =
      .error ⟨[⟨.string, "\"@\"", .string "@", 1, some 0⟩], unexpected⟩ := by cbv
  have hshows : (reporter "b - c - d").Shows .plain error "  b - c - d\n        ^\n" := by
    unfold Reporter.Shows
    decide +kernel
  obtain ⟨-, htoken⟩ := report_underlines (r := reporter "b - c - d") rfl (by decide) .plain
  obtain ⟨hcharacter, -⟩ := report_underlines (r := reporter "\"@\" @") rfl (by decide) .plain
  obtain ⟨start, stop, -, hstands, -, hruntime⟩ := htoken _ _ _ hscan (by decide) (by decide)
  obtain ⟨place, -, hplace, -, hunderlines⟩ := hcharacter _ _ hfails rfl
  exact ⟨hscan, ⟨start, stop, hstands, hruntime _⟩, hshows, hfails, place, hplace, hunderlines⟩

end Lox
