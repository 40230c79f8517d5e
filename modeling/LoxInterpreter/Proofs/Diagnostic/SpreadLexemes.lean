import LoxInterpreter.Proofs.Diagnostic.Underlines
import LoxInterpreter.Proofs.Lexical.Written

/-!
Errors about what stands on several lines: a string or a comment that is not closed, or a string
with newlines in it. The line of such an error is the one on which its text ends, but its column and
the first line of its text are those of the place where the text begins. So the beginning is looked
for in a line that it is not in, and if something else there looks like it, this is underlined.
-/

namespace Lox

open Text (Style)

variable {source : String} {first : Int}

namespace Reporter

/-- What is shown of the text between two offsets is searched for in the line on which it ends, and
this line begins only behind the first offset. -/
structure SearchesLastLine (r : Reporter) (style : Style) (d : Diagnostic) (text : List Char)
    (start stop : Nat) : Prop where
  lt_lineStart : start < lineStart text stop
  showsOn : r.ShowsOn style d (lineAt text stop) (start - lineStart text start)

end Reporter

/-- The target begins as the offending text does. -/
theorem Diagnostic.mem_target {d : Diagnostic} {c : Char} {more : List Char}
    (h : d.lexeme.toList = c :: more) (hc : c ≠ '\n') : c ∈ d.target := by
  rw [target, h]
  simp [hc]

namespace Lexical

open Scan

/-- No newline begins a lexeme. -/
theorem first_ne_newline {c : Char} {more : List Char} {kind : Kind} {literal : Literal}
    (h : IsPiece (c :: more) (.lexeme kind literal)) : c ≠ '\n' := by
  have hrest : Spaced [] := by simp [Spaced]
  have hfront := front_spaced h hrest
  rintro rfl
  cases (front_space rfl _).symm.trans hfront

theorem isLexeme_of_scan {tokens : List Token} {t : Token} (h : scan source first = .ok tokens)
    (ht : t ∈ tokens) (hne : t.lexeme ≠ "") : IsLexeme t := by
  refine isLexeme_of_kind_ne h ht fun hkind => hne ?_
  obtain ⟨body, stop, rfl, hbody, -⟩ := exists_of_scan h
  obtain ⟨_, stop', htokens, -, -, hstop⟩ := laid_of_scan h
  obtain ⟨-, heq⟩ := List.append_inj' htokens rfl
  rcases List.mem_append.1 ht with ht | ht
  · exact absurd hkind (hbody t ht)
  · rw [List.mem_singleton.1 ht, List.singleton_inj.1 heq]
    exact hstop.lexeme_eq_empty

/-- No quote follows where a string is not closed. -/
theorem not_mem_of_unterminatedString {cs : List Char} {lexeme : String}
    (h : Stuck ('"' :: cs) .unterminatedString lexeme) : '"' ∉ cs := by
  have hfront := front_of_stuck h
  rw [front_quote] at hfront
  split at hfront
  · cases hfront
  next hlength =>
    have hall : cs.takeWhile (· != '"') = cs :=
      (List.takeWhile_prefix _).eq_of_length_le (Nat.not_lt.1 hlength)
    exact fun hmem => absurd (List.takeWhile_eq_self_iff.1 hall _ hmem) (by simp)

/-- What is not closed is noticed at the end of the text. If it is a string, then its quote is the
last one. -/
theorem exists_of_unclosed {f : ScanFailure} (h : scan source first = .error f)
    (hcause : ∀ c, f.error.cause ≠ .unexpectedCharacter c) :
    ∃ start, Laid source.toList first 0 f.before start ∧
      FailsAt source.toList first f.error start ∧
      readBy source.toList start f.error.cause = source.toList.length ∧
      f.error.toDiagnostic.target ≠ [] ∧
      (f.error.cause = .unterminatedString →
        '"' ∈ f.error.toDiagnostic.target ∧ '"' ∉ source.toList.drop (start + 1)) := by
  obtain ⟨front, rest, cause, lexeme, htext, hstuck, herror, hlaid, hfails⟩ :=
    exists_of_scan_error h
  refine ⟨front.length, hlaid, hfails, ?_⟩
  cases hstuck.obstacle with
  | @string cs =>
    have hquote : '"' ∈ f.error.toDiagnostic.target := by
      rw [herror]
      exact Diagnostic.mem_target String.toList_ofList (by decide)
    have hdrop : source.toList.drop (front.length + 1) = cs := by
      rw [htext, List.drop_length_add_append]
      rfl
    refine ⟨by rw [herror]; rfl, List.ne_nil_of_mem hquote, fun _ => ⟨hquote, ?_⟩⟩
    rw [hdrop]
    exact not_mem_of_unterminatedString hstuck
  | @comment cs =>
    have hslash : '/' ∈ f.error.toDiagnostic.target := by
      rw [herror]
      exact Diagnostic.mem_target String.toList_ofList (by decide)
    refine ⟨by rw [herror]; rfl, List.ne_nil_of_mem hslash, fun h => ?_⟩
    rw [herror] at h
    cases h
  | @character c cs hquote hslash => exact absurd (congrArg ScanError.cause herror) (hcause c)

end Lexical

namespace Reporter

variable {r : Reporter} {path : String} {d : Diagnostic} {column start stop : Nat}

/-- What is searched for is not found in a line that does not have all of its characters. -/
theorem ShowsOn.nothing {style : Style} {line : List Char} (h : r.ShowsOn style d line column)
    {c : Char} (htarget : c ∈ d.target) (hline : c ∉ line) : r.Shows style d "" :=
  h.nowhere fun _ hoccurs => hline (List.mem_of_mem_drop (hoccurs.subset htarget))

theorem searchesLastLine (hlast : r.sources.head? = some (.ofText path source first))
    (hlines : NewlinesOnly source.toList)
    (hd : d.IsOn source.toList first (start - lineStart source.toList start) stop)
    (hne : d.target ≠ []) (hle : start ≤ stop) (hspread : '\n' ∈ slice source.toList start stop)
    (style : Style) : r.SearchesLastLine style d source.toList start stop where
  lt_lineStart := lt_lineStart hle hd.offset_le hspread
  showsOn := showsOn hlast hlines hd hne style

end Reporter

/-- If only newlines end the lines of the source that was registered last, then an error about what
stands on several lines, which is not closed or is a string, is shown with the line on which this
ends, if at all. That line begins only behind the place of the error, but its column there is used,
and then the first occurrence in the line, to underline what looks like the beginning. Of a string
that is not closed nothing is shown. -/
theorem report_searches_last_line {r : Reporter} {path : String}
    (hlast : r.sources.head? = some (.ofText path source first))
    (hlines : NewlinesOnly source.toList) (style : Style) :
    (∀ f, scan source first = .error f → (∀ c, f.error.cause ≠ .unexpectedCharacter c) →
      ∃ start, Laid source.toList first 0 f.before start ∧
        FailsAt source.toList first f.error start ∧
        ('\n' ∈ source.toList.drop start →
          r.SearchesLastLine style f.error.toDiagnostic source.toList start source.toList.length ∧
          (f.error.cause = .unterminatedString → r.Shows style f.error.toDiagnostic ""))) ∧
    ∀ before t after, scan source first = .ok (before ++ t :: after) → '\n' ∈ t.lexeme.toList →
      ∃ start stop, Laid source.toList first 0 before start ∧
        StandsAt source.toList first t start stop ∧
        ∀ cause, r.SearchesLastLine style (SyntaxError.toDiagnostic ⟨t, cause⟩) source.toList start
          stop := by
  refine ⟨fun f hscan hcause => ?_, fun before t after hscan hnewline => ?_⟩
  · obtain ⟨start, hlaid, hfails, hread, hne, hquote⟩ := Lexical.exists_of_unclosed hscan hcause
    refine ⟨start, hlaid, hfails, fun hspread => ?_⟩
    have hle : start ≤ source.toList.length := by
      obtain ⟨stop, hlt, hstop, -⟩ := hfails.lexeme
      exact Nat.le_trans hlt.le hstop
    have hon := hfails.isOn
    rw [hread] at hon
    rw [← slice_length] at hspread
    have hsearches := Reporter.searchesLastLine hlast hlines hon hne hle hspread style
    refine ⟨hsearches, fun hstring => ?_⟩
    -- The last line begins behind the quote that opens the string, and there is no other quote.
    obtain ⟨htarget, hnone⟩ := hquote hstring
    refine hsearches.showsOn.nothing htarget fun hmem => hnone ?_
    exact List.drop_subset_drop_left _ hsearches.lt_lineStart (slice_subset_drop _ _ _ hmem)
  · have hne : t.lexeme ≠ "" := by
      rintro hempty
      rw [hempty] at hnewline
      cases hnewline
    obtain ⟨start, stop, hlaid, hstands, hlt⟩ := Lexical.exists_place_of_scan hscan hne
    have hlexeme := Lexical.isLexeme_of_scan hscan (t := t) (by simp) hne
    obtain ⟨c, more, htext⟩ := List.exists_cons_of_ne_nil hlexeme.ne_nil
    rw [Lexical.IsLexeme, htext] at hlexeme
    have hc : c ≠ '\n' := Lexical.first_ne_newline hlexeme
    have hspread : '\n' ∈ slice source.toList start stop := by
      rwa [hstands.lexeme, String.toList_ofList] at hnewline
    exact ⟨start, stop, hlaid, hstands, fun cause => Reporter.searchesLastLine hlast hlines
      (hstands.isOn _ _) (List.ne_nil_of_mem (Diagnostic.mem_target htext hc)) hlt.le hspread style⟩

/-- In `b "c↵" "c"` the error at the first string is shown with the second one underlined, which
stands at the same column of the next line. Of the string in `"a↵b` nothing is shown. -/
theorem report_searches_last_line_strings :
    let name : Token := ⟨.identifier, "b", .nil, 1, some 0⟩
    let string : Token := ⟨.string, "\"c\n\"", .string "c\n", 2, some 2⟩
    let other : Token := ⟨.string, "\"c\"", .string "c", 2, some 2⟩
    let stop : Token := ⟨.eof, "", .nil, 2, some 5⟩
    let error := SyntaxError.toDiagnostic ⟨string, .expected .expressionEnd⟩
    let unclosed : ScanError := ⟨.unterminatedString, 2, "\"a\nb", 0⟩
    let reporter (source : String) : Reporter := Reporter.register {} (.ofText "a" source 1)
    scan "b \"c\n\" \"c\"" 1 = .ok ([name] ++ string :: [other, stop]) ∧
      (∃ start stop, StandsAt "b \"c\n\" \"c\"".toList 1 string start stop ∧
        (reporter "b \"c\n\" \"c\"").SearchesLastLine .plain error "b \"c\n\" \"c\"".toList start
          stop) ∧
      (reporter "b \"c\n\" \"c\"").Shows .plain error "  \" \"c\"\n    ^~\n" ∧
      scan "\"a\nb" 1 = .error ⟨[], unclosed⟩ ∧
      ∃ start, FailsAt "\"a\nb".toList 1 unclosed start ∧
        ('\n' ∈ "\"a\nb".toList.drop start →
          (reporter "\"a\nb").Shows .plain unclosed.toDiagnostic "") := by
  intro name string other stop error unclosed reporter
  have hscan : scan "b \"c\n\" \"c\"" 1 = .ok ([name] ++ string :: [other, stop]) := by cbv
  have hfails : scan "\"a\nb" 1 = .error ⟨[], unclosed⟩ := by cbv
  have hshows : (reporter "b \"c\n\" \"c\"").Shows .plain error "  \" \"c\"\n    ^~\n" := by
    unfold Reporter.Shows
    decide +kernel
  obtain ⟨-, htoken⟩ :=
    report_searches_last_line (r := reporter "b \"c\n\" \"c\"") rfl (by decide) .plain
  obtain ⟨hunclosed, -⟩ :=
    report_searches_last_line (r := reporter "\"a\nb") rfl (by decide) .plain
  obtain ⟨start, stop, -, hstands, hsearches⟩ := htoken _ _ _ hscan (by decide)
  obtain ⟨place, -, hplace, hnothing⟩ := hunclosed _ hfails (by simp [unclosed])
  exact ⟨hscan, ⟨start, stop, hstands, hsearches _⟩, hshows, hfails, place, hplace,
    fun hspread => (hnothing hspread).2 rfl⟩

/-- Of a comment that is not closed the last line is shown, with the opening of another comment
underlined that is no comment at all. -/
theorem unclosed_comment_shown_elsewhere :
    let error : ScanError := ⟨.unterminatedComment, 2, "/*", 0⟩
    let reporter : Reporter := Reporter.register {} (.ofText "a" "/* a\n/* b" 1)
    scan "/* a\n/* b" 1 = .error ⟨[], error⟩ ∧ FailsAt "/* a\n/* b".toList 1 error 0 ∧
      reporter.Shows .plain error.toDiagnostic "  /* b\n  ^~\n" ∧
      ¬ reporter.Underlines .plain error.toDiagnostic "/* a\n/* b".toList 0 2 := by
  intro error reporter
  have hscan : scan "/* a\n/* b" 1 = .error ⟨[], error⟩ := by cbv
  have hfails : FailsAt "/* a\n/* b".toList 1 error 0 :=
    ⟨⟨2, by decide, by decide, rfl⟩, by decide, by decide⟩
  refine ⟨hscan, hfails, ?_, ?_⟩
  · unfold Reporter.Shows
    decide +kernel
  · unfold Reporter.Underlines Reporter.Shows
    decide +kernel

end Lox
