import LoxInterpreter.Proofs.Diagnostic.SpreadLexemes

/-!
Two ways to count lines. The scanner counts newlines, but the table of the lines of a source is cut
at every line end, of which the newline is only one. So the line that is looked up for a token is
the one that the token is on as long as newlines are the only line ends before it, alone or with a
carriage return in front. Behind another line end, it is a line that ends before the token begins.
-/

namespace Lox

open Text (isLineEnd)

/-- How many line ends of a text are no newlines. A carriage return in front of a newline ends the
line together with it, and is none of its own. -/
def strayEnds : List Char → Nat
  | [] => 0
  | c :: cs =>
    (if isLineEnd c ∧ c ≠ '\n' ∧ ¬ (c = '\r' ∧ cs.head? = some '\n') then 1 else 0) + strayEnds cs

namespace Text

/-! ### Line ends -/

inductive Ends : List Char → List Char → Prop
  | pair {rest : List Char} : Ends ['\r', '\n'] rest
  | single {c : Char} {rest : List Char} (hc : isLineEnd c = true)
      (hpair : ¬ (c = '\r' ∧ rest.head? = some '\n')) : Ends [c] rest

variable {line stop front more rest : List Char}

/-- A text begins with a line end if its first character ends lines. -/
theorem exists_ends {c : Char} (hc : isLineEnd c = true) (cs : List Char) :
    ∃ stop rest, c :: cs = stop ++ rest ∧ Ends stop rest := by
  by_cases hpair : c = '\r' ∧ cs.head? = some '\n'
  · obtain ⟨rfl, hnewline⟩ := hpair
    obtain ⟨rest, rfl⟩ := List.head?_eq_some_iff.1 hnewline
    exact ⟨['\r', '\n'], rest, rfl, .pair⟩
  · exact ⟨[c], cs, rfl, .single hc hpair⟩

/-- A text is a single line, or a line with a line end behind it and then more text. -/
@[elab_as_elim]
theorem table_induction {motive : List Char → Prop}
    (last : ∀ line, OneLine line → motive line)
    (next : ∀ line stop rest, OneLine line → Ends stop rest → motive rest →
      motive (line ++ (stop ++ rest)))
    (text : List Char) : motive text := by
  induction hlength : text.length using Nat.strong_induction_on generalizing text with
  | _ n ih =>
    have hsplit := List.takeWhile_append_dropWhile (p := (!isLineEnd ·)) (l := text)
    have hline : OneLine (text.takeWhile (!isLineEnd ·)) :=
      fun c hc => by simpa using List.mem_takeWhile_imp hc
    cases hrest : text.dropWhile (!isLineEnd ·) with
    | nil =>
      rw [hrest, List.append_nil] at hsplit
      exact hsplit ▸ last _ hline
    | cons c cs =>
      have hc : isLineEnd c = true := by
        have hnot := List.head_dropWhile_not (!isLineEnd ·) (by rw [hrest]; simp)
        simpa [hrest] using hnot
      obtain ⟨stop, rest, heq, hends⟩ := exists_ends hc cs
      rw [hrest, heq] at hsplit
      have hpos : 0 < stop.length := by cases hends <;> simp
      have hshort : rest.length < n := by
        rw [← hlength, ← hsplit, List.length_append, List.length_append]
        omega
      exact hsplit ▸ next _ stop rest hline hends (ih _ hshort rest rfl)

/-- The first line ends at the first line end. -/
theorem lines_append_ends (hline : OneLine line) (h : Ends stop rest) :
    lines (line ++ (stop ++ rest)) = line :: lines rest := by
  have hall : ∀ c ∈ line, (!isLineEnd c) = true := fun c hc => by simp [hline c hc]
  have htake : (line ++ (stop ++ rest)).takeWhile (!isLineEnd ·) = line := by
    rw [List.takeWhile_append_of_pos hall]
    cases h with
    | pair => simp [isLineEnd, lineEnds]
    | single hc => simp [hc]
  have hdrop : dropLine (line ++ (stop ++ rest)) = rest := by
    unfold dropLine
    rw [List.dropWhile_append_of_pos hall]
    cases h with
    | pair => simp [isLineEnd, lineEnds]
    | @single c _ hc hpair =>
      rw [List.singleton_append, List.dropWhile_cons_of_neg (by simp [hc])]
      split
      next heq =>
        cases heq
        exact absurd ⟨rfl, rfl⟩ hpair
      next heq =>
        cases heq
        rfl
      next heq => cases heq
  obtain ⟨c, cs, hcs⟩ : ∃ c cs, line ++ (stop ++ rest) = c :: cs := by
    refine List.exists_cons_of_ne_nil fun hnil => ?_
    cases h <;> simp at hnil
  rw [hcs, lines, ← hcs, htake, hdrop]

/-- The first line of a text that goes on with more of it. -/
theorem lines_append_of_oneLine (hline : OneLine line) (hmore : more ≠ []) :
    ∃ after, lines (line ++ more) = (line ++ more.takeWhile (!isLineEnd ·)) :: after := by
  have hall : ∀ c ∈ line, (!isLineEnd c) = true := fun c hc => by simp [hline c hc]
  obtain ⟨c, cs, hcs⟩ : ∃ c cs, line ++ more = c :: cs :=
    List.exists_cons_of_ne_nil (by simp [hmore])
  refine ⟨lines (dropLine (line ++ more)), ?_⟩
  rw [← List.takeWhile_append_of_pos hall, hcs, lines]

/-- What ends a line does so in front of more text too, if this begins with no line end. -/
theorem Ends.append (h : Ends stop rest) (hmore : ∀ c ∈ more.head?, isLineEnd c = false) :
    Ends stop (rest ++ more) := by
  cases h with
  | pair => exact .pair
  | single hc hpair =>
    refine .single hc fun ⟨hreturn, hnewline⟩ => ?_
    cases rest with
    | nil => exact absurd (hmore _ hnewline) (by decide)
    | cons d rest => exact hpair ⟨hreturn, hnewline⟩

/-! ### Stray line ends -/

theorem strayEnds_append_of_oneLine (hline : OneLine line) (rest : List Char) :
    strayEnds (line ++ rest) = strayEnds rest := by
  induction line with
  | nil => rfl
  | cons c line ih =>
    obtain ⟨hc, hline⟩ := List.forall_mem_cons.1 hline
    rw [List.cons_append, strayEnds, ih hline]
    simp [hc]

/-- A line end is a newline or a stray one. -/
theorem Ends.strayEnds_append (h : Ends stop rest) :
    stop.getLast? = some '\n' ∧ stop.count '\n' = 1 ∧ strayEnds (stop ++ rest) = strayEnds rest ∨
      stop.count '\n' = 0 ∧ strayEnds (stop ++ rest) = strayEnds rest + 1 := by
  cases h with
  | pair => exact Or.inl ⟨rfl, rfl, by simp [strayEnds]⟩
  | @single c _ hc hpair =>
    by_cases hnewline : c = '\n'
    · subst hnewline
      exact Or.inl ⟨rfl, rfl, by simp [strayEnds]⟩
    · refine Or.inr ⟨by simp [hnewline], ?_⟩
      rw [List.singleton_append, strayEnds, if_pos ⟨hc, hnewline, hpair⟩, Nat.add_comm]

/-! ### The table of lines -/

/-- The table of lines around a place of a text: the lines before, and the one that the place is on,
which begins behind the part `above` of the text. -/
structure TableAt (front more : List Char) (before : List (List Char)) (above tail : List Char) :
    Prop where
  lines : ∃ after, lines (front ++ more) =
    before ++ (tail ++ more.takeWhile (!isLineEnd ·)) :: after
  front_eq : front = above ++ tail
  oneLine : OneLine tail
  length : before.length = front.count '\n' + strayEnds front
  above_ends : strayEnds front = 0 → ∀ c ∈ above.getLast?, c = '\n'
  ended : ∀ line ∈ before, ∃ left c right, front = left ++ line ++ c :: right ∧ isLineEnd c = true

/-- A place that is not at a line end is on a line of the table, behind as many lines as there are
line ends before it. -/
theorem exists_tableAt (front : List Char) (hmore : ∃ c ∈ more.head?, isLineEnd c = false) :
    ∃ before above tail, TableAt front more before above tail := by
  obtain ⟨d, hd, hplain⟩ := hmore
  have hne : more ≠ [] := by
    rintro rfl
    cases hd
  have hhead : ∀ c ∈ more.head?, isLineEnd c = false := fun c hc => Option.mem_unique hd hc ▸ hplain
  induction front using table_induction with
  | last line hline =>
    have hcount : line.count '\n' = 0 := List.count_eq_zero.2 hline.not_mem_newline
    have hstray : strayEnds line = 0 := by
      have happend := strayEnds_append_of_oneLine hline []
      rwa [List.append_nil] at happend
    exact ⟨[], [], line, lines_append_of_oneLine hline hne, rfl, hline, by simp [hcount, hstray],
      by simp, by simp⟩
  | next line stop rest hline hends ih =>
    obtain ⟨before, above, tail, ⟨after, hlines⟩, rfl, htail, hlength, habove, hended⟩ := ih
    have hcount : line.count '\n' = 0 := List.count_eq_zero.2 hline.not_mem_newline
    have hstray := strayEnds_append_of_oneLine hline (stop ++ (above ++ tail))
    have hcases := hends.strayEnds_append
    refine ⟨line :: before, line ++ (stop ++ above), tail, ⟨after, ?_⟩, by simp, htail, ?_, ?_, ?_⟩
    · rw [List.append_assoc, List.append_assoc, lines_append_ends hline (hends.append hhead),
        hlines, List.cons_append]
    · have hnewlines : (line ++ (stop ++ (above ++ tail))).count '\n' =
          stop.count '\n' + (above ++ tail).count '\n' := by
        rw [List.count_append, hcount, List.count_append, Nat.zero_add]
      rw [List.length_cons, hlength, hstray, hnewlines]
      omega
    · intro hzero c hc
      rw [hstray] at hzero
      rcases hcases with ⟨hlast, -, hsame⟩ | ⟨-, hmore⟩
      · rw [hsame] at hzero
        rw [List.getLast?_append, List.getLast?_append, hlast] at hc
        cases hend : above.getLast? with
        | none => simpa [hend, eq_comm] using hc
        | some d => exact habove hzero c (by simpa [hend] using hc)
      · omega
    · intro l hl
      rcases List.mem_cons.1 hl with rfl | hl
      · cases hends with
        | pair => exact ⟨[], '\r', '\n' :: (above ++ tail), rfl, by decide⟩
        | @single c _ hc => exact ⟨[], c, above ++ tail, rfl, hc⟩
      · obtain ⟨left, c, right, heq, hc⟩ := hended l hl
        exact ⟨line ++ (stop ++ left), c, right, by rw [heq]; simp, hc⟩

end Text

/-- If all line ends before a place are newlines, then its line begins in the table where it begins
for the scanner. -/
theorem Text.TableAt.length_tail {front more above tail : List Char} {before : List (List Char)}
    (h : Text.TableAt front more before above tail) (hnone : strayEnds front = 0) :
    tail.length = front.length - lineStart (front ++ more) front.length := by
  have hall : ∀ c ∈ tail.reverse, (c != '\n') = true := fun c hc =>
    bne_iff_ne.2 (ne_of_mem_of_not_mem (List.mem_reverse.1 hc) h.oneLine.not_mem_newline)
  have habove : above.reverse.dropWhile (· != '\n') = above.reverse := by
    cases hreverse : above.reverse with
    | nil => rfl
    | cons c cs =>
      have hlast : above.getLast? = some c := by
        rw [← List.head?_reverse, hreverse, List.head?_cons]
      have hc : c = '\n' := h.above_ends hnone c hlast
      exact List.dropWhile_cons_of_neg (by simp [hc])
  rw [Lexical.lineStart_append, h.front_eq, List.reverse_append, List.dropWhile_append_of_pos hall,
    habove, List.length_reverse, List.length_append, Nat.add_sub_cancel_left]

/-- What the line that is looked up for a token between two offsets has to do with the token. If all
line ends before the token are newlines, then this is the line on which the token begins, and the
token stands at its column as far as the line goes: to its end, or up to a line end within it.
Otherwise the line ends before the token begins. -/
structure LookedUp (text line : List Char) (column start stop : Nat) : Prop where
  holds (hnone : strayEnds (text.take start) = 0) (h : OneLine (slice text start stop)) :
    slice text start stop <+: line.drop column
  breaks (hnone : strayEnds (text.take start) = 0) (h : ¬ OneLine (slice text start stop)) :
    line.drop column <+: slice text start stop ∧ line.drop column ≠ slice text start stop
  before (hstray : strayEnds (text.take start) ≠ 0) :
    ∃ left c right, text.take start = left ++ line ++ c :: right ∧ isLineEnd c = true

namespace Lexical

/-- No line end begins a lexeme. -/
theorem isLineEnd_first {c : Char} {more : List Char} {kind : Kind} {literal : Literal}
    (h : IsPiece (c :: more) (.lexeme kind literal)) : isLineEnd c = false := by
  have hspaced : Spaced [] := by simp [Spaced]
  have hfront := front_spaced h hspaced
  refine Bool.eq_false_iff.2 fun hc => ?_
  simp only [isLineEnd, Text.lineEnds, List.contains_iff_mem, List.mem_cons, List.not_mem_nil,
    or_false] at hc
  rcases hc with rfl | rfl | rfl | rfl | rfl | rfl | rfl | rfl | rfl | rfl <;> cases hfront

end Lexical

/-- The table of lines holds a line for each token, which is looked up by counting newlines. -/
theorem exists_lookedUp {text lexeme : List Char} {start stop : Nat}
    (hslice : slice text start stop = lexeme) (hle : start ≤ stop) (hstop : stop ≤ text.length)
    (hfirst : ∃ c ∈ lexeme.head?, isLineEnd c = false) :
    ∃ line, (Text.lines text)[(text.take start).count '\n']? = some line ∧
      LookedUp text line (start - lineStart text start) start stop := by
  have hmore : lexeme ++ text.drop stop = text.drop start := hslice ▸ slice_append_drop hle hstop
  have hlength : (text.take start).length = start := by
    rw [List.length_take, Nat.min_eq_left (Nat.le_trans hle hstop)]
  obtain ⟨c, hc, hplain⟩ := hfirst
  have hhead : ∃ c ∈ (text.drop start).head?, isLineEnd c = false := by
    refine ⟨c, ?_, hplain⟩
    rw [← hmore, List.head?_append, Option.mem_def.1 hc]
    rfl
  obtain ⟨before, above, tail, htable⟩ := Text.exists_tableAt (text.take start) hhead
  obtain ⟨after, hlines⟩ := htable.lines
  have hindex := htable.length
  have hcolumn := htable.length_tail
  rw [List.take_append_drop] at hlines hcolumn
  rw [hlength] at hcolumn
  by_cases hstray : strayEnds (text.take start) = 0
  · -- The token begins on the line that is looked up.
    have hdrop : (tail ++ (text.drop start).takeWhile (!isLineEnd ·)).drop
        (start - lineStart text start) = (lexeme ++ text.drop stop).takeWhile (!isLineEnd ·) := by
      rw [← hcolumn hstray, List.drop_left, hmore]
    have hfound : (Text.lines text)[(text.take start).count '\n']? =
        some (tail ++ (text.drop start).takeWhile (!isLineEnd ·)) := by
      rw [hstray, Nat.add_zero] at hindex
      rw [hlines, ← hindex, List.getElem?_append_right (Nat.le_refl _), Nat.sub_self,
        List.getElem?_cons_zero]
    refine ⟨_, hfound, fun _ hline => ?_, fun _ hline => ?_, fun hne => absurd hstray hne⟩
    · rw [hslice] at hline ⊢
      rw [hdrop, List.takeWhile_append_of_pos fun c hc => by simp [hline c hc]]
      exact List.prefix_append _ _
    · rw [hslice] at hline ⊢
      have hshort : (lexeme.takeWhile (!isLineEnd ·)).length ≠ lexeme.length := fun heq =>
        hline fun c hc => by
          simpa using List.takeWhile_eq_self_iff.1
            ((List.takeWhile_prefix _).eq_of_length heq) c hc
      rw [hdrop, List.takeWhile_append, if_neg hshort]
      exact ⟨List.takeWhile_prefix _, fun heq => hshort (congrArg List.length heq)⟩
  · -- The token begins on a line further down, and this is one of those above.
    have hlt : (text.take start).count '\n' < before.length := by omega
    refine ⟨before[(text.take start).count '\n'], ?_, fun hnone => absurd hnone hstray,
      fun hnone => absurd hnone hstray, fun _ => htable.ended _ (List.getElem_mem hlt)⟩
    rw [hlines, List.getElem?_append_left hlt, List.getElem?_eq_getElem hlt]

/-- For each token of the source that was registered last, if it is not empty and has no newline, a
line is looked up. As long as no other line end than the newline has come, with or without a
carriage return in front, this line has the token at its column. If one comes within the token, the
line breaks off there, and behind it each token gets a line that ends before the token begins. -/
theorem lines_agree_before_stray_end {r : Reporter} {path source : String} {first : Int}
    (hlast : r.sources.head? = some (.ofText path source first)) {before after : List Token}
    {t : Token} (hscan : scan source first = .ok (before ++ t :: after)) (hne : t.lexeme ≠ "")
    (hnewline : '\n' ∉ t.lexeme.toList) :
    ∃ start stop column line, Laid source.toList first 0 before start ∧
      StandsAt source.toList first t start stop ∧ t.column = some column ∧
      (∀ d : Diagnostic, d.line = some t.line → r.line? d = some line) ∧
      LookedUp source.toList line column start stop := by
  obtain ⟨start, stop, hlaid, hstands, hlt⟩ := Lexical.exists_place_of_scan hscan hne
  have hslice : slice source.toList start stop = t.lexeme.toList := by
    rw [hstands.lexeme, String.toList_ofList]
  have hlexeme := Lexical.isLexeme_of_scan hscan (t := t) (by simp) hne
  obtain ⟨c, more, htext⟩ := List.exists_cons_of_ne_nil hlexeme.ne_nil
  rw [Lexical.IsLexeme, htext] at hlexeme
  have hfirst : ∃ c ∈ t.lexeme.toList.head?, isLineEnd c = false :=
    ⟨c, by rw [htext]; rfl, Lexical.isLineEnd_first hlexeme⟩
  obtain ⟨line, hline, hlooked⟩ := exists_lookedUp hslice hlt.le hstands.stop_le hfirst
  -- The token has no newline, so that its line can be counted at its beginning.
  have hcount : t.line = first + (source.toList.take start).count '\n' := by
    rw [hstands.line, ← take_append_slice source.toList hlt.le, hslice, List.count_append,
      List.count_eq_zero.2 hnewline, Nat.add_zero]
  refine ⟨start, stop, _, line, hlaid, hstands, hstands.column, fun d hd => ?_, hlooked⟩
  rw [Reporter.line?, hlast, hd, hcount]
  exact (Source.line?_ofText path source first _).trans hline

/-- In `a↵b "␌" c`, with a carriage return in front of the newline, the line that is looked up for
the second name is the one that it is on. For the last name it is the same one, which ends at the
form feed in the string. -/
theorem lines_agree_before_stray_end_formFeed :
    let source := "a\r\nb \"\x0c\" c"
    let reporter : Reporter := Reporter.register {} (.ofText "a" source 1)
    let name (lexeme : String) (line : Int) (column : Nat) : Token :=
      ⟨.identifier, lexeme, .nil, line, some column⟩
    let string : Token := ⟨.string, "\"\x0c\"", .string "\x0c", 2, some 2⟩
    let stop : Token := ⟨.eof, "", .nil, 2, some 7⟩
    let error (t : Token) := RuntimeError.toDiagnostic ⟨t, .undefinedVariable t.lexeme⟩
    scan source 1 = .ok ([name "a" 1 0] ++ name "b" 2 0 :: [string, name "c" 2 6, stop]) ∧
      (∃ start stop line, StandsAt source.toList 1 (name "b" 2 0) start stop ∧
        reporter.line? (error (name "b" 2 0)) = some line ∧
        LookedUp source.toList line 0 start stop) ∧
      (∃ start stop line, StandsAt source.toList 1 (name "c" 2 6) start stop ∧
        reporter.line? (error (name "c" 2 6)) = some line ∧
        LookedUp source.toList line 6 start stop) ∧
      reporter.line? (error (name "c" 2 6)) = some "b \"".toList := by
  intro source reporter name string stop error
  have hscan : scan source 1 =
      .ok ([name "a" 1 0] ++ name "b" 2 0 :: [string, name "c" 2 6, stop]) := by
    dsimp only [source, name, string, stop, List.singleton_append]
    cbv
  have hscan' : scan source 1 =
      .ok ([name "a" 1 0, name "b" 2 0, string] ++ name "c" 2 6 :: [stop]) := hscan
  obtain ⟨start, stop, _, line, -, hstands, ⟨⟩, hline, hlooked⟩ :=
    lines_agree_before_stray_end (r := reporter) rfl hscan (by decide) (by decide)
  obtain ⟨start', stop', _, line', -, hstands', ⟨⟩, hline', hlooked'⟩ :=
    lines_agree_before_stray_end (r := reporter) rfl hscan' (by decide) (by decide)
  exact ⟨hscan, ⟨start, stop, line, hstands, hline _ rfl, hlooked⟩,
    ⟨start', stop', line', hstands', hline' _ rfl, hlooked'⟩, by decide +kernel⟩

/-- In `//␌ b↵b;` the name is on the second line for the scanner. The second line of the table is
the part of the comment behind the form feed, which does not have the name at its column, and of
which the report underlines another occurrence. -/
theorem line_after_stray_end_lacks_token :
    let reporter : Reporter := Reporter.register {} (.ofText "a" "//\x0c b\nb;" 1)
    let name : Token := ⟨.identifier, "b", .nil, 2, some 0⟩
    let error := RuntimeError.toDiagnostic ⟨name, .undefinedVariable "b"⟩
    scan "//\x0c b\nb;" 1 =
        .ok [name, ⟨.semicolon, ";", .nil, 2, some 1⟩, ⟨.eof, "", .nil, 2, some 2⟩] ∧
      reporter.line? error = some " b".toList ∧ ¬ name.lexeme.toList <+: " b".toList.drop 0 ∧
      reporter.Shows .plain error "   b\n   ^\n" := by
  intro reporter name error
  have hscan : scan "//\x0c b\nb;" 1 =
      .ok [name, ⟨.semicolon, ";", .nil, 2, some 1⟩, ⟨.eof, "", .nil, 2, some 2⟩] := by cbv
  refine ⟨hscan, by decide +kernel, by decide, ?_⟩
  unfold Reporter.Shows
  decide +kernel

end Lox
