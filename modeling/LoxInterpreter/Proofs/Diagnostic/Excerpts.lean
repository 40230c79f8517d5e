import LoxInterpreter.Reporter
import LoxInterpreter.Proofs.Lexical.Positions
import LoxInterpreter.Proofs.Text.Lines

/-!
What is shown of an error. Its line is looked up in the source that was registered last. There the
first line of the offending text is looked for, at the column of the error and then from left to
right. Where it is found, it is underlined.
-/

namespace Lox

/-! ### Lines at offsets -/

/-- The offset of the next newline, or the length of the text if there is none. -/
def lineEnd (text : List Char) (offset : Nat) : Nat :=
  offset + ((text.drop offset).takeWhile (· != '\n')).length

/-- The line that an offset of a text is on, without the newline that ends it. -/
def lineAt (text : List Char) (offset : Nat) : List Char :=
  slice text (lineStart text offset) (lineEnd text offset)

section

variable {text line rest : List Char} {offset start stop : Nat}

theorem lineStart_le (text : List Char) (offset : Nat) : lineStart text offset ≤ offset := by
  have hle := (List.dropWhile_suffix (l := (text.take offset).reverse) (· != '\n')).length_le
  rw [List.length_reverse] at hle
  exact Nat.le_trans hle (List.length_take_le _ _)

theorem le_lineEnd (text : List Char) (offset : Nat) : offset ≤ lineEnd text offset :=
  Nat.le_add_right _ _

theorem take_slice (text : List Char) (start : Nat) {middle stop : Nat} (h : middle ≤ stop) :
    (slice text start stop).take (middle - start) = slice text start middle := by
  rw [slice, slice, ← List.drop_take, List.take_take, Nat.min_eq_left h]

theorem drop_slice (text : List Char) {start middle : Nat} (h : start ≤ middle) (stop : Nat) :
    (slice text start stop).drop (middle - start) = slice text middle stop := by
  rw [slice, slice, List.drop_drop, Nat.add_sub_cancel' h]

theorem take_append_slice (text : List Char) (h : start ≤ stop) :
    text.take start ++ slice text start stop = text.take stop := by
  rw [slice, ← Nat.min_eq_left h, ← List.take_take, Nat.min_eq_left h, List.take_append_drop]

theorem slice_append_drop (h : start ≤ stop) (hstop : stop ≤ text.length) :
    slice text start stop ++ text.drop stop = text.drop start := by
  have hstart : start ≤ (text.take stop).length := by rwa [List.length_take, Nat.min_eq_left hstop]
  rw [slice, ← List.drop_append_of_le_length hstart, List.take_append_drop]

theorem slice_length (text : List Char) (start : Nat) :
    slice text start text.length = text.drop start := by
  rw [slice, List.take_length]

theorem slice_subset_drop (text : List Char) (start stop : Nat) :
    slice text start stop ⊆ text.drop start := by
  rw [slice, List.drop_take]
  exact List.take_subset _ _

/-- Two offsets without a newline between them are on the same line. -/
theorem lineStart_eq_of_not_mem (hle : start ≤ stop) (h : '\n' ∉ slice text start stop) :
    lineStart text stop = lineStart text start := by
  have hall : ∀ c ∈ (slice text start stop).reverse, (c != '\n') = true :=
    fun c hc => bne_iff_ne.2 (ne_of_mem_of_not_mem (List.mem_reverse.1 hc) h)
  rw [lineStart, lineStart, ← take_append_slice text hle, List.reverse_append,
    List.dropWhile_append_of_pos hall]

theorem lineEnd_eq_of_not_mem (hle : start ≤ stop) (hstop : stop ≤ text.length)
    (h : '\n' ∉ slice text start stop) : lineEnd text stop = lineEnd text start := by
  have hall : ∀ c ∈ slice text start stop, (c != '\n') = true :=
    fun c hc => bne_iff_ne.2 (ne_of_mem_of_not_mem hc h)
  have hlength : (slice text start stop).length = stop - start := by
    rw [slice, List.length_drop, List.length_take, Nat.min_eq_left hstop]
  rw [lineEnd, lineEnd, ← slice_append_drop hle hstop, List.takeWhile_append_of_pos hall,
    List.length_append, hlength]
  omega

theorem lineAt_eq_of_not_mem (hle : start ≤ stop) (hstop : stop ≤ text.length)
    (h : '\n' ∉ slice text start stop) : lineAt text stop = lineAt text start := by
  rw [lineAt, lineStart_eq_of_not_mem hle h, lineEnd_eq_of_not_mem hle hstop h, lineAt]

/-- With a newline in between, the line of the second offset begins behind the first one. -/
theorem lt_lineStart (hle : start ≤ stop) (hstop : stop ≤ text.length)
    (h : '\n' ∈ slice text start stop) : start < lineStart text stop := by
  have hne : (slice text start stop).reverse.dropWhile (· != '\n') ≠ [] := fun hnil =>
    absurd (List.dropWhile_eq_nil_iff.1 hnil _ (List.mem_reverse.2 h)) (by simp)
  have hlength : (text.take start).length = start := by
    rw [List.length_take, Nat.min_eq_left (Nat.le_trans hle hstop)]
  rw [lineStart, ← take_append_slice text hle, List.reverse_append, List.dropWhile_append,
    if_neg (mt List.isEmpty_iff.1 hne), List.length_append, List.length_reverse, hlength]
  exact Nat.lt_add_of_pos_left (List.length_pos_iff.2 hne)

/-! What follows a newline has its lines for itself. -/

theorem lineStart_next (line rest : List Char) (offset : Nat) :
    lineStart (line ++ '\n' :: rest) (line.length + (offset + 1)) =
      line.length + (lineStart rest offset + 1) := by
  rw [lineStart, lineStart, List.take_length_add_append, List.take_succ_cons, List.reverse_append,
    List.reverse_cons, List.append_assoc, List.dropWhile_append]
  cases hfront : (rest.take offset).reverse.dropWhile (· != '\n') with
  | nil => simp
  | cons c front =>
    simp only [List.isEmpty_cons, Bool.false_eq_true, if_false, List.length_append,
      List.length_cons, List.length_reverse, List.length_nil]
    omega

theorem lineEnd_next (line rest : List Char) (offset : Nat) :
    lineEnd (line ++ '\n' :: rest) (line.length + (offset + 1)) =
      line.length + (lineEnd rest offset + 1) := by
  rw [lineEnd, lineEnd, List.drop_length_add_append, List.drop_succ_cons]
  omega

theorem lineAt_next (line rest : List Char) (offset : Nat) :
    lineAt (line ++ '\n' :: rest) (line.length + (offset + 1)) = lineAt rest offset := by
  rw [lineAt, lineStart_next, lineEnd_next, slice, List.take_length_add_append,
    List.drop_length_add_append]
  rfl

/-- The first line goes up to the first newline. -/
theorem lineAt_first (hline : '\n' ∉ line) (hrest : rest.takeWhile (· != '\n') = [])
    (ho : offset ≤ line.length) : lineAt (line ++ rest) offset = line := by
  have hnone : '\n' ∉ slice (line ++ rest) 0 offset := fun hmem => by
    rw [slice, List.take_append_of_le_length ho] at hmem
    exact hline (List.mem_of_mem_take hmem)
  have hle : offset ≤ (line ++ rest).length := by
    rw [List.length_append]
    omega
  have hall : ∀ c ∈ line, (c != '\n') = true :=
    fun c hc => bne_iff_ne.2 (ne_of_mem_of_not_mem hc hline)
  have hend : lineEnd (line ++ rest) 0 = line.length := by
    rw [lineEnd, List.drop_zero, List.takeWhile_append_of_pos hall, hrest, List.append_nil,
      Nat.zero_add]
  rw [lineAt_eq_of_not_mem (Nat.zero_le _) hle hnone, lineAt, Nat.le_zero.1 (lineStart_le _ 0),
    hend, slice, List.take_left, List.drop_zero]

/-- The line at an offset comes behind as many lines as there are newlines before the offset. At the
end of the text it can be an empty line that is none of the lines of the text. -/
theorem getD_lines (h : NewlinesOnly text) : ∀ offset ≤ text.length,
    (Text.lines text)[(text.take offset).count '\n']?.getD [] = lineAt text offset := by
  have hnone {line : List Char} (hline : OneLine line) (offset : Nat) :
      (line.take offset).count '\n' = 0 :=
    List.count_eq_zero.2 fun hmem => hline.not_mem_newline (List.mem_of_mem_take hmem)
  refine Text.lines_induction (fun line hline => ?_) (fun line rest hline _ ih => ?_) h
  · intro offset ho
    have hfirst : lineAt (line ++ []) offset = line := lineAt_first hline.not_mem_newline rfl ho
    rw [List.append_nil] at hfirst
    rw [hnone hline, hfirst]
    by_cases hempty : line = []
    · subst hempty
      rw [Text.lines]
      rfl
    · rw [Text.lines_of_oneLine hline hempty]
      rfl
  · intro offset ho
    rw [Text.lines_append_newline hline]
    rcases Nat.lt_or_ge line.length offset with hlt | hle
    · obtain ⟨k, rfl⟩ := Nat.exists_eq_add_of_lt hlt
      have hk : k ≤ rest.length := by
        simp only [List.length_append, List.length_cons] at ho
        omega
      rw [Nat.add_assoc, lineAt_next, ← ih k hk, List.take_length_add_append, List.take_succ_cons,
        List.count_append, List.count_cons_self, List.count_eq_zero.2 hline.not_mem_newline,
        Nat.zero_add, List.getElem?_cons_succ]
    · rw [List.take_append_of_le_length hle, hnone hline,
        lineAt_first hline.not_mem_newline (List.takeWhile_cons_of_neg (by simp)) hle]
      rfl

end

/-! ### Occurrences -/

namespace Text

variable {part text : List Char} {n : Nat}

theorem offset_natCast (size n : Nat) : offset size n = min n size := by
  rw [offset, if_neg (Int.not_lt.2 (Int.natCast_nonneg n)), Int.toNat_natCast]

theorem slice_eq_iff : slice text n (n + part.length) = part ↔ part <+: text.drop n := by
  have hslice : slice text n (n + part.length) = (text.drop n).take part.length := by
    rw [slice, ← Int.natCast_add, offset_natCast, offset_natCast, ← List.take_eq_take_min]
    rcases Nat.le_total n text.length with hn | hn
    · rw [Nat.min_eq_left hn, List.drop_take, Nat.add_sub_cancel_left]
    · rw [Nat.min_eq_right hn, List.drop_eq_nil_of_le hn, List.take_nil]
      exact List.drop_eq_nil_of_le (List.length_take_le' _ _)
  rw [hslice, List.prefix_iff_eq_take, eq_comm]

/-- What is found is an occurrence, and there is none to the left of it. -/
theorem isPrefix_of_find? (h : find? part text = some n) :
    part <+: text.drop n ∧ ∀ m < n, ¬ part <+: text.drop m := by
  fun_induction find? part text generalizing n with
  | case1 hempty =>
    cases h
    exact ⟨List.isEmpty_iff.1 hempty ▸ List.nil_prefix, by simp⟩
  | case2 => cases h
  | case3 c text hfront =>
    cases h
    exact ⟨List.isPrefixOf_iff_prefix.1 hfront, by simp⟩
  | case4 c text hfront ih =>
    obtain ⟨n, hn, rfl⟩ := Option.map_eq_some_iff.1 h
    obtain ⟨hbegins, hleft⟩ := ih hn
    refine ⟨hbegins, fun m hm => ?_⟩
    cases m with
    | zero => exact mt List.isPrefixOf_iff_prefix.2 hfront
    | succ m => exact hleft m (Nat.lt_of_succ_lt_succ hm)

theorem find?_ne_none (h : part <+: text.drop n) : find? part text ≠ none := by
  fun_induction find? part text generalizing n with
  | case1 => simp
  | case2 hpart => simp_all
  | case3 => simp
  | case4 c text hfront ih =>
    cases n with
    | zero => exact absurd (List.isPrefixOf_iff_prefix.2 h) hfront
    | succ n => simpa using ih h

/-- The first occurrence is found. -/
theorem find?_eq_some_iff :
    find? part text = some n ↔ part <+: text.drop n ∧ ∀ m < n, ¬ part <+: text.drop m := by
  refine ⟨isPrefix_of_find?, fun ⟨hn, hleft⟩ => ?_⟩
  obtain ⟨m, hfound⟩ := Option.ne_none_iff_exists'.1 (find?_ne_none hn)
  obtain ⟨hm, hleft'⟩ := isPrefix_of_find? hfound
  have hle : n ≤ m := Nat.not_lt.1 fun hlt => hleft m hlt hm
  have hge : m ≤ n := Nat.not_lt.1 fun hlt => hleft' n hlt hn
  rw [hfound, Nat.le_antisymm hge hle]

theorem find?_eq_none_iff : find? part text = none ↔ ∀ n, ¬ part <+: text.drop n := by
  refine ⟨fun hnone n hn => find?_ne_none hn hnone, fun hall => ?_⟩
  cases hfound : find? part text with
  | none => rfl
  | some n => exact absurd (isPrefix_of_find? hfound).1 (hall n)

end Text

/-! ### Excerpts -/

open Text (Style find?)

namespace Diagnostic

variable {d : Diagnostic} {line : List Char} {column n : Nat}

/-- A line with a part of it highlighted, and a line below that underlines this part: the
characters before it, those in it and those after it. -/
def underlined (style : Style) (before part after : List Char) : String :=
  "  " ++ String.ofList before ++ style.bold (some .yellow) (String.ofList part) ++
    String.ofList after ++ "\n" ++ "  " ++ String.ofList (List.replicate before.length ' ') ++
    style.bold (some .yellow) (String.ofList ('^' :: List.replicate (part.length - 1) '~'))

def underlinedAt (style : Style) (d : Diagnostic) (line : List Char) (n : Nat) : String :=
  underlined style (line.take n) d.target (line.drop (n + d.target.length))

theorem position?_eq (hcolumn : d.column = some (column : Int)) (line : List Char) :
    d.position? line =
      if d.target <+: line.drop column then some (column : Int)
      else (find? d.target line).map Int.ofNat := by
  unfold position?
  rw [hcolumn]
  exact if_congr Text.slice_eq_iff rfl rfl

theorem excerpt?_of_position?_eq_none (h : d.position? line = none) (style : Style) :
    d.excerpt? style line = none := by
  unfold excerpt?
  rw [h]
  simp

theorem excerpt?_of_position? (hne : d.target ≠ []) (hposition : d.position? line = some (n : Int))
    (hoccurs : d.target <+: line.drop n) (style : Style) :
    d.excerpt? style line = some (d.underlinedAt style line n) := by
  have hlength := hoccurs.length_le
  have hpos := List.length_pos_iff.2 hne
  rw [List.length_drop] at hlength
  have hn : n ≤ line.length := by omega
  have hstop : n + d.target.length ≤ line.length := by omega
  unfold excerpt?
  rw [hposition]
  simp only [List.isEmpty_iff, hne, if_false, Option.bind_eq_bind, Option.bind_some,
    Option.pure_def]
  rw [Text.slice_eq_iff.2 hoccurs, ← Int.natCast_add, Text.offset_natCast, Text.offset_natCast,
    underlinedAt, underlined, List.length_take, Nat.min_eq_left hn, Nat.min_eq_left hstop,
    Int.toNat_natCast]

structure IsOn (d : Diagnostic) (text : List Char) (first : Int) (column offset : Nat) : Prop where
  internal : d.internal = false
  line : d.line = some (first + (text.take offset).count '\n')
  column : d.column = some (column : Int)
  offset_le : offset ≤ text.length

end Diagnostic

/-! ### Sources -/

theorem Source.line?_ofText (path source : String) (first : Int) (n : Nat) :
    (Source.ofText path source first).line? (first + n) = (Text.lines source.toList)[n]? := by
  have hindex : first + n - first = (n : Int) := by omega
  unfold Source.line? Source.ofText
  dsimp only
  rw [hindex, if_pos (Int.natCast_nonneg n), Int.toNat_natCast]

namespace Reporter

variable {r : Reporter} {path source : String} {first : Int} {d : Diagnostic} {column offset : Nat}

/-- What the reporter writes about an error is its message, on a line of its own, and then the
excerpt. -/
def Shows (r : Reporter) (style : Style) (d : Diagnostic) (excerpt : String) : Prop :=
  (r.report d).reports.map (Report.text style) = [(r.reportOn d).headline style ++ "\n" ++ excerpt]

/-- What the reporter shows of an error on a line: the target is underlined at a column if it is
there, and else where it occurs first. If it is nowhere in the line, nothing is shown. -/
structure ShowsOn (r : Reporter) (style : Style) (d : Diagnostic) (line : List Char)
    (column : Nat) : Prop where
  atColumn (h : d.target <+: line.drop column) :
    r.Shows style d (d.underlinedAt style line column ++ "\n")
  first (h : ¬ d.target <+: line.drop column) : ∀ n, d.target <+: line.drop n →
    (∀ m < n, ¬ d.target <+: line.drop m) → r.Shows style d (d.underlinedAt style line n ++ "\n")
  nowhere (h : ∀ n, ¬ d.target <+: line.drop n) : r.Shows style d ""

/-- An error in the source that was registered last is shown with the line of the source that it is
on. -/
theorem excerpt?_reportOn (hlast : r.sources.head? = some (.ofText path source first))
    (hlines : NewlinesOnly source.toList) (hd : d.IsOn source.toList first column offset)
    (hne : d.target ≠ []) (style : Style) :
    (r.reportOn d).excerpt? style = d.excerpt? style (lineAt source.toList offset) := by
  have hline := getD_lines hlines offset hd.offset_le
  have hlookup : r.line? d =
      (Text.lines source.toList)[(source.toList.take offset).count '\n']? := by
    rw [line?, hlast, hd.line]
    exact Source.line?_ofText _ _ _ _
  have hexcerpt : (r.reportOn d).excerpt? style = (r.line? d).bind (d.excerpt? style) := by
    rw [Report.excerpt?, reportOn, hd.internal]
    rfl
  rw [hexcerpt, hlookup, ← hline]
  cases (Text.lines source.toList)[(source.toList.take offset).count '\n']? with
  | some line => rfl
  | none =>
    -- The text ends with a newline, and the error is behind it: there is no line to search in.
    have hnone : d.position? [] = none := by
      have hnowhere : ∀ n, ¬ d.target <+: ([] : List Char).drop n := by simp [hne]
      rw [Diagnostic.position?_eq hd.column, if_neg (hnowhere column),
        Text.find?_eq_none_iff.2 hnowhere]
      rfl
    exact (Diagnostic.excerpt?_of_position?_eq_none hnone style).symm

theorem showsOn (hlast : r.sources.head? = some (.ofText path source first))
    (hlines : NewlinesOnly source.toList) (hd : d.IsOn source.toList first column offset)
    (hne : d.target ≠ []) (style : Style) :
    r.ShowsOn style d (lineAt source.toList offset) column := by
  have hexcerpt := excerpt?_reportOn hlast hlines hd hne style
  have hshows (excerpt : Option String)
      (h : d.excerpt? style (lineAt source.toList offset) = excerpt) :
      r.Shows style d ((excerpt.map (· ++ "\n")).getD "") := by
    rw [h] at hexcerpt
    rw [Shows, report, List.map_singleton, Report.text, hexcerpt]
    cases excerpt <;> rfl
  have hposition := Diagnostic.position?_eq hd.column (lineAt source.toList offset)
  refine ⟨fun h => ?_, fun h n hn hleft => ?_, fun h => ?_⟩
  · rw [if_pos h] at hposition
    exact hshows _ (Diagnostic.excerpt?_of_position? hne hposition h style)
  · rw [if_neg h, Text.find?_eq_some_iff.2 ⟨hn, hleft⟩] at hposition
    exact hshows _ (Diagnostic.excerpt?_of_position? hne hposition hn style)
  · rw [if_neg (h column), Text.find?_eq_none_iff.2 h] at hposition
    exact hshows _ (Diagnostic.excerpt?_of_position?_eq_none hposition style)

end Reporter

end Lox
