import LoxInterpreter.Text.Lines
import Mathlib.Data.List.TakeWhile

/-!
The lines of a text. If no other character of a text ends lines, then it is a single line, or a line
with a newline behind it and the text that follows, and its lines are just those.
-/

namespace Lox

def OneLine (text : List Char) : Prop := ∀ c ∈ text, Text.isLineEnd c = false

/-- A text whose lines are ended by newlines and by no other character. -/
def NewlinesOnly (text : List Char) : Prop := ∀ c ∈ text, Text.isLineEnd c = true → c = '\n'

-- The characters of the text are tried, and not all that there are.
instance : DecidablePred OneLine :=
  List.decidableBAll fun c => Text.isLineEnd c = false

instance : DecidablePred NewlinesOnly :=
  List.decidableBAll fun c => Text.isLineEnd c = true → c = '\n'

theorem OneLine.not_mem_newline {text : List Char} (h : OneLine text) : '\n' ∉ text :=
  fun hmem => absurd (h _ hmem) (by decide)

theorem OneLine.append {text more : List Char} (h : OneLine text) (hmore : OneLine more) :
    OneLine (text ++ more) := fun c hc => (List.mem_append.1 hc).elim (h c) (hmore c)

theorem NewlinesOnly.after {text more : List Char} (h : NewlinesOnly more) (htext : OneLine text) :
    NewlinesOnly (text ++ more) := by
  intro c hc hend
  rcases List.mem_append.1 hc with hc | hc
  · rw [htext c hc] at hend
    cases hend
  · exact h c hc hend

theorem NewlinesOnly.not_mem_return {text : List Char} (h : NewlinesOnly text) : '\r' ∉ text :=
  fun hmem => absurd (h _ hmem (by decide)) (by decide)

namespace Text

/-- A text is a single line, or a line with a newline behind it and then more text. -/
@[elab_as_elim]
theorem lines_induction {motive : List Char → Prop}
    (last : ∀ line, OneLine line → motive line)
    (next : ∀ line rest, OneLine line → NewlinesOnly rest → motive rest →
      motive (line ++ '\n' :: rest))
    {text : List Char} (h : NewlinesOnly text) : motive text := by
  -- `line` is what was passed of the first line.
  suffices hall : ∀ line, OneLine line → motive (line ++ text) from hall [] (by simp [OneLine])
  induction text with
  | nil => exact fun line hline => (List.append_nil line).symm ▸ last line hline
  | cons c text ih =>
    obtain ⟨hc, htext⟩ := List.forall_mem_cons.1 h
    intro line hline
    cases hend : isLineEnd c with
    | true =>
      rw [hc hend]
      exact next line text hline htext (ih htext [] (by simp [OneLine]))
    | false =>
      have hmore := ih htext (line ++ [c]) (hline.append (by simpa [OneLine] using hend))
      rwa [List.append_assoc, List.singleton_append] at hmore

variable {line : List Char}

/-- The first line ends at the first newline if nothing in it ends lines. -/
theorem lines_append_newline (h : OneLine line) (rest : List Char) :
    lines (line ++ '\n' :: rest) = line :: lines rest := by
  have hall : ∀ c ∈ line, (!isLineEnd c) = true := fun c hc => by simp [h c hc]
  have htake : (line ++ '\n' :: rest).takeWhile (!isLineEnd ·) = line := by
    rw [List.takeWhile_append_of_pos hall]
    simp [isLineEnd, lineEnds]
  have hdrop : dropLine (line ++ '\n' :: rest) = rest := by
    unfold dropLine
    rw [List.dropWhile_append_of_pos hall]
    simp [isLineEnd, lineEnds]
  obtain ⟨c, cs, hcs⟩ : ∃ c cs, line ++ '\n' :: rest = c :: cs := by
    cases line with
    | nil => exact ⟨_, _, rfl⟩
    | cons c cs => exact ⟨_, _, rfl⟩
  rw [hcs, lines, ← hcs, htake, hdrop]

theorem lines_of_oneLine (h : OneLine line) (hne : line ≠ []) : lines line = [line] := by
  have hall : ∀ c ∈ line, (!isLineEnd c) = true := fun c hc => by simp [h c hc]
  obtain ⟨c, cs, rfl⟩ := List.exists_cons_of_ne_nil hne
  have hdrop : dropLine (c :: cs) = [] := by
    unfold dropLine
    rw [List.dropWhile_eq_nil_iff.2 hall]
  rw [lines, hdrop, lines, List.takeWhile_eq_self_iff.2 hall]

theorem oneLine_of_mem_lines {text : List Char} (h : line ∈ lines text) : OneLine line := by
  fun_induction lines text with
  | case1 => cases h
  | case2 c cs ih =>
    rcases List.mem_cons.1 h with rfl | h
    · exact fun d hd => by simpa using List.mem_takeWhile_imp hd
    · exact ih h

end Text

end Lox
