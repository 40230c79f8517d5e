import LoxInterpreter.Proofs.Shell.Conversation
import LoxInterpreter.Proofs.Text.Lines

/-!
The lines of what is typed. A line of code is what is left of a typed line without the white space
around it, and there is something left. If no typed line has a character that ends lines, then the
lines of a block are just the lines of its text, in the same order.
-/

namespace Lox

namespace Text

theorem trimEnd_cons (c : Char) (text : List Char) :
    trimEnd (c :: text) =
      if (trimEnd text).isEmpty && isBlank c then [] else c :: trimEnd text := rfl

theorem trimEnd_isPrefix (text : List Char) : trimEnd text <+: text := by
  induction text with
  | nil => exact List.nil_prefix
  | cons c text ih =>
    rw [trimEnd_cons]
    split
    · exact List.nil_prefix
    · exact List.cons_prefix_cons.2 ⟨rfl, ih⟩

/-- White space is taken from the end only up to a character that is none. -/
theorem trimEnd_append_cons {c : Char} (h : isBlank c = false) (text rest : List Char) :
    trimEnd (text ++ c :: rest) = text ++ c :: trimEnd rest := by
  induction text with
  | nil => simp [trimEnd_cons, h]
  | cons d text ih => simp [trimEnd_cons, ih]

theorem trim_sublist (text : List Char) : (trim text).Sublist text :=
  (trimEnd_isPrefix _).sublist.trans (List.dropWhile_sublist _)

end Text

namespace Shell

structure IsLine (line : String) : Prop where
  ne_nil : line.toList ≠ []
  oneLine : OneLine line.toList

instance : DecidablePred IsLine := fun line =>
  decidable_of_iff (line.toList ≠ [] ∧ OneLine line.toList)
    ⟨fun h => ⟨h.1, h.2⟩, fun h => ⟨h.ne_nil, h.oneLine⟩⟩

/-- A word stands for no code. -/
theorem Command.of_ofWord? {word : List Char} {command : Command}
    (h : ofWord? word = some command) : command = .help ∨ command = .exit ∨ command = .finish := by
  unfold ofWord? at h
  split at h <;> cases h <;> simp

theorem Command.code_of_ofLine {line text : String} (h : ofLine line = .code text) :
    text = String.ofList (Text.trim line.toList) ∧ Text.trim line.toList ≠ [] := by
  unfold ofLine at h
  split at h
  · cases h
  · cases h
  next trimmed hne hquestion =>
    refine ⟨?_, hne⟩
    cases hword : ofWord? ((Text.trim line.toList).takeWhile Scan.isWordCharacter) with
    | none =>
      rw [hword] at h
      cases h
      rfl
    | some command =>
      rw [hword] at h
      rcases of_ofWord? hword with rfl | rfl | rfl <;> cases h

theorem Command.nothing_of_ofLine {line : String} (h : ofLine line = .nothing) :
    Text.trim line.toList = [] := by
  unfold ofLine at h
  split at h
  · assumption
  · cases h
  · cases hword : ofWord? ((Text.trim line.toList).takeWhile Scan.isWordCharacter) with
    | none =>
      rw [hword] at h
      cases h
    | some command =>
      rw [hword] at h
      rcases of_ofWord? hword with rfl | rfl | rfl <;> cases h

theorem IsLine.of_ofLine {line text : String} (h : Command.ofLine line = .code text)
    (hline : OneLine line.toList) : IsLine text := by
  obtain ⟨rfl, hne⟩ := Command.code_of_ofLine h
  rw [← String.toList_ofList (l := Text.trim line.toList)] at hne
  refine ⟨hne, fun c hc => hline c ((Text.trim_sublist _).subset ?_)⟩
  rwa [String.toList_ofList] at hc

theorem isLine_of_mem_codeOf {lines : List String} (h : ∀ line ∈ lines, OneLine line.toList) :
    ∀ text ∈ codeOf lines, IsLine text := by
  intro text htext
  obtain ⟨line, hline, hcode⟩ := List.mem_filterMap.1 htext
  cases hcommand : Command.ofLine line with
  | code text' =>
    rw [hcommand] at hcode
    cases hcode
    exact .of_ofLine hcommand (h line hline)
  | nothing | help | exit | finish =>
    rw [hcommand] at hcode
    cases hcode

variable {block : List String} {line : String}

theorem toList_joined_cons (line next : String) (lines : List String) :
    (joined (line :: next :: lines)).toList =
      line.toList ++ '\n' :: (joined (next :: lines)).toList := by
  unfold joined
  rw [String.intercalate_cons_cons, String.toList_append, String.toList_append]
  simp

theorem lines_joined (hne : block ≠ []) (h : ∀ line ∈ block, IsLine line) :
    Text.lines (joined block).toList = block.map String.toList := by
  induction block with
  | nil => exact absurd rfl hne
  | cons line block ih =>
    obtain ⟨hline, hblock⟩ := List.forall_mem_cons.1 h
    cases block with
    | nil => exact Text.lines_of_oneLine hline.oneLine hline.ne_nil
    | cons next block =>
      rw [toList_joined_cons, Text.lines_append_newline hline.oneLine,
        ih (List.cons_ne_nil _ _) hblock]
      rfl

def linesOf (text : List Char) : List String := (Text.lines text).map String.ofList

theorem linesOf_last {last : List Char} (h : OneLine last) (hne : last ≠ []) :
    linesOf last = [String.ofList last] := by
  rw [linesOf, Text.lines_of_oneLine h hne]
  rfl

theorem linesOf_next {line : List Char} (h : OneLine line) (rest : List Char) :
    linesOf (line ++ '\n' :: rest) = String.ofList line :: linesOf rest := by
  rw [linesOf, Text.lines_append_newline h]
  rfl

theorem oneLine_of_mem_linesOf {text : List Char} (h : line ∈ linesOf text) :
    OneLine line.toList := by
  obtain ⟨chars, hchars, rfl⟩ := List.mem_map.1 h
  rw [String.toList_ofList]
  exact Text.oneLine_of_mem_lines hchars

theorem linesOf_joined (hne : block ≠ []) (h : ∀ line ∈ block, IsLine line) :
    linesOf (joined block).toList = block := by
  rw [linesOf, lines_joined hne h, List.map_map]
  simp [Function.comp_def]

theorem linesOf_of_eq_joined {text : String} (htext : text = joined block) (hne : block ≠ [])
    (h : ∀ line ∈ block, IsLine line) : linesOf text.toList = block := by
  rw [htext, linesOf_joined hne h]

/-- If nothing else ends lines, a text that does not end with a newline is made of its lines. -/
theorem joined_linesOf {text closing : List Char} (h : NewlinesOnly text)
    (hclosing : OneLine closing) (hne : closing ≠ []) :
    joined (linesOf (text ++ closing)) = String.ofList (text ++ closing) := by
  refine Text.lines_induction (fun line hline => ?_) (fun line rest hline _ ih => ?_) h
  · rw [linesOf_last (hline.append hclosing) (by simp [hne])]
    rfl
  · have hlines : linesOf (rest ++ closing) ≠ [] := by
      intro hnil
      rw [hnil] at ih
      exact absurd (congrArg String.toList ih) (by simp [joined, hne])
    rw [List.append_assoc, List.cons_append, linesOf_next hline, joined,
      String.intercalate_cons_of_ne_nil hlines, ← joined, ih]
    simp [String.ofList_append, String.append_assoc]

end Shell

end Lox
