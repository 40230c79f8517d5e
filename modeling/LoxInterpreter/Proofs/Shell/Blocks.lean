import LoxInterpreter.Shell

/-!
Blocks of lines. The lines of code that are typed to a shell make a text together as soon as that
is complete; until then they wait. So the lines fall into blocks, one behind the other, and lines
that wait at the end. A block is as short as can be: the text is complete after its last line, and
after no line before.
-/

namespace Lox

namespace Shell

def joined (lines : List String) : String := "\n".intercalate lines

def ended (lines : List String) : String := String.join (lines.map (· ++ "\n"))

/-- After none of the lines there is a complete text. -/
def Waits (lines : List String) : Prop :=
  ∀ first, first <+: lines → first ≠ [] → continues (joined first) = true

structure IsBlock (lines : List String) : Prop where
  ne_nil : lines ≠ []
  complete : continues (joined lines) = false
  shortest : ∀ first, first <+: lines → first ≠ [] → first ≠ lines →
    continues (joined first) = true

def numbered (count : Nat) : List (List String) → List Submission
  | [] => []
  | block :: blocks => ⟨joined block, count + 1⟩ :: numbered (count + block.length) blocks

section

variable {lines more : List String} {line : String}

theorem joined_concat (lines : List String) (line : String) :
    joined (lines ++ [line]) = ended lines ++ line := by
  induction lines with
  | nil => simp [joined, ended]
  | cons first lines ih =>
    have hne : lines ++ [line] ≠ [] := by simp
    rw [List.cons_append, joined, String.intercalate_cons_of_ne_nil hne, ← joined, ih]
    simp [ended, String.append_assoc]

theorem ended_concat (lines : List String) (line : String) :
    ended (lines ++ [line]) = joined (lines ++ [line]) ++ "\n" := by
  rw [joined_concat]
  simp [ended, String.join_append, String.append_assoc]

theorem ended_of_ne_nil (h : lines ≠ []) : ended lines = joined lines ++ "\n" := by
  rw [← List.dropLast_concat_getLast h]
  exact ended_concat _ _

theorem joined_append (hlines : lines ≠ []) (hmore : more ≠ []) :
    joined (lines ++ more) = joined lines ++ "\n" ++ joined more :=
  String.intercalate_append_of_ne_nil hlines hmore

theorem ended_eq_empty_iff : ended lines = "" ↔ lines = [] := by
  constructor
  · intro h
    cases lines with
    | nil => rfl
    | cons line lines => simp [ended] at h
  · rintro rfl
    rfl

/-- Texts that are joined in turn make the text of all their lines. -/
theorem joined_map_joined {blocks : List (List String)} (h : ∀ block ∈ blocks, block ≠ []) :
    joined (blocks.map joined) = joined blocks.flatten := by
  induction blocks with
  | nil => rfl
  | cons block blocks ih =>
    obtain ⟨hblock, hblocks⟩ := List.forall_mem_cons.1 h
    cases blocks with
    | nil => simp [joined]
    | cons next blocks =>
      have hflatten : (next :: blocks).flatten ≠ [] := by
        simp [List.flatten_cons, hblocks next List.mem_cons_self]
      rw [List.flatten_cons, joined_append hblock hflatten, ← ih hblocks]
      exact String.intercalate_cons_cons

theorem numbered_append (count : Nat) (blocks : List (List String)) (block : List String) :
    numbered count (blocks ++ [block]) =
      numbered count blocks ++ [⟨joined block, count + blocks.flatten.length + 1⟩] := by
  induction blocks generalizing count with
  | nil => simp [numbered]
  | cons first blocks ih => simp [numbered, ih, Nat.add_assoc]

theorem map_text_numbered (count : Nat) (blocks : List (List String)) :
    (numbered count blocks).map Submission.text = blocks.map joined := by
  induction blocks generalizing count with
  | nil => rfl
  | cons block blocks ih => simp [numbered, ih]

theorem waits_nil : Waits [] :=
  fun _ hfirst hne => absurd (List.prefix_nil.1 hfirst) hne

/-- Lines that wait go on waiting with one more. -/
theorem Waits.concat (h : Waits lines) (hline : continues (joined (lines ++ [line])) = true) :
    Waits (lines ++ [line]) := by
  intro first hfirst hne
  rcases List.prefix_concat_iff.1 hfirst with rfl | hfirst
  · exact hline
  · exact h first hfirst hne

/-- Lines that wait make a block with the line that completes them. -/
theorem Waits.isBlock (h : Waits lines) (hline : continues (joined (lines ++ [line])) = false) :
    IsBlock (lines ++ [line]) where
  ne_nil := by simp
  complete := hline
  shortest := by
    intro first hfirst hne hproper
    rcases List.prefix_concat_iff.1 hfirst with heq | hfirst
    · exact absurd heq hproper
    · exact h first hfirst hne

end

structure Gathered (blocks : List (List String)) (waiting : List String) (shell : Shell) :
    Prop where
  isBlock : ∀ block ∈ blocks, IsBlock block
  waits : Waits waiting
  pending : shell.pending = ended waiting
  lineCount : shell.lineCount = (blocks.flatten ++ waiting).length
  pendingLine : waiting ≠ [] → shell.pendingLine = blocks.flatten.length + 1
  prompt : shell.prompt = .continuation ↔ waiting ≠ []

def unfinished (shell : Shell) : List String :=
  if shell.pending = "" then [] else [String.ofList shell.pending.toList.dropLast]

variable {blocks : List (List String)} {waiting : List String} {shell : Shell}

namespace Gathered

/-- The session has no part in it. -/
theorem with_session (h : Gathered blocks waiting shell) (s : Session) :
    Gathered blocks waiting { shell with session := s } :=
  ⟨h.isBlock, h.waits, h.pending, h.lineCount, h.pendingLine, h.prompt⟩

theorem pending_eq_empty_iff (h : Gathered blocks waiting shell) :
    shell.pending = "" ↔ waiting = [] := by
  rw [h.pending, ended_eq_empty_iff]

theorem unfinished_eq (h : Gathered blocks waiting shell) :
    shell.unfinished = if waiting = [] then [] else [joined waiting] := by
  unfold unfinished
  by_cases hwaiting : waiting = []
  · rw [if_pos (h.pending_eq_empty_iff.2 hwaiting), if_pos hwaiting]
  · rw [if_neg (mt h.pending_eq_empty_iff.1 hwaiting), if_neg hwaiting, h.pending,
      ended_of_ne_nil hwaiting, String.toList_append]
    have hlast : ((joined waiting).toList ++ "\n".toList).dropLast = (joined waiting).toList :=
      List.dropLast_concat
    rw [hlast, String.ofList_toList]

/-- The number of the first line of the text that the next line belongs to. -/
theorem first_eq (h : Gathered blocks waiting shell) :
    (if shell.pending.isEmpty then shell.lineCount + 1 else shell.pendingLine) =
      blocks.flatten.length + 1 := by
  by_cases hwaiting : waiting = []
  · subst hwaiting
    have hpending : shell.pending = "" := h.pending
    rw [hpending, if_pos (by rfl), h.lineCount, List.append_nil]
  · have hpending : shell.pending.isEmpty = false := by
      rw [h.pending]
      simpa [ended_eq_empty_iff] using hwaiting
    rw [hpending, if_neg (by simp), h.pendingLine hwaiting]

/-- What becomes of a line of code depends on the text that it makes with those that wait. -/
theorem collect_eq (h : Gathered blocks waiting shell) (line : String) :
    let lines := waiting ++ [line]
    let first := blocks.flatten.length + 1
    shell.collect line =
      if continues (joined lines) then
        (none, { shell with
          pending := ended lines, pendingLine := first
          lineCount := shell.lineCount + 1, prompt := .continuation })
      else
        (some ⟨joined lines, first⟩, { shell with
          pending := "", pendingLine := first
          lineCount := shell.lineCount + 1, prompt := .primary }) := by
  intro lines first
  have htext : shell.pending ++ line = joined lines := by rw [h.pending, joined_concat]
  unfold collect
  dsimp only
  rw [h.first_eq, htext, ended_concat]

/-- A line after which the text is not complete waits with the others. -/
theorem collect_of_continues (h : Gathered blocks waiting shell) {line : String}
    (hline : continues (joined (waiting ++ [line])) = true) :
    (shell.collect line).1 = none ∧
      Gathered blocks (waiting ++ [line]) (shell.collect line).2 := by
  rw [h.collect_eq, if_pos hline]
  refine ⟨rfl, h.isBlock, h.waits.concat hline, rfl, ?_, fun _ => rfl, by simp⟩
  simp [h.lineCount, Nat.add_assoc]

/-- A line after which the text is complete makes a block with those that waited. -/
theorem collect_of_complete (h : Gathered blocks waiting shell) {line : String}
    (hline : continues (joined (waiting ++ [line])) = false) :
    (shell.collect line).1 = some ⟨joined (waiting ++ [line]), blocks.flatten.length + 1⟩ ∧
      Gathered (blocks ++ [waiting ++ [line]]) [] (shell.collect line).2 := by
  rw [h.collect_eq, if_neg (by simp [hline])]
  refine ⟨rfl, ?_, waits_nil, rfl, ?_, fun hne => absurd rfl hne, by simp⟩
  · intro block hblock
    rcases List.mem_append.1 hblock with hblock | hblock
    · exact h.isBlock block hblock
    · exact List.mem_singleton.1 hblock ▸ h.waits.isBlock hline
  · simp [h.lineCount, Nat.add_assoc]

end Gathered

end Shell

end Lox
