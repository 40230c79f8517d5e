import LoxInterpreter.Proofs.Program.StringPrograms
import LoxInterpreter.Proofs.Shell.SourceLines

/-!
Strings that are typed over several lines. A file keeps every character of a string. The shell takes
the lines of a string as it takes all others: it strips them of white space, passes over those that
are empty, and obeys those that are commands. So a string comes out of the shell as it was typed
exactly if each of its lines is a line of code and nothing is stripped of it.
-/

namespace Lox

open Session Work

namespace Shell

def Shows (clock : Nat → Float) (lines : List String) (events : List Event) : Prop :=
  ∃ stops shell, feedAll lines (begin {} clock) = .ok stops shell ∧
    shell.session.log.toList = events

structure Gathers (clock : Nat → Float) (waiting : List String) (shown : List Event)
    (shell : Shell) : Prop where
  gathered : Gathered [] waiting shell
  session : shell.session = (begin {} clock).session.logging shown

/-- Lines wait for the end of a string, which has `content` so far. Nothing else was typed but
commands. -/
structure IsOpen (clock : Nat → Float) (waiting : List String) (content : String)
    (shown : List Event) (shell : Shell) : Prop where
  gathers : Gathers clock waiting shown shell
  ne_nil : waiting ≠ []
  text : joined waiting = "print \"" ++ content
  noQuote : '"' ∉ content.toList
  asides : ∀ e ∈ shown, IsAside e

/-- What becomes of lines the last of which closes a string, after `waiting` and with `shown` shown
before: the string is printed, or a command stands where the string should go on. -/
inductive Closes (waiting : List String) (shown : List Event) (lines : List String) :
    EStateM.Result Interrupt Shell Bool → Prop
  | printed {content : String} {asides : List Event} {shell : Shell}
      (htext : joined (waiting ++ codeOf lines) = printing content)
      (hlog : shell.session.log.toList = asides ++ [.output content])
      (hasides : ∀ e ∈ asides, IsAside e)
      (hcode : (∀ line ∈ lines, ¬ IsCommand line) → asides = shown) :
      Closes waiting shown lines (.ok false shell)
  | interrupted {stops : Bool} {shell : Shell} (hsome : ∃ line ∈ lines, IsCommand line)
      (hlog : ∀ e ∈ shell.session.log.toList, IsAside e) :
      Closes waiting shown lines (.ok stops shell)

variable {clock : Nat → Float} {waiting : List String} {shown : List Event} {shell : Shell}
  {line text content : String}

/-- A line before the others: if it is a command, something can have been shown for it. -/
theorem Closes.cons {shown' : List Event} {lines : List String}
    {result : EStateM.Result Interrupt Shell Bool}
    (h : Closes (waiting ++ codeOf [line]) shown' lines result)
    (hline : ¬ IsCommand line → shown' = shown) : Closes waiting shown (line :: lines) result := by
  cases h with
  | printed htext hlog hasides hcode =>
    refine .printed ?_ hlog hasides fun hnone => ?_
    · rwa [codeOf_cons, ← List.append_assoc]
    · obtain ⟨hfirst, hothers⟩ := List.forall_mem_cons.1 hnone
      exact (hcode hothers).trans (hline hfirst)
  | interrupted hsome hlog =>
    obtain ⟨other, hother, hcommand⟩ := hsome
    exact .interrupted ⟨other, List.mem_cons_of_mem _ hother, hcommand⟩ hlog

theorem oneLine_opening : OneLine "print \"".toList := by decide

theorem oneLine_closing : OneLine ['"', ';'] := by decide

theorem gathers_begin (clock : Nat → Float) : Gathers clock [] [] (begin {} clock) := by
  refine ⟨⟨by simp, waits_nil, rfl, rfl, by simp, ?_⟩, (logging_nil _).symm⟩
  have hprompt : Prompt.primary ≠ .continuation := by decide
  exact iff_of_false hprompt (by simp)

namespace Gathers

theorem log (h : Gathers clock waiting shown shell) : shell.session.log.toList = shown := by
  rw [h.session, toList_log_logging]
  rfl

/-- Other events can be shown, and no line need be typed for it. -/
theorem logging (h : Gathers clock waiting shown shell) (events : List Event) :
    Gathers clock waiting (shown ++ events)
      { shell with session := shell.session.logging events } :=
  ⟨h.gathered.with_session _, by rw [h.session, logging_logging]⟩

/-- A line that leaves the string open waits. -/
theorem feed_of_open (h : Gathers clock waiting shown shell)
    (hline : Command.ofLine line = .code text)
    (htext : joined (waiting ++ [text]) = "print \"" ++ content) (hquote : '"' ∉ content.toList) :
    ∃ next, feed line shell = .ok false next ∧ Gathers clock (waiting ++ [text]) shown next := by
  obtain ⟨hnone, hgathered⟩ :=
    h.gathered.collect_of_continues (htext ▸ continues_of_open hquote)
  exact ⟨_, feed_of_none hline hnone, hgathered, (session_collect shell text).trans h.session⟩

/-- When a line closes the string, it is printed. -/
theorem feed_of_closed (h : Gathers clock waiting shown shell)
    (hline : Command.ofLine line = .code text)
    (htext : joined (waiting ++ [text]) = printing content) (hquote : '"' ∉ content.toList) :
    ∃ next, feed line shell = .ok false next ∧
      next.session.log.toList = shown ++ [.output content] := by
  obtain ⟨hsome, -⟩ := h.gathered.collect_of_complete (htext ▸ continues_printing hquote)
  rw [htext] at hsome
  have hplain : shell.session.Plain := by
    rw [h.session]
    exact ⟨rfl, rfl, rfl, rfl, rfl⟩
  obtain ⟨tokens, haccepts, hdone, hlog⟩ := hplain.exists_printing hquote 1
  have hsubmit : guarded (submit ⟨printing content, 1⟩) shell.session = .ok () _ :=
    guarded_submit_of_done hplain.queue haccepts hdone
  exact ⟨_, feed_of_ok hline hsome hsubmit, h.log ▸ hlog⟩

end Gathers

/-! ### What the shell makes of the lines of a string -/

/-- What stays of a line that begins with the opening of a string. -/
theorem Command.ofLine_opening (rest : List Char) :
    ofLine (String.ofList ("print \"".toList ++ rest)) =
      .code ("print \"" ++ String.ofList (Text.trimEnd rest)) := by
  have htrim : Text.trim ("print \"".toList ++ rest) = "print \"".toList ++ Text.trimEnd rest :=
    Text.trimEnd_append_cons (by decide) "print ".toList rest
  have htext : String.ofList ("print \"".toList ++ Text.trimEnd rest) =
      "print \"" ++ String.ofList (Text.trimEnd rest) := by
    rw [String.ofList_append, String.ofList_toList]
  have hword : ofWord? "print".toList = none := by decide
  rw [← htext, ofLine, String.toList_ofList, htrim]
  -- The first word is `print` whatever the rest is.
  change (ofWord? "print".toList).getD _ = _
  rw [hword]
  rfl

/-- What stays of a line that ends with the closing of a string. -/
theorem trim_closing (content : List Char) :
    Text.trim (content ++ ['"', ';']) = content.dropWhile Text.isBlank ++ ['"', ';'] := by
  have hdrop : (content ++ ['"', ';']).dropWhile Text.isBlank =
      content.dropWhile Text.isBlank ++ ['"', ';'] := by
    rw [List.dropWhile_append]
    split
    next hnil =>
      rw [List.isEmpty_iff.1 hnil]
      rfl
    next => rfl
  rw [Text.trim, hdrop, Text.trimEnd_append_cons (by decide)]
  rfl

namespace IsOpen

/-- One more line of the string. -/
theorem joined_concat (h : IsOpen clock waiting content shown shell) (line : String) :
    joined (waiting ++ [line]) = "print \"" ++ (content ++ "\n" ++ line) := by
  rw [joined_append h.ne_nil (by simp), h.text, String.append_assoc, String.append_assoc,
    String.append_assoc]
  rfl

/-- The last line of the string. -/
theorem joined_closing (h : IsOpen clock waiting content shown shell) (last : List Char) :
    joined (waiting ++ [String.ofList (last ++ ['"', ';'])]) =
      printing (content ++ "\n" ++ String.ofList last) := by
  rw [h.joined_concat, String.ofList_append, printing]
  simp only [String.append_assoc]

theorem noQuote_concat (h : IsOpen clock waiting content shown shell) {more : List Char}
    (hmore : '"' ∉ more) : '"' ∉ (content ++ "\n" ++ String.ofList more).toList := by
  have hcontent := h.noQuote
  simp [hcontent, hmore]

/-- While a string waits, commands leave it as it is. -/
theorem logging (h : IsOpen clock waiting content shown shell) {events : List Event}
    (hevents : ∀ e ∈ events, IsAside e) :
    IsOpen clock waiting content (shown ++ events)
      { shell with session := shell.session.logging events } :=
  ⟨h.gathers.logging events, h.ne_nil, h.text, h.noQuote,
    List.forall_mem_append.2 ⟨h.asides, hevents⟩⟩

/-- A line inside a string waits if it is code, and leaves the string as it is if not. -/
theorem feed_inside (h : IsOpen clock waiting content shown shell) (hquote : '"' ∉ line.toList) :
    ∃ stops next content' shown', feed line shell = .ok stops next ∧
      IsOpen clock (waiting ++ codeOf [line]) content' shown' next ∧
      (¬ IsCommand line → stops = false ∧ shown' = shown) := by
  rcases isCommand_or line with hcommand | hnothing | ⟨text, hcode⟩
  · obtain ⟨stops, events, hfeed, hevents⟩ := feed_of_isCommand hcommand shell
    rw [codeOf_of_isCommand hcommand, List.append_nil]
    exact ⟨stops, _, content, _, hfeed, h.logging hevents, fun hno => absurd hcommand hno⟩
  · rw [codeOf_singleton, hnothing]
    refine ⟨false, shell, content, shown, feed_of_nothing hnothing, ?_, fun _ => ⟨rfl, rfl⟩⟩
    simpa [Command.code?] using h
  · obtain ⟨rfl, -⟩ := Command.code_of_ofLine hcode
    have htext := h.joined_concat (String.ofList (Text.trim line.toList))
    have hnoQuote := h.noQuote_concat fun hmem => hquote ((Text.trim_sublist _).subset hmem)
    obtain ⟨next, hfeed, hnext⟩ := h.gathers.feed_of_open hcode htext hnoQuote
    rw [codeOf_singleton, hcode]
    have hopen : IsOpen clock _ _ shown next := ⟨hnext, by simp, htext, hnoQuote, h.asides⟩
    exact ⟨false, next, _, shown, hfeed, hopen, fun _ => ⟨rfl, rfl⟩⟩

/-- The line that closes a string. -/
theorem closes_last (h : IsOpen clock waiting content shown shell) {last : List Char}
    (hquote : '"' ∉ last) :
    let line := String.ofList (last ++ ['"', ';'])
    Closes waiting shown [line] (feedAll [line] shell) := by
  intro line
  have hstripped : Text.trim line.toList = last.dropWhile Text.isBlank ++ ['"', ';'] := by
    rw [String.toList_ofList, trim_closing]
  rcases isCommand_or line with hcommand | hnothing | ⟨text, hcode⟩
  · obtain ⟨stops, events, hfeed, hevents⟩ := feed_of_isCommand hcommand shell
    have hlog := (h.logging hevents).asides
    rw [← (h.logging hevents).gathers.log] at hlog
    rw [feedAll_cons hfeed]
    cases stops <;> exact .interrupted ⟨line, List.mem_singleton_self line, hcommand⟩ hlog
  · have hnil := Command.nothing_of_ofLine hnothing
    simp [hstripped] at hnil
  · obtain ⟨rfl, -⟩ := Command.code_of_ofLine hcode
    rw [hstripped] at hcode
    have htext := h.joined_closing (last.dropWhile Text.isBlank)
    have hrest : '"' ∉ last.dropWhile Text.isBlank := fun hmem =>
      hquote ((List.dropWhile_sublist _).subset hmem)
    have hnoQuote := h.noQuote_concat hrest
    obtain ⟨next, hfeed, hlog⟩ := h.gathers.feed_of_closed hcode htext hnoQuote
    rw [feedAll_cons hfeed]
    refine .printed ?_ hlog h.asides fun _ => rfl
    rw [codeOf_singleton, hcode]
    exact htext

/-- All lines of what is left of a string. -/
theorem closes {rest : List Char} (hends : NewlinesOnly rest) :
    ∀ waiting shown content shell, '"' ∉ rest → IsOpen clock waiting content shown shell →
      Closes waiting shown (linesOf (rest ++ ['"', ';']))
        (feedAll (linesOf (rest ++ ['"', ';'])) shell) := by
  refine Text.lines_induction (fun last hlast => ?_) (fun line rest hline _ ih => ?_) hends
  · intro waiting shown content shell hquote h
    rw [linesOf_last (hlast.append oneLine_closing) (by simp)]
    exact h.closes_last hquote
  · intro waiting shown content shell hquote h
    simp only [List.mem_append, List.mem_cons, not_or] at hquote
    rw [List.append_assoc, List.cons_append, linesOf_next hline]
    have hinside : '"' ∉ (String.ofList line).toList := by simpa using hquote.1
    obtain ⟨stops, next, content', shown', hfeed, hnext, hcode⟩ := h.feed_inside hinside
    rw [feedAll_cons hfeed]
    cases stops with
    | false => exact (ih _ _ _ _ hquote.2.2 hnext).cons fun hno => (hcode hno).2
    | true =>
      have hcommand : IsCommand (String.ofList line) :=
        Classical.byContradiction fun hno => Bool.noConfusion (hcode hno).1
      exact .interrupted ⟨_, List.mem_cons_self, hcommand⟩ (hnext.gathers.log ▸ hnext.asides)

end IsOpen

/-- A program on one line. -/
theorem closes_line {line : List Char} (hquote : '"' ∉ line) (clock : Nat → Float) :
    let program := String.ofList ("print \"".toList ++ (line ++ ['"', ';']))
    Closes [] [] [program] (feedAll [program] (begin {} clock)) := by
  intro program
  have htrim : Text.trimEnd (line ++ ['"', ';']) = line ++ ['"', ';'] :=
    Text.trimEnd_append_cons (by decide) line [';']
  have hcode := Command.ofLine_opening (line ++ ['"', ';'])
  have htext : "print \"" ++ String.ofList (line ++ ['"', ';']) =
      printing (String.ofList line) := by
    rw [String.ofList_append, ← String.append_assoc]
    rfl
  rw [htrim, htext] at hcode
  obtain ⟨next, hfeed, hlog⟩ :=
    (gathers_begin clock).feed_of_closed hcode rfl (by simpa using hquote)
  rw [feedAll_cons hfeed]
  refine .printed ?_ hlog (by simp) fun _ => rfl
  rw [codeOf_singleton, hcode]
  rfl

/-- A program on more than one line. -/
theorem closes_lines {line rest : List Char} (hline : '"' ∉ line) (hrest : '"' ∉ rest)
    (hends : NewlinesOnly rest) (clock : Nat → Float) :
    let lines := String.ofList ("print \"".toList ++ line) :: linesOf (rest ++ ['"', ';'])
    Closes [] [] lines (feedAll lines (begin {} clock)) := by
  intro lines
  have hcode := Command.ofLine_opening line
  have hquote : '"' ∉ (String.ofList (Text.trimEnd line)).toList := by
    rw [String.toList_ofList]
    exact fun hmem => hline ((Text.trimEnd_isPrefix line).subset hmem)
  obtain ⟨next, hfeed, hnext⟩ := (gathers_begin clock).feed_of_open hcode rfl hquote
  have hopen : IsOpen clock _ _ [] next := ⟨hnext, by simp, rfl, hquote, by simp⟩
  have hcloses := IsOpen.closes hends _ _ _ _ hrest hopen
  have htyped : codeOf [String.ofList ("print \"".toList ++ line)] =
      ["print \"" ++ String.ofList (Text.trimEnd line)] := by
    rw [codeOf_singleton, hcode]
    rfl
  rw [← htyped] at hcloses
  rw [feedAll_cons hfeed]
  exact hcloses.cons fun _ => rfl

/-- All lines of the program. -/
theorem closes_printing {content : String} (hquote : '"' ∉ content.toList)
    (hends : NewlinesOnly content.toList) (clock : Nat → Float) :
    let lines := linesOf (printing content).toList
    Closes [] [] lines (feedAll lines (begin {} clock)) := by
  intro lines
  dsimp only [lines]
  rw [toList_printing, List.append_assoc]
  revert hquote
  refine Text.lines_induction (fun line hline => ?_) (fun line rest hline hrest _ => ?_) hends
  · intro hquote
    rw [linesOf_last (oneLine_opening.append (hline.append oneLine_closing)) (by simp)]
    exact closes_line hquote clock
  · intro hquote
    simp only [List.mem_append, List.mem_cons, not_or] at hquote
    rw [List.append_assoc, ← List.append_assoc, List.cons_append,
      linesOf_next (oneLine_opening.append hline)]
    exact closes_lines hquote.1 hquote.2.2 hrest clock

theorem quote_mem_helpText : '"' ∈ helpText.toList := by
  -- The first quote is in the first of the examples.
  unfold helpText
  simp only [String.toList_append, List.mem_append]
  refine Or.inl (Or.inr ?_)
  decide +kernel

/-- If the shell prints the string as it is, then each line was code, just as it is. -/
theorem code_of_shows {content : String} (hquote : '"' ∉ content.toList)
    (hends : NewlinesOnly content.toList)
    (h : Shows clock (linesOf (printing content).toList) [.output content]) :
    codeOf (linesOf (printing content).toList) = linesOf (printing content).toList := by
  obtain ⟨stops, shell, hfeed, hlog⟩ := h
  have hcloses := closes_printing hquote hends clock
  dsimp only at hcloses
  rw [hfeed] at hcloses
  cases hcloses with
  | @printed stripped asides _ htext hprinted =>
    -- Nothing but the string is shown, so it is the one that the lines of code make.
    have hsame : [] ++ [Event.output content] = asides ++ [.output stripped] :=
      hlog.symm.trans hprinted
    cases (List.append_inj' hsame rfl).2
    rw [List.nil_append] at htext
    have hne : codeOf (linesOf (printing content).toList) ≠ [] := by
      intro hnil
      rw [hnil] at htext
      exact absurd (congrArg String.toList htext) (by simp [toList_printing, joined])
    have hlines : ∀ line ∈ codeOf (linesOf (printing content).toList), IsLine line :=
      isLine_of_mem_codeOf fun line hline => oneLine_of_mem_linesOf hline
    rw [← linesOf_joined hne hlines, htext]
  | interrupted hsome hasides =>
    rw [hlog] at hasides
    rcases hasides _ List.mem_cons_self with hhelp | hempty
    · cases hhelp
      exact absurd quote_mem_helpText hquote
    · cases hempty
      have hlines : linesOf (printing "").toList = [printing ""] :=
        linesOf_last (by decide +kernel) (by decide +kernel)
      have hcode : Command.ofLine (printing "") = .code (printing "") := by decide +kernel
      obtain ⟨line, hline, hcommand⟩ := hsome
      rw [hlines] at hline
      cases List.mem_singleton.1 hline
      exact absurd hcommand (not_isCommand_of_code hcode)

/-- What the shell prints if no line is a command. -/
theorem exists_shows {content : String} (hquote : '"' ∉ content.toList)
    (hends : NewlinesOnly content.toList)
    (h : ∀ line ∈ linesOf (printing content).toList, ¬ IsCommand line) (clock : Nat → Float) :
    ∃ stripped, joined (codeOf (linesOf (printing content).toList)) = printing stripped ∧
      Shows clock (linesOf (printing content).toList) [.output stripped] := by
  have hcloses := closes_printing hquote hends clock
  dsimp only at hcloses
  generalize hfeed : feedAll (linesOf (printing content).toList) (begin {} clock) = result
    at hcloses
  cases hcloses with
  | printed htext hlog hasides hcode =>
    rw [hcode h] at hlog
    exact ⟨_, htext, _, _, hfeed, hlog⟩
  | interrupted hsome =>
    obtain ⟨line, hline, hcommand⟩ := hsome
    exact absurd hcommand (h line hline)

end Shell

open Shell

/-- A program that prints a string, with newlines in it or not. Run from a file, it prints the
string as it is. Typed to a new shell line by line, it prints the string as it is if and only if
each line is code and remains as it is: it is not empty, has no white space at its ends, and is no
command. If no line is a command, what is printed is the string that remains of the lines when each
is stripped and those that are empty are left out. -/
theorem typed_string_kept_iff {content : String} (hquote : '"' ∉ content.toList)
    (hends : NewlinesOnly content.toList) (clock : Nat → Float) :
    let lines := linesOf (printing content).toList
    (∀ path, path ≠ typed → path.contains '\x00' = false →
      ∃ machine, Options.Ends { file := some path } {} clock (some (printing content)) 0
        [.output content] machine) ∧
    (Shows clock lines [.output content] ↔ ∀ line ∈ lines, Command.ofLine line = .code line) ∧
    ((∀ line ∈ lines, ¬ IsCommand line) →
      ∃ stripped, joined (codeOf lines) = printing stripped ∧
        Shows clock lines [.output stripped]) := by
  intro lines
  refine ⟨?_, ⟨?_, ?_⟩, fun h => exists_shows hquote hends h clock⟩
  · exact fun path hpath hopens =>
      Options.ends_printing hquote hends.not_mem_return hpath hopens clock
  · exact fun h => codeOf_eq_self_iff.1 (code_of_shows hquote hends h)
  · intro h
    obtain ⟨stripped, htext, hshows⟩ := exists_shows hquote hends
      (fun line hline => not_isCommand_of_code (h line hline)) clock
    have hjoined : joined (linesOf (printing content).toList) = printing content := by
      rw [toList_printing, joined_linesOf (hends.after oneLine_opening) oneLine_closing (by simp),
        ← toList_printing, String.ofList_toList]
    rw [codeOf_eq_self_iff.2 h, hjoined] at htext
    rwa [printing_injective htext]

/-- A string on two lines that remain as they are. -/
theorem typed_string_kept_iff_unindented :
    let content := "a\nb"
    let lines := ["print \"a", "b\";"]
    let clock : Nat → Float := fun _ => 0
    '"' ∉ content.toList ∧ NewlinesOnly content.toList ∧
      linesOf (printing content).toList = lines ∧
      (∃ machine, Options.Ends { file := some "a.lox" } {} clock (some (printing content)) 0
        [.output content] machine) ∧
      Shows clock lines [.output content] := by
  intro content lines clock
  have hquote : '"' ∉ content.toList := by decide +kernel
  have hends : NewlinesOnly content.toList := by decide +kernel
  have hlines : linesOf (printing content).toList = lines :=
    linesOf_of_eq_joined (by decide +kernel) (by decide) (by decide +kernel)
  obtain ⟨hfile, hshell, -⟩ := typed_string_kept_iff hquote hends clock
  rw [hlines] at hshell
  have hopens : "a.lox".contains '\x00' = false := by
    rw [String.contains_char_eq]
    decide
  exact ⟨hquote, hends, hlines, hfile "a.lox" (by decide) hopens,
    hshell.2 (by decide +kernel)⟩

/-- A string on two lines, the second of which begins with blanks: they are lost in the shell. -/
theorem typed_string_loses_indentation :
    let content := "a\n  b"
    let lines := ["print \"a", "  b\";"]
    let clock : Nat → Float := fun _ => 0
    '"' ∉ content.toList ∧ NewlinesOnly content.toList ∧
      linesOf (printing content).toList = lines ∧
      (∃ machine, Options.Ends { file := some "a.lox" } {} clock (some (printing content)) 0
        [.output content] machine) ∧
      Shows clock lines [.output "a\nb"] ∧ ¬ Shows clock lines [.output content] := by
  intro content lines clock
  have hquote : '"' ∉ content.toList := by decide +kernel
  have hends : NewlinesOnly content.toList := by decide +kernel
  have hlines : linesOf (printing content).toList = lines :=
    linesOf_of_eq_joined (by decide +kernel) (by decide) (by decide +kernel)
  have hopens : "a.lox".contains '\x00' = false := by
    rw [String.contains_char_eq]
    decide
  refine ⟨hquote, hends, hlines, ?_, ?_, fun h => ?_⟩
  · exact Options.ends_printing hquote hends.not_mem_return (by decide) hopens clock
  · have hcode : ∀ line ∈ linesOf (printing content).toList, ¬ IsCommand line := by
      rw [hlines]
      decide +kernel
    obtain ⟨stripped, htext, hshows⟩ := exists_shows hquote hends hcode clock
    rw [hlines] at htext hshows
    have hstripped : joined (codeOf lines) = printing "a\nb" := by decide +kernel
    rwa [← printing_injective (hstripped.symm.trans htext)] at hshows
  · rw [← hlines] at h
    have hkept := code_of_shows hquote hends h
    rw [hlines] at hkept
    exact absurd hkept (by decide +kernel)

end Lox
