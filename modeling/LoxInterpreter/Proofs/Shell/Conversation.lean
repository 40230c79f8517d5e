import LoxInterpreter.Program
import LoxInterpreter.Proofs.Shell.Blocks
import LoxInterpreter.Proofs.Shell.Submitting

/-!
Conversations with a shell. What is typed as code is handed to the session in blocks of lines, in
order and with nothing left out, and after every line the session is ready for the next block,
whatever was wrong with those before.
-/

namespace Lox

namespace Shell

open Session Work

def Command.code? : Command → Option String
  | code text => some text
  | _ => none

def Stops (line : String) : Prop :=
  Command.ofLine line = .exit ∨ Command.ofLine line = .finish

instance : DecidablePred Stops := fun line =>
  inferInstanceAs (Decidable (Command.ofLine line = .exit ∨ Command.ofLine line = .finish))

def IsCommand (line : String) : Prop := Command.ofLine line = .help ∨ Stops line

instance : DecidablePred IsCommand := fun line =>
  inferInstanceAs (Decidable (Command.ofLine line = .help ∨ Stops line))

def IsAside (e : Event) : Prop := e = .output helpText ∨ e = .output ""

/-- The lines of code among some lines, as they are taken in. -/
def codeOf (lines : List String) : List String :=
  lines.filterMap fun line => (Command.ofLine line).code?

/-- Takes one line after the other, up to one that ends the shell, and tells whether there is
one. -/
def feedAll : List String → ShellWork Bool
  | [] => return false
  | line :: lines => do
    if ← feed line then
      return true
    else
      feedAll lines

def submission? (shell : Shell) (line : String) : Option Submission :=
  (Command.ofLine line).code?.bind fun text => (shell.collect text).1

/-- The texts that are handed to the session while lines are taken. -/
def submissions (shell : Shell) : List String → List Submission
  | [] => []
  | line :: lines =>
    (shell.submission? line).toList ++
      match feed line shell with
      | .ok _ next => submissions next lines
      | .error _ _ => []

def acceptedOf (first : Session) (handed : List Submission) : List (List Stmt) :=
  handed.filterMap fun submission => first.accepted? submission.text submission.line

def machineAfter (first : Session) (batches : List (List Stmt)) : Machine :=
  batches.foldl (Machine.runBatch first.limits) first.machine

/-- The last text was accepted, but running it takes longer than the bounds allow. -/
def Overran (first : Session) (handed : List Submission) : Prop :=
  ∃ batches batch, acceptedOf first handed = batches ++ [batch] ∧
    ((machineAfter first batches).run first.limits batch).1 = some .exhausted

/-- What holds of a shell after lines of code, of which it has handed some texts to its session,
which was the first one before that. -/
structure Follows (first : Session) (code : List String) (handed : List Submission)
    (shell : Shell) : Prop where
  fresh : first.machine.store.OfSources []
  calm : shell.session.Calm
  host : shell.session.toHost = first.toHost
  trees : shell.session.showTrees = first.showTrees
  path : shell.session.path = typed
  source : shell.session.reporter.sources.head? =
    handed.getLast?.map fun submission => .ofText typed submission.text submission.line
  machine : shell.session.machine = machineAfter first (acceptedOf first handed)
  gathered : ∃ blocks waiting, blocks.flatten ++ waiting = code ∧ handed = numbered 0 blocks ∧
    Gathered blocks waiting shell

variable {first : Session} {code : List String} {handed : List Submission} {shell : Shell}
  {line text : String}

theorem session_collect (shell : Shell) (line : String) :
    (shell.collect line).2.session = shell.session := by
  unfold collect
  dsimp only
  split <;> rfl

/-! What a line does depends on the command that it is. -/

theorem feed_of_nothing (h : Command.ofLine line = .nothing) :
    feed line shell = .ok false shell := by
  unfold feed
  rw [h]
  rfl

theorem feed_of_help (h : Command.ofLine line = .help) :
    feed line shell = .ok false { shell with
      session := shell.session.logging [.output helpText] } := by
  unfold feed
  rw [h]
  rfl

theorem feed_of_exit (h : Command.ofLine line = .exit) : feed line shell = .ok true shell := by
  unfold feed
  rw [h]
  rfl

theorem feed_of_finish (h : Command.ofLine line = .finish) :
    feed line shell = .ok true { shell with session := shell.session.logging [.output ""] } := by
  unfold feed
  rw [h]
  rfl

theorem isCommand_or (line : String) :
    IsCommand line ∨ Command.ofLine line = .nothing ∨ ∃ text, Command.ofLine line = .code text := by
  cases h : Command.ofLine line with
  | nothing => exact Or.inr (Or.inl rfl)
  | help => exact Or.inl (Or.inl h)
  | exit => exact Or.inl (Or.inr (Or.inl h))
  | finish => exact Or.inl (Or.inr (Or.inr h))
  | code text => exact Or.inr (Or.inr ⟨text, rfl⟩)

/-- A line of code is no command. -/
theorem not_isCommand_of_code (h : Command.ofLine line = .code text) : ¬ IsCommand line := by
  rintro (hcommand | hcommand | hcommand) <;> rw [h] at hcommand <;> cases hcommand

/-- A command changes nothing but what was shown. -/
theorem feed_of_isCommand (h : IsCommand line) (shell : Shell) :
    ∃ stops events, feed line shell =
      .ok stops { shell with session := shell.session.logging events } ∧
      ∀ e ∈ events, IsAside e := by
  rcases h with h | h | h
  · exact ⟨false, _, feed_of_help h, List.forall_mem_singleton.2 (Or.inl rfl)⟩
  · refine ⟨true, [], ?_, by simp⟩
    rw [feed_of_exit h, logging_nil]
  · exact ⟨true, _, feed_of_finish h, List.forall_mem_singleton.2 (Or.inr rfl)⟩

theorem feed_of_code (h : Command.ofLine line = .code text) :
    feed line shell = (do Shell.code text; return false) shell := by
  unfold feed
  rw [h]

/-- A line of code after which there is no complete text. -/
theorem feed_of_none (h : Command.ofLine line = .code text)
    (hcollect : (shell.collect text).1 = none) :
    feed line shell = .ok false (shell.collect text).2 := by
  have hcode : Shell.code text shell = .ok () (shell.collect text).2 := by
    unfold Shell.code
    rw [Step.bind_of_ok (Step.modifyGet_apply _ shell), hcollect]
    rfl
  exact (feed_of_code h).trans (Step.bind_of_ok hcode _)

/-- A line of code that completes a text is handed to the session with those that waited. -/
theorem code_of_some {submission : Submission}
    (hcollect : (shell.collect text).1 = some submission) :
    Shell.code text shell =
      ShellWork.ofSession (guarded (submit submission)) (shell.collect text).2 := by
  unfold Shell.code
  rw [Step.bind_of_ok (Step.modifyGet_apply _ shell), hcollect]

theorem feed_of_ok {submission : Submission} {s : Session}
    (h : Command.ofLine line = .code text) (hcollect : (shell.collect text).1 = some submission)
    (hsubmit : guarded (submit submission) shell.session = .ok () s) :
    feed line shell = .ok false { (shell.collect text).2 with session := s } := by
  have hcode : Shell.code text shell = .ok () { (shell.collect text).2 with session := s } := by
    rw [code_of_some hcollect, ShellWork.ofSession, session_collect, hsubmit]
  exact (feed_of_code h).trans (Step.bind_of_ok hcode _)

theorem feed_of_error {submission : Submission} {i : Interrupt} {s : Session}
    (h : Command.ofLine line = .code text) (hcollect : (shell.collect text).1 = some submission)
    (hsubmit : guarded (submit submission) shell.session = .error i s) :
    feed line shell = .error i { (shell.collect text).2 with session := s } := by
  have hcode : Shell.code text shell = .error i { (shell.collect text).2 with session := s } := by
    rw [code_of_some hcollect, ShellWork.ofSession, session_collect, hsubmit]
  exact (feed_of_code h).trans (Step.bind_of_error hcode _)

/-- Further lines are taken only if the first one does not end the shell. -/
theorem feedAll_cons {stops : Bool} {next : Shell} (h : feed line shell = .ok stops next)
    (lines : List String) :
    feedAll (line :: lines) shell = if stops then .ok true next else feedAll lines next := by
  have hall : feedAll (line :: lines) shell = _ := Step.bind_of_ok h _
  cases stops <;> exact hall

theorem acceptedOf_concat (first : Session) (handed : List Submission) (submission : Submission) :
    acceptedOf first (handed ++ [submission]) =
      acceptedOf first handed ++ (first.accepted? submission.text submission.line).toList := by
  unfold acceptedOf
  rw [List.filterMap_append]
  cases h : first.accepted? submission.text submission.line <;> simp [h]

/-- A new shell has taken no lines. -/
theorem follows_begin {o : Options} (h : o.file = none) (clock : Nat → Float) (host : Host) :
    Follows (begin o clock host).session [] [] (begin o clock host) := by
  have hbegin : begin o clock host =
      { session := { o.session clock host with reporter := { fatal := false } } } := by
    obtain ⟨file, showTokens, showTrees⟩ := o
    cases h
    rfl
  rw [hbegin]
  refine ⟨Store.ofSources_initial, ⟨rfl, rfl, rfl, rfl, rfl, [], Store.ofSources_initial⟩, rfl, rfl,
    ?_, rfl, rfl, [], [], rfl, rfl, ?_⟩
  · simp [Options.session, h]
  · exact ⟨by simp, waits_nil, rfl, rfl, by simp, by simp⟩

theorem codeOf_cons (line : String) (lines : List String) :
    codeOf (line :: lines) = codeOf [line] ++ codeOf lines :=
  List.filterMap_append (l := [line])

theorem codeOf_singleton (line : String) :
    codeOf [line] = (Command.ofLine line).code?.toList := by
  unfold codeOf
  cases h : (Command.ofLine line).code? <;> simp [h]

theorem codeOf_of_isCommand (h : IsCommand line) : codeOf [line] = [] := by
  rw [codeOf_singleton]
  rcases h with h | h | h <;> rw [h] <;> rfl

/-- Lines are the lines of code among them if each is one, just as it is. -/
theorem codeOf_eq_self_iff {lines : List String} :
    codeOf lines = lines ↔ ∀ line ∈ lines, Command.ofLine line = .code line := by
  induction lines with
  | nil => exact iff_of_true rfl (by simp)
  | cons line lines ih =>
    have hlength : (codeOf lines).length ≤ lines.length := List.length_filterMap_le _ _
    rw [codeOf_cons, codeOf_singleton, List.forall_mem_cons, ← ih]
    cases hcommand : Command.ofLine line with
    | code text => simp [Command.code?]
    | nothing | help | exit | finish =>
      refine iff_of_false (fun heq => ?_) (by simp)
      have hlength' := congrArg List.length heq
      simp only [Command.code?, Option.toList_none, List.nil_append, List.length_cons] at hlength'
      omega

theorem submission?_of_code (h : Command.ofLine line = .code text) :
    shell.submission? line = (shell.collect text).1 := by
  rw [submission?, h]
  rfl

theorem submission?_of_code?_eq_none (h : (Command.ofLine line).code? = none) :
    shell.submission? line = none := by
  rw [submission?, h]
  rfl

namespace Follows

/-- What the session shows is of no account. -/
theorem logging (h : Follows first code handed shell) (events : List Event) :
    Follows first code handed
      { shell with session := shell.session.logging events } where
  fresh := h.fresh
  calm := ⟨h.calm.fatal, h.calm.hadError, h.calm.hadRuntimeError, h.calm.queue, h.calm.current,
    h.calm.code⟩
  host := h.host
  trees := h.trees
  path := h.path
  source := h.source
  machine := h.machine
  gathered := by
    obtain ⟨blocks, waiting, hcode, hhanded, hgathered⟩ := h.gathered
    exact ⟨blocks, waiting, hcode, hhanded, hgathered.with_session _⟩

/-- A line of code that completes no text waits. -/
theorem of_collect_eq_none (h : Follows first code handed shell)
    (hcollect : (shell.collect text).1 = none) :
    Follows first (code ++ [text]) handed (shell.collect text).2 := by
  obtain ⟨blocks, waiting, hcode, hhanded, hgathered⟩ := h.gathered
  have hsession := session_collect shell text
  cases hline : continues (joined (waiting ++ [text])) with
  | true =>
    refine ⟨h.fresh, hsession ▸ h.calm, hsession ▸ h.host, hsession ▸ h.trees, hsession ▸ h.path,
      hsession ▸ h.source, hsession ▸ h.machine, blocks, waiting ++ [text], ?_, hhanded,
      (hgathered.collect_of_continues hline).2⟩
    rw [← hcode, List.append_assoc]
  | false =>
    rw [(hgathered.collect_of_complete hline).1] at hcollect
    cases hcollect

/-- A line of code that completes a text makes a block with the lines that waited. -/
theorem of_collect_eq_some (h : Follows first code handed shell) {submission : Submission}
    (hcollect : (shell.collect text).1 = some submission) {s : Session}
    (htook : shell.session.Took submission s) :
    Follows first (code ++ [text]) (handed ++ [submission])
      { (shell.collect text).2 with session := s } := by
  obtain ⟨blocks, waiting, hcode, hhanded, hgathered⟩ := h.gathered
  cases hline : continues (joined (waiting ++ [text])) with
  | true =>
    rw [(hgathered.collect_of_continues hline).1] at hcollect
    cases hcollect
  | false =>
    obtain ⟨hsubmission, hnext⟩ := hgathered.collect_of_complete hline
    rw [hsubmission] at hcollect
    refine ⟨h.fresh, htook.calm, htook.host.trans h.host, htook.trees.trans h.trees,
      htook.path.trans h.path, ?_, ?_, blocks ++ [waiting ++ [text]], [], ?_, ?_,
      hnext.with_session s⟩
    · rw [htook.source, h.path]
      simp
    · rw [htook.machine, acceptedOf_concat, accepted?_congr h.host h.trees, h.machine, h.host]
      cases first.accepted? submission.text submission.line with
      | none => rw [Option.toList_none, List.append_nil]; rfl
      | some batch => rw [machineAfter, machineAfter, List.foldl_append]; rfl
    · rw [← hcode]
      simp
    · cases hcollect
      rw [numbered_append, hhanded, Nat.zero_add]

/-- Whatever becomes of a line that does not end the shell, the shell is ready for the next one. -/
theorem after_line (h : Follows first code handed shell) (hline : ¬ Stops line) :
    (∃ next, feed line shell = .ok false next ∧
      Follows first (code ++ codeOf [line])
        (handed ++ (shell.submission? line).toList) next) ∨
    ∃ next, feed line shell = .error (halted .exhausted) next ∧
      Overran first (handed ++ (shell.submission? line).toList) := by
  rw [codeOf_singleton]
  cases hcommand : Command.ofLine line with
  | nothing =>
    rw [submission?_of_code?_eq_none (congrArg Command.code? hcommand)]
    refine Or.inl ⟨shell, feed_of_nothing hcommand, ?_⟩
    simpa [Command.code?] using h
  | help =>
    rw [submission?_of_code?_eq_none (congrArg Command.code? hcommand)]
    refine Or.inl ⟨_, feed_of_help hcommand, ?_⟩
    simpa [Command.code?] using h.logging _
  | exit => exact absurd (Or.inl hcommand) hline
  | finish => exact absurd (Or.inr hcommand) hline
  | code text =>
    rw [submission?_of_code hcommand]
    cases hcollect : (shell.collect text).1 with
    | none =>
      refine Or.inl ⟨_, feed_of_none hcommand hcollect, ?_⟩
      simpa [Command.code?] using h.of_collect_eq_none hcollect
    | some submission =>
      rcases h.calm.guarded_submit submission with ⟨s, hsubmit, htook⟩ |
        ⟨batch, haccepted, hhalt, s, hsubmit⟩
      · exact Or.inl ⟨_, feed_of_ok hcommand hcollect hsubmit, h.of_collect_eq_some hcollect htook⟩
      · refine Or.inr
          ⟨_, feed_of_error hcommand hcollect hsubmit, acceptedOf first handed, batch, ?_, ?_⟩
        · rw [accepted?_congr h.host h.trees] at haccepted
          rw [Option.toList_some, acceptedOf_concat, haccepted, Option.toList_some]
        · rw [← h.machine, ← h.host]
          exact hhalt

/-- After lines none of which ends the shell, it is ready for the next one. -/
theorem after_lines (h : Follows first code handed shell) {lines : List String}
    (hlines : ∀ line ∈ lines, ¬ Stops line) :
    (∃ next, feedAll lines shell = .ok false next ∧
      Follows first (code ++ codeOf lines) (handed ++ shell.submissions lines) next) ∨
    ∃ next, feedAll lines shell = .error (halted .exhausted) next ∧
      Overran first (handed ++ shell.submissions lines) := by
  -- The histories grow at their ends, while the lines are taken from the front.
  induction lines generalizing shell code handed with
  | nil => exact Or.inl ⟨shell, rfl, by simpa [codeOf, submissions] using h⟩
  | cons line lines ih =>
    obtain ⟨hline, hlines⟩ := List.forall_mem_cons.1 hlines
    rcases h.after_line hline with ⟨next, hfeed, hnext⟩ | ⟨next, hfeed, hover⟩
    · have hall : feedAll (line :: lines) shell = feedAll lines next :=
        Step.bind_of_ok hfeed _
      have hsubmissions : shell.submissions (line :: lines) =
          (shell.submission? line).toList ++ next.submissions lines := by
        rw [submissions, hfeed]
      rw [hall, codeOf_cons, hsubmissions, ← List.append_assoc, ← List.append_assoc]
      exact ih hnext hlines
    · have hall : feedAll (line :: lines) shell = .error (halted .exhausted) next :=
        Step.bind_of_error hfeed _
      have hsubmissions : shell.submissions (line :: lines) =
          (shell.submission? line).toList := by
        rw [submissions, hfeed, List.append_nil]
      rw [hsubmissions]
      exact Or.inr ⟨next, hall, hover⟩

/-- The texts that were handed over and the one that is being typed are made of all lines of
code. -/
theorem joined_text (h : Follows first code handed shell) :
    joined (handed.map Submission.text ++ shell.unfinished) = joined code := by
  obtain ⟨blocks, waiting, hcode, hhanded, hgathered⟩ := h.gathered
  have hblocks : ∀ block ∈ blocks, block ≠ [] := fun block hblock =>
    (hgathered.isBlock block hblock).ne_nil
  rw [hhanded, map_text_numbered, hgathered.unfinished_eq, ← hcode]
  by_cases hwaiting : waiting = []
  · rw [if_pos hwaiting, hwaiting, List.append_nil, List.append_nil, joined_map_joined hblocks]
  -- The lines that wait are joined like one more block, although they make no complete text.
  · have hall : ∀ block ∈ blocks ++ [waiting], block ≠ [] :=
      List.forall_mem_append.2 ⟨hblocks, by simpa using hwaiting⟩
    have hjoined := joined_map_joined hall
    rw [List.map_append, List.flatten_append] at hjoined
    simpa [hwaiting] using hjoined

end Follows

end Shell

open Shell Session

/-- The lines that are typed to a shell of a new session, as long as none of them ends it, are
handed to the session in blocks: together with the text that is being typed, what was handed over
is the lines of code, in their order. Each block is as short as can be for its text to be complete,
and is handed over with the number of its first line. Other lines change nothing that is typed.
Then the shell asks for a continuation if there is something to continue, and its session is ready
for the next text: no error is remembered, nothing is queued, and the machine is in the global
scope, after running what was accepted of the texts and nothing else. This is so whatever the host
has room for. The only other end is a text whose run is longer than the bounds allow. -/
theorem typed_lines_handed_over {o : Options} (ho : o.file = none) (clock : Nat → Float)
    (host : Host) {lines : List String} (hlines : ∀ line ∈ lines, ¬ Stops line) :
    let start := begin o clock host
    let handed := start.submissions lines
    ((∃ shell, feedAll lines start = .ok false shell ∧
        joined (handed.map Submission.text ++ shell.unfinished) = joined (codeOf lines) ∧
        (∃ blocks waiting, blocks.flatten ++ waiting = codeOf lines ∧
          (∀ block ∈ blocks, IsBlock block) ∧ Waits waiting ∧
          handed = numbered 0 blocks ∧ shell.pending = ended waiting) ∧
        shell.lineCount = (codeOf lines).length ∧
        (shell.prompt = .continuation ↔ shell.pending ≠ "") ∧
        shell.session.reporter.hadError = false ∧
        shell.session.reporter.hadRuntimeError = false ∧
        shell.session.queue = [] ∧
        shell.session.machine.current = Store.globals ∧
        shell.session.machine =
          machineAfter start.session (acceptedOf start.session handed) ∧
        shell.session.reporter.sources.head? =
          handed.getLast?.map fun submission => .ofText typed submission.text submission.line) ∨
      ∃ shell, feedAll lines start = .error (halted .exhausted) shell ∧
        Overran start.session handed) ∧
    ∀ line (shell : Shell), Command.ofLine line = .nothing ∨ Command.ofLine line = .help →
      ∃ log, feed line shell =
        .ok false { shell with session := { shell.session with log := log } } := by
  intro start handed
  refine ⟨?_, ?_⟩
  · have hafter := (follows_begin ho clock host).after_lines hlines
    rw [List.nil_append, List.nil_append] at hafter
    rcases hafter with ⟨shell, hfeed, hshell⟩ | ⟨shell, hfeed, hover⟩
    · have hjoined := hshell.joined_text
      obtain ⟨blocks, waiting, hcode, hhanded, hgathered⟩ := hshell.gathered
      have hprompt : shell.prompt = .continuation ↔ shell.pending ≠ "" :=
        hgathered.prompt.trans (not_congr hgathered.pending_eq_empty_iff).symm
      exact Or.inl ⟨shell, hfeed, hjoined, ⟨blocks, waiting, hcode, hgathered.isBlock,
        hgathered.waits, hhanded, hgathered.pending⟩, hcode ▸ hgathered.lineCount, hprompt,
        hshell.calm.hadError, hshell.calm.hadRuntimeError, hshell.calm.queue, hshell.calm.current,
        hshell.machine, hshell.source⟩
    · exact Or.inr ⟨shell, hfeed, hover⟩
  · rintro line shell (hnothing | hhelp)
    · exact ⟨shell.session.log, feed_of_nothing hnothing⟩
    · exact ⟨_, feed_of_help hhelp⟩

/-- A block of three lines with other lines in between, then three lines with an error of each kind,
then a comment that is not closed. -/
theorem typed_lines_handed_over_errors :
    let lines := ["\x7b", "", "print true;", "help", "\x7d", "a;", "+", "@", "/*"]
    let host : Host := { limits := ⟨9, 1, 99⟩ }
    let start := begin {} (fun _ => 0) host
    (∀ line ∈ lines, ¬ Stops line) ∧
    start.submissions lines =
      [⟨"\x7b\nprint true;\n\x7d", 1⟩, ⟨"a;", 4⟩, ⟨"+", 5⟩, ⟨"@", 6⟩] ∧
    ∃ shell, feedAll lines start = .ok false shell ∧
      shell.pending = "/*\n" ∧ shell.lineCount = 7 ∧ shell.prompt = .continuation ∧
      shell.session.reporter.hadError = false ∧ shell.session.reporter.hadRuntimeError = false ∧
      shell.session.queue = [] ∧ shell.session.machine.current = Store.globals := by
  intro lines host start
  have hlines : ∀ line ∈ lines, ¬ Stops line := by
    unfold Stops
    decide +kernel
  have hsubmissions : start.submissions lines =
      [⟨"\x7b\nprint true;\n\x7d", 1⟩, ⟨"a;", 4⟩, ⟨"+", 5⟩, ⟨"@", 6⟩] := by decide +kernel
  have hrun : (feedAll lines >>= fun _ => Shell.pending <$> get).run' start = some "/*\n" := by
    decide +kernel
  refine ⟨hlines, hsubmissions, ?_⟩
  obtain ⟨⟨shell, hfeed, -, -, hcount, hprompt, herror, hruntime, hqueue, hcurrent, -, -⟩ |
    ⟨shell, hfeed, -⟩, -⟩ := typed_lines_handed_over (o := {}) rfl (fun _ => 0) host hlines
  · change feedAll lines start = _ at hfeed
    have hpending : shell.pending = "/*\n" := by
      delta EStateM.run' EStateM.run at hrun
      rw [Step.bind_of_ok hfeed] at hrun
      exact Option.some.inj hrun
    refine ⟨shell, hfeed, hpending, ?_, hprompt.2 (by simp [hpending]), herror, hruntime, hqueue,
      hcurrent⟩
    rw [hcount]
    decide +kernel
  · change feedAll lines start = _ at hfeed
    delta EStateM.run' EStateM.run at hrun
    rw [Step.bind_of_error hfeed] at hrun
    cases hrun

end Lox
