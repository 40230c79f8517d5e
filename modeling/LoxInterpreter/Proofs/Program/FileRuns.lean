import LoxInterpreter.Program
import LoxInterpreter.Proofs.Runtime.ErrorTokens
import LoxInterpreter.Proofs.Runtime.Frames
import LoxInterpreter.Proofs.Session.Histories

/-!
Runs of files. The program reads a file, adds its text to a new session, and runs what was added.
What goes wrong first decides about the status at the end, and what was shown up to then stays
shown.
-/

namespace Lox

open Session Work

def readable? (path : String) (content : Option String) : Option String :=
  if path.contains '\x00' then none
  else content.map fun text => String.ofList (Text.ofFile text.toList)

/-- Where there is no carriage return, a text is read from a file as it is. -/
theorem Text.ofFile_of_not_mem {text : List Char} (h : '\r' ∉ text) : Text.ofFile text = text := by
  induction text with
  | nil => rfl
  | cons c text ih =>
    obtain ⟨hc, htext⟩ := not_or.1 (mt List.mem_cons.2 h)
    have hread := congrArg (c :: ·) (ih htext)
    unfold ofFile at hread ⊢
    rw [List.foldr_cons]
    dsimp only
    rw [if_neg (by simpa using Ne.symm hc)]
    exact hread

theorem readable?_of_not_mem {path text : String} (hopens : path.contains '\x00' = false)
    (htext : '\r' ∉ text.toList) : readable? path (some text) = some text := by
  rw [readable?, hopens, if_neg (by simp), Option.map_some, Text.ofFile_of_not_mem htext,
    String.ofList_toList]

theorem readable?_comparing {path : String} (hopens : path.contains '\x00' = false)
    (count : Nat) : readable? path (some (comparing count)) = some (comparing count) :=
  readable?_of_not_mem hopens
    (not_mem_comparing (by decide) (by decide) (by decide) count)

namespace Session

/-- A session that takes its source from a file, so that errors are fatal. -/
structure OfFile (s : Session) : Prop where
  interactive : s.interactive = false
  path : s.path ≠ typed
  fatal : s.reporter.fatal = true
  queue : s.queue = []

variable {s : Session} {content : Option String} {source : String} {tokens : List Token}

/-- A file that can be read is the source that is added. -/
theorem OfFile.start_of_readable (hs : s.OfFile) (h : readable? s.path content = some source) :
    start content s = (do let _ ← add source 1; return ()) s := by
  obtain ⟨hnul, text, rfl, rfl⟩ : s.path.contains '\x00' = false ∧
      ∃ text, content = some text ∧ String.ofList (Text.ofFile text.toList) = source := by
    simpa [readable?] using h
  unfold start
  rw [Step.bind_of_ok (Step.get_apply s), hs.interactive, if_neg (by simp), if_neg hs.path, hnul]
  rfl

theorem OfFile.start_of_ok (hs : s.OfFile) (h : readable? s.path content = some source)
    {accepted : Bool} {s' : Session} (hadd : add source 1 s = .ok accepted s') :
    start content s = .ok () s' :=
  (hs.start_of_readable h).trans (Step.bind_of_ok hadd _)

theorem OfFile.start_of_error (hs : s.OfFile) (h : readable? s.path content = some source)
    {i : Interrupt} {s' : Session} (hadd : add source 1 s = .error i s') :
    start content s = .error i s' :=
  (hs.start_of_readable h).trans (Step.bind_of_error hadd _)

/-- A file that cannot be read is an error that no phase is to blame for. -/
theorem OfFile.start_of_unreadable (hs : s.OfFile) (h : readable? s.path content = none) :
    (∃ message, start content s = .error (.raised (.general message)) s) ∨
      ∃ kind message, start content s = .error (.unexpected kind message) s := by
  unfold start
  rw [Step.bind_of_ok (Step.get_apply s), hs.interactive, if_neg (by simp), if_neg hs.path]
  cases hnul : s.path.contains '\x00' with
  | true => exact Or.inr ⟨_, _, rfl⟩
  | false =>
    obtain rfl : content = none := by simpa [readable?, hnul] using h
    exact Or.inl ⟨_, rfl⟩

/-- The tree of a chain of comparisons needs two frames for each of them, and some more. -/
theorem not_listsAll_comparison {ops : List Token} (htrees : s.showTrees = true)
    (h : s.limits.calls.frames < 2 * ops.length + 3) :
    ¬ s.ListsAll [.print (comparison ops)] := by
  intro hlists
  have hframes := hlists htrees _ List.mem_cons_self
  rw [Stmt.textFrames, textFrames_comparison] at hframes
  exact absurd hframes (Nat.not_le.2 h)

theorem toList_log_ran_accepting (hqueue : s.queue = []) (source : String) (line : Int)
    (tokens : List Token) : (s.accepting source line tokens).ran.log.toList =
      s.log.toList ++ (s.tokenDump tokens ++ s.treeDump (parse tokens).statements) ++
        (s.machine.run s.limits (parse tokens).statements).2.printed.toList.map Event.output := by
  have hran := run_accepting hqueue source line tokens
  dsimp only at hran
  rw [toList_log_ran, hran, toList_log_accepting]

/-! The roads that the run of a file can take to its end. -/

/-- The file cannot be read. -/
theorem OfFile.runFile_of_unreadable (hs : s.OfFile) (h : readable? s.path content = none) :
    ∃ d, runFile content s = .error (.exit 1) (s.reporting [d]) := by
  unfold runFile
  rcases hs.start_of_unreadable h with ⟨message, hstart⟩ | ⟨kind, message, hstart⟩
  · have hguarded := guarded_of_raised (Step.bind_of_error hstart fun _ => do let _ ← run)
    rw [if_pos hs.fatal] at hguarded
    exact ⟨_, hguarded⟩
  · have hguarded := guarded_of_unexpected (Step.bind_of_error hstart fun _ => do let _ ← run)
    dsimp only at hguarded
    rw [if_pos hs.fatal] at hguarded
    exact ⟨_, hguarded⟩

/-- The text does not scan. -/
theorem OfFile.runFile_of_scan_error (hs : s.OfFile) (h : readable? s.path content = some source)
    {failure : ScanFailure} (hscan : scan source 1 = .error failure) :
    runFile content s = .error (.exit 65)
      ((s.registering source 1).reporting [failure.error.toDiagnostic]) := by
  have hstart := hs.start_of_error h (add_of_scan_error hscan s)
  have hguarded := guarded_of_raised (Step.bind_of_error hstart fun _ => do let _ ← run)
  rw [fatal_registering, if_pos hs.fatal] at hguarded
  exact hguarded

/-- The host gives up while the file is read in. -/
theorem OfFile.runFile_of_add_recursion (hs : s.OfFile)
    (h : readable? s.path content = some source) {s' : Session}
    (hadd : add source 1 s = .error .recursion s') (hfatal : s'.reporter.fatal = true) :
    runFile content s = .error (.exit 1) (s'.reporting [Reporter.recursionError]) := by
  have hstart := hs.start_of_error h hadd
  have hguarded := guarded_of_recursion (Step.bind_of_error hstart fun _ => do let _ ← run)
  rw [if_pos hfatal] at hguarded
  exact hguarded

/-- The host has too few frames to list the trees of the text. -/
theorem OfFile.runFile_of_unlisted (hs : s.OfFile) (h : readable? s.path content = some source)
    (hscan : scan source 1 = .ok tokens) (herrors : (parse tokens).errors = [])
    (hbound : s.parseBound tokens = none) (hlists : ¬ s.ListsAll (parse tokens).statements) :
    runFile content s = .error (.exit 1) (((s.registering source 1).logging
      (s.tokenDump tokens ++ s.treeDump (s.fitting (parse tokens).statements))).reporting
        [Reporter.recursionError]) :=
  hs.runFile_of_add_recursion h (add_of_unlisted hscan herrors hbound hlists) hs.fatal

/-- The text does not parse. -/
theorem OfFile.runFile_of_errors (hs : s.OfFile) (h : readable? s.path content = some source)
    (hscan : scan source 1 = .ok tokens) (hbound : s.parseBound tokens = none)
    (herrors : (parse tokens).errors ≠ []) :
    runFile content s = .error (.exit 65)
      (((s.registering source 1).logging (s.tokenDump tokens)).reporting
        ((parse tokens).errors.map SyntaxError.toDiagnostic)) := by
  have hadd := add_of_errors hscan herrors hbound
  dsimp only at hadd
  rw [if_pos hs.fatal] at hadd
  exact guarded_of_exit (Step.bind_of_error (hs.start_of_error h hadd) _)

section

variable (hs : s.OfFile) (h : readable? s.path content = some source)
  (haccepts : s.Accepts source 1 tokens)

include hs h haccepts

/-- The program of the text runs to its end. -/
theorem OfFile.runFile_of_done
    (hdone : (s.machine.run s.limits (parse tokens).statements).1 = none) :
    runFile content s = .ok () (s.accepting source 1 tokens).ran := by
  have hstart := hs.start_of_ok h (add_of_accepts haccepts)
  have hran := run_accepting hs.queue source 1 tokens
  have hrun := run_of_done (s := s.accepting source 1 tokens) (by rw [hran, hdone])
  exact guarded_of_ok ((Step.bind_of_ok hstart _).trans (Step.bind_of_ok hrun _))

/-- The program of the text fails. -/
theorem OfFile.runFile_of_failed {e : RuntimeError}
    (hfailed : (s.machine.run s.limits (parse tokens).statements).1 = some (.failed e)) :
    runFile content s = .error (.exit 70)
      ((s.accepting source 1 tokens).ran.reporting [e.toDiagnostic]) := by
  have hstart := hs.start_of_ok h (add_of_accepts haccepts)
  have hran := run_accepting hs.queue source 1 tokens
  have hrun := run_of_failed (s := s.accepting source 1 tokens) (by rw [hran, hfailed])
  dsimp only at hrun
  rw [show (s.accepting source 1 tokens).reporter.fatal = true from hs.fatal, if_pos rfl] at hrun
  exact guarded_of_exit ((Step.bind_of_ok hstart _).trans (Step.bind_of_error hrun _))

/-- The host gives up while the program of the text is run. -/
theorem OfFile.runFile_of_recursion
    (hhalt : (s.machine.run s.limits (parse tokens).statements).1 = some .recursion) :
    runFile content s = .error (.exit 1)
      ((s.accepting source 1 tokens).ran.reporting [Reporter.recursionError]) := by
  have hstart := hs.start_of_ok h (add_of_accepts haccepts)
  have hran := run_accepting hs.queue source 1 tokens
  have hrun := run_of_halted (s := s.accepting source 1 tokens) (by rw [hran, hhalt]) (by simp)
  have hboth : (do start content; let _ ← run) s = .error .recursion _ :=
    (Step.bind_of_ok hstart _).trans (Step.bind_of_error hrun _)
  have hguarded := guarded_of_recursion hboth
  rw [show (s.accepting source 1 tokens).ran.reporter.fatal = true from hs.fatal,
    if_pos rfl] at hguarded
  exact hguarded

end

end Session

namespace Options

variable {o : Options} {host : Host} {clock : Nat → Float} {content : Option String}

/-- The run of the file ends with a status. All that was shown are some events, and the machine is
left behind as it is here. -/
def Ends (o : Options) (host : Host) (clock : Nat → Float) (content : Option String)
    (status : Int) (events : List Event) (machine : Machine) : Prop :=
  ∃ s : Session, Session.runFile content (o.session clock host) =
      (if status = 0 then .ok () s else .error (.exit status) s) ∧
    s.log.toList = events ∧ s.machine = machine

/-- What goes to the terminal are the texts of the events. -/
theorem Ends.runFile_eq {status : Int} {events : List Event} {machine : Machine}
    (h : o.Ends host clock content status events machine) (style : Text.Style) :
    o.runFile style clock content host =
      (String.join (events.map (Event.text style)), status) := by
  obtain ⟨s, hrun, rfl, -⟩ := h
  unfold Options.runFile
  rw [hrun]
  by_cases hstatus : status = 0
  · rw [if_pos hstatus, hstatus]
    rfl
  · rw [if_neg hstatus]
    rfl

theorem ofFile_session {path : String} (hfile : o.file = some path) (hpath : path ≠ typed)
    (clock : Nat → Float) (host : Host) : (o.session clock host).OfFile := by
  refine ⟨?_, ?_, rfl, rfl⟩
  · simp [session, hfile]
  · simpa [session, hfile] using hpath

/-- What goes to the terminal when the program of a file runs to its end. -/
theorem runFile_of_done {path source : String} {tokens : List Token} {m : Machine}
    (hfile : o.file = some path) (hpath : path ≠ typed)
    (hreads : readable? path content = some source)
    (haccepts : (o.session clock host).Accepts source 1 tokens)
    (hrun : (Machine.start clock).run host.limits (parse tokens).statements = (none, m))
    (style : Text.Style) :
    let s := o.session clock host
    let events := s.tokenDump tokens ++ s.treeDump (parse tokens).statements ++
      m.printed.toList.map Event.output
    o.runFile style clock content host = (String.join (events.map (Event.text style)), 0) := by
  intro s events
  have hs : s.OfFile := ofFile_session hfile hpath clock host
  have hname : s.path = path := by simp [s, session, hfile]
  have hend := hs.runFile_of_done (hname ▸ hreads) haccepts (congrArg Prod.fst hrun)
  have hshown : (s.accepting source 1 tokens).ran.log.toList = events := by
    rw [toList_log_ran_accepting hs.queue]
    exact congrArg (fun r : Option Halt × Machine =>
      s.tokenDump tokens ++ s.treeDump (parse tokens).statements ++
        r.2.printed.toList.map Event.output) hrun
  have hends : o.Ends host clock content 0 events _ := ⟨_, hend, hshown, rfl⟩
  exact hends.runFile_eq style

end Options

/-- How a program that runs a file ends. If the file cannot be read, this is reported and the
status is 1. If its text does not scan or does not parse, the status is 65: after the listing of
the tokens, if there is one, the errors are reported, and the machine has run nothing. Otherwise
the program of the text is run on the machine. If that fails the status is 70, and if it ends
without an error the status is 0. After the listings, all that was printed is shown, and then the
error is reported, if there was one.

The host can also run out of frames, and then this is reported behind all that was shown before, and
the status is 1. It can run out of them while the text is parsed, while its trees are listed, and
while the program is run, but then only where there are too few for one of the statements of the
program themselves. In the first two cases the machine has run nothing. -/
theorem file_run_status {o : Options} {path : String} (hfile : o.file = some path)
    (hpath : path ≠ typed) (clock : Nat → Float) (content : Option String) (host : Host) :
    let s := o.session clock host
    (∀ style status events machine, o.Ends host clock content status events machine →
      o.runFile style clock content host =
        (String.join (events.map (Event.text style)), status)) ∧
    (readable? path content = none →
      ∃ report, o.Ends host clock content 1 [.report report] (.start clock)) ∧
    ∀ source, readable? path content = some source →
      let reportOn := fun d => Event.report ((s.registering source 1).reporter.reportOn d)
      let overflow := reportOn Reporter.recursionError
      (∀ failure, scan source 1 = .error failure →
        o.Ends host clock content 65 [reportOn failure.error.toDiagnostic] (.start clock)) ∧
      ∀ tokens, scan source 1 = .ok tokens →
        let errors := (parse tokens).errors
        let program := (parse tokens).statements
        (∀ count, host.parseBound tokens = some count → o.Ends host clock content 1
          (s.tokenDump tokens ++ (errors.take count).map (fun e => reportOn e.toDiagnostic) ++
            [overflow]) (.start clock)) ∧
        (host.parseBound tokens = none →
          (errors ≠ [] → o.Ends host clock content 65
            (s.tokenDump tokens ++ errors.map fun e => reportOn e.toDiagnostic)
            (.start clock)) ∧
          (errors = [] → ¬ s.ListsAll program → o.Ends host clock content 1
            (s.tokenDump tokens ++ s.treeDump (s.fitting program) ++ [overflow])
            (.start clock)) ∧
          (errors = [] → s.ListsAll program →
            let outcome := (Machine.start clock).run host.limits program
            let shown := s.tokenDump tokens ++ s.treeDump program ++
              outcome.2.printed.toList.map Event.output
            let after := (Machine.start clock).runBatch host.limits program
            (outcome.1 = none → o.Ends host clock content 0 shown after) ∧
            (∀ e, outcome.1 = some (.failed e) →
              o.Ends host clock content 70 (shown ++ [reportOn e.toDiagnostic]) after) ∧
            (outcome.1 = some .recursion →
              (∃ statement ∈ program, host.limits.calls.frames < statement.frames) ∧
                o.Ends host clock content 1 (shown ++ [overflow]) after) ∧
            ∀ op, outcome.1 ≠ some (.unsupported op))) := by
  intro s
  have hs : s.OfFile := Options.ofFile_session hfile hpath clock host
  have hname : s.path = path := by simp [s, Options.session, hfile]
  refine ⟨fun style status events machine h => h.runFile_eq style, ?_, ?_⟩
  · intro h
    obtain ⟨d, hrun⟩ := hs.runFile_of_unreadable (hname.symm ▸ h)
    exact ⟨_, _, hrun, rfl, rfl⟩
  · intro source h reportOn overflow
    rw [← hname] at h
    refine ⟨fun failure hscan => ⟨_, hs.runFile_of_scan_error h hscan, rfl, rfl⟩, ?_⟩
    intro tokens hscan errors program
    refine ⟨fun count hbound => ?_, fun hbound => ⟨fun herrors => ?_, fun herrors hlists => ?_,
      fun herrors hlists => ?_⟩⟩
    · refine ⟨_, hs.runFile_of_add_recursion h (add_of_parseBound hscan hbound) ?_, ?_, rfl⟩
      · simp [hs.fatal]
      · rw [reporting_append, toList_log_reporting, toList_log_logging, ← List.map_take,
          List.map_append, List.map_map, ← List.append_assoc]
        rfl
    · refine ⟨_, hs.runFile_of_errors h hscan hbound herrors, ?_, rfl⟩
      rw [toList_log_reporting, toList_log_logging, List.map_map]
      rfl
    · refine ⟨_, hs.runFile_of_unlisted h hscan herrors hbound hlists, ?_, rfl⟩
      rw [toList_log_reporting, toList_log_logging]
      rfl
    · intro outcome shown after
      have haccepts : s.Accepts source 1 tokens := ⟨hscan, herrors, hbound, hlists⟩
      have hmachine := machine_ran_accepting hs.queue source 1 tokens
      have hshown : (s.accepting source 1 tokens).ran.log.toList = shown :=
        toList_log_ran_accepting hs.queue source 1 tokens
      refine ⟨fun hdone => ?_, fun e hfailed => ?_, fun hhalt => ?_, ?_⟩
      · exact ⟨_, hs.runFile_of_done h haccepts hdone, hshown, hmachine⟩
      · refine ⟨_, hs.runFile_of_failed h haccepts hfailed, ?_, hmachine⟩
        rw [toList_log_reporting, hshown]
        rfl
      · refine ⟨Machine.exists_of_run_recursion hhalt, _,
          hs.runFile_of_recursion h haccepts hhalt, ?_, hmachine⟩
        rw [toList_log_reporting, hshown]
        rfl
      -- The machine knows all operators that the parser leaves in a tree.
      · let added : CleanSource := ⟨source, 1, tokens, hscan, herrors⟩
        obtain ⟨-, hexplained⟩ := Machine.ofSources_run (m := .start clock)
          Store.ofSources_initial (List.mem_singleton_self added) host.limits
        exact fun op hop => hexplained _ hop

theorem opens_file : "a.lox".contains '\x00' = false := by
  rw [String.contains_char_eq]
  decide

/-- A program that fails after it has printed something, files with errors of both other kinds, and
a file that cannot be read. -/
theorem file_run_status_failed :
    let o : Options := { file := some "a.lox", showTrees := true }
    let clock : Nat → Float := fun _ => 0
    let dumps : List Event := [.output "(print true)", .output "(; a)"]
    "a.lox" ≠ typed ∧
    (∃ report, o.Ends {} clock none 1 [.report report] (.start clock)) ∧
    (∃ report, o.Ends {} clock (some "@") 65 [.report report] (.start clock)) ∧
    (∃ report, o.Ends {} clock (some "+") 65 [.report report] (.start clock)) ∧
    (∃ report machine, o.Ends {} clock (some "print true;a;") 70
      (dumps ++ [.output "true", .report report]) machine) ∧
    ∀ style, (o.runFile style clock (some "print true;a;")).2 = 70 := by
  intro o clock dumps
  let sum : List Token := [⟨.plus, "+", .nil, 1, some 0⟩, ⟨.eof, "", .nil, 1, some 1⟩]
  let tokens : List Token := [⟨.keyword .printWord, "print", .nil, 1, some 0⟩,
    ⟨.keyword .trueWord, "true", .nil, 1, some 6⟩, ⟨.semicolon, ";", .nil, 1, some 10⟩,
    ⟨.identifier, "a", .nil, 1, some 11⟩, ⟨.semicolon, ";", .nil, 1, some 12⟩,
    ⟨.eof, "", .nil, 1, some 13⟩]
  let e : RuntimeError := ⟨⟨.identifier, "a", .nil, 1, some 11⟩, .undefinedVariable "a"⟩
  have hat : scan "@" 1 = .error ⟨[], ⟨.unexpectedCharacter '@', 1, "@", 0⟩⟩ := by cbv
  have hsum : scan "+" 1 = .ok sum := by cbv
  have hscan : scan "print true;a;" 1 = .ok tokens := by cbv
  have hpath : "a.lox" ≠ typed := by decide
  have hreads : ∀ {text : String}, String.ofList (Text.ofFile text.toList) = text →
      readable? "a.lox" (some text) = some text := by
    intro text htext
    rw [readable?, opens_file, if_neg (by simp), Option.map_some, htext]
  have hends := fun content => file_run_status (o := o) rfl hpath clock content {}
  obtain ⟨-, hunreadable, -⟩ := hends none
  obtain ⟨-, -, hunscanned⟩ := hends (some "@")
  obtain ⟨-, -, hunparsed⟩ := hends (some "+")
  obtain ⟨hshown, -, hread⟩ := hends (some "print true;a;")
  have hfailed : ∃ report machine, o.Ends {} clock (some "print true;a;") 70
      (dumps ++ [.output "true", .report report]) machine := by
    obtain ⟨-, hparsed⟩ := (hread _ (hreads (by decide +kernel))).2 tokens hscan
    obtain ⟨-, -, hrun⟩ := hparsed rfl
    obtain ⟨-, hend, -⟩ := hrun (by decide +kernel) (by decide +kernel)
    have hevents : (o.session clock).tokenDump tokens ++
        (o.session clock).treeDump (parse tokens).statements ++
        ((Machine.start clock).run .standard (parse tokens).statements).2.printed.toList.map
          Event.output = dumps ++ [.output "true"] := by decide +kernel
    have h := hend e (by rfl)
    rw [hevents, List.append_assoc] at h
    exact ⟨_, _, h⟩
  refine ⟨hpath, hunreadable (by rw [readable?, opens_file]; rfl), ?_, ?_, hfailed, ?_⟩
  · exact ⟨_, (hunscanned _ (hreads (by decide +kernel))).1 _ hat⟩
  · obtain ⟨error, herror⟩ : ∃ error, (parse sum).errors = [error] :=
      List.length_eq_one_iff.1 (by decide +kernel)
    have h := (((hunparsed _ (hreads (by decide +kernel))).2 sum hsum).2 rfl).1 (by simp [herror])
    rw [herror] at h
    exact ⟨_, h⟩
  · obtain ⟨report, machine, h⟩ := hfailed
    exact fun style => congrArg Prod.snd (hshown style _ _ _ h)

/-- There are programs that run to their end, but whose trees are too deep to be listed. Where they
are to be listed, such a program is not run at all. -/
theorem unlisted_file_status :
    let o : Options := { file := some "a.lox", showTrees := true }
    let content := comparing 6000
    readable? "a.lox" (some content) = some content ∧
    ∃ tokens, scan content 1 = .ok tokens ∧ (parse tokens).errors = [] ∧
      ((Machine.start fun _ => 0).run .standard (parse tokens).statements).1 = none ∧
      ∀ style, (o.runFile style (fun _ => 0) (some content)).2 = 1 := by
  intro o content
  have hreads : readable? "a.lox" (some content) = some content :=
    readable?_comparing opens_file 6000
  obtain ⟨tokens, ops, hscan, hparse, hlength, hops⟩ := exists_comparison 6000
  have hlists : ¬ (o.session fun _ => 0).ListsAll [.print (comparison ops)] :=
    not_listsAll_comparison rfl (by rw [hlength]; decide)
  refine ⟨hreads, tokens, hscan, by rw [hparse], ?_, fun style => ?_⟩
  · rw [hparse, Machine.run_comparison hops (by rw [hlength]; decide) (by rw [hlength]; decide)]
  · have hfile : (o.session fun _ => 0).OfFile := Options.ofFile_session rfl (by decide) _ {}
    have hrun := hfile.runFile_of_unlisted hreads hscan (by rw [hparse]) rfl (by rwa [hparse])
    rw [Options.runFile, hrun]
    rfl

end Lox
