import LoxInterpreter.Proofs.Program.FileRuns

/-!
Listings. A session can be asked to list the tokens and the statements of its sources. A session
that lists them and one that does not take the same steps, with the same results: all that the first
one does besides is to show the listings of a source when the source is added, in front of all that
comes of it.
-/

namespace Lox

namespace Step

variable {σ ε α β : Type} {R : σ → σ → Prop}

inductive EndsAlike (R : σ → σ → Prop) :
    EStateM.Result ε σ α → EStateM.Result ε σ α → Prop
  | ok {a : α} {s t : σ} (h : R s t) : EndsAlike R (.ok a s) (.ok a t)
  | error {e : ε} {s t : σ} (h : R s t) : EndsAlike R (.error e s) (.error e t)

def Preserves (R : σ → σ → Prop) (p : Step σ ε α) : Prop := ∀ s t, R s t → EndsAlike R (p s) (p t)

theorem EndsAlike.bind {p : Step σ ε α} {f : α → Step σ ε β} {s t : σ}
    (hp : EndsAlike R (p s) (p t)) (hf : ∀ a, Preserves R (f a)) :
    EndsAlike R ((p >>= f) s) ((p >>= f) t) := by
  rw [bind_apply, bind_apply]
  generalize p s = r, p t = r' at hp
  cases hp with
  | @ok a s t h => exact hf a s t h
  | error h => exact .error h

namespace Preserves

theorem pure (a : α) : Preserves R (Pure.pure a : Step σ ε α) := fun _ _ h => .ok h

theorem throw (e : ε) : Preserves R (MonadExcept.throw e : Step σ ε α) := fun _ _ h => .error h

theorem bind {p : Step σ ε α} {f : α → Step σ ε β} (hp : Preserves R p)
    (hf : ∀ a, Preserves R (f a)) : Preserves R (p >>= f) := fun s t h => (hp s t h).bind hf

end Preserves

end Step

open Step

namespace Session

def withoutListings (s : Session) : Session := { s with showTokens := false, showTrees := false }

/-- The listings of a source that the session shows: its tokens if it scans, and then its statements
if it also parses without errors. -/
def listings (s : Session) (source : String) (line : Int) : List Event :=
  match scan source line with
  | .error _ => []
  | .ok tokens =>
    s.tokenDump tokens ++
      if (parse tokens).errors = [] ∧ s.parseBound tokens = none then
        s.treeDump (parse tokens).statements
      else []

/-- The host has frames enough to list the trees of a source, if they are to be listed. -/
def CanList (s : Session) (source : String) (line : Int) : Prop :=
  ∀ tokens, scan source line = .ok tokens → (parse tokens).errors = [] →
    s.parseBound tokens = none → s.ListsAll (parse tokens).statements

/-- The listings of the file of a session, which are none if it cannot be read. -/
def fileListings (s : Session) (content : Option String) : List Event :=
  if s.path = typed then []
  else (readable? s.path content).elim [] (s.listings · 1)

def CanListFile (s : Session) (content : Option String) : Prop :=
  s.path ≠ typed → ∀ source, readable? s.path content = some source → s.CanList source 1

/-- The second session is the first one, but that it may be asked for listings, and that after the
events `before` it has shown the listings `dumps`. -/
inductive Listed (before dumps : List Event) : Session → Session → Prop
  | intro (s : Session) (events : List Event) : Listed before dumps
      { s.withoutListings with log := (before ++ events).toArray }
      { s with log := (before ++ dumps ++ events).toArray }

variable {before dumps : List Event}

/-- What a session does next, it does with listings and without. -/
theorem Listed.logging {plain listed : Session} (h : Listed before dumps plain listed)
    (events : List Event) : Listed before dumps (plain.logging events) (listed.logging events) := by
  cases h with
  | intro s earlier =>
    have h := @Listed.intro before dumps s (earlier ++ events)
    simpa [Session.logging, List.append_assoc] using h

/-- The listings are shown next. -/
theorem Listed.logging_right (s : Session) (dumps : List Event) :
    Listed s.log.toList dumps s.withoutListings (s.logging dumps) := by
  have h := @Listed.intro s.log.toList dumps s []
  have hlog : (s.log.toList ++ dumps).toArray = s.log ++ dumps.toArray := by
    rw [← List.append_toArray, Array.toArray_toList]
  simpa [withoutListings, Session.logging, hlog] using h

theorem Listed.refl (s : Session) : Listed s.log.toList [] s.withoutListings s := by
  have h := Listed.logging_right s []
  rwa [logging_nil] at h

theorem Listed.reporting {plain listed : Session} (h : Listed before dumps plain listed)
    (errors : List Diagnostic) : Listed before dumps (plain.reporting errors)
      (listed.reporting errors) := by
  cases h with
  | intro s earlier =>
    exact (Listed.intro { s with reporter := errors.foldl Reporter.remember s.reporter }
      earlier).logging (errors.map fun d => Event.report (s.reporter.reportOn d))

theorem Listed.forgetting {plain listed : Session} (h : Listed before dumps plain listed) :
    Listed before dumps plain.forgetting listed.forgetting := by
  cases h with
  | intro s earlier => exact .intro s.forgetting earlier

theorem preserves_react (f : Reporter → Reaction) :
    Preserves (Listed before dumps) (Work.react f) := by
  rintro _ _ ⟨s, events⟩
  have h := (@Listed.intro before dumps
    { s with reporter := (f s.reporter).reporter } events).logging
    ((f s.reporter).reports.map Event.report)
  unfold Work.react
  dsimp only [withoutListings]
  cases (f s.reporter).interrupt with
  | none => exact .ok h
  | some i => exact .error h

theorem preserves_runQueue : Preserves (Listed before dumps) runQueue := by
  rintro _ _ ⟨s, events⟩
  have h := (@Listed.intro before dumps
    { s with
      queue := []
      machine := { (s.machine.run s.limits s.queue).2 with printed := #[] } } events).logging
    ((s.machine.run s.limits s.queue).2.printed.toList.map Event.output)
  have hprinted (printed : Array String) :
      (printed.toList.map Event.output).toArray = printed.map Event.output :=
    (List.map_toArray).symm.trans (congrArg (Array.map Event.output) printed.toArray_toList)
  unfold Session.logging at h
  rw [hprinted] at h
  exact .ok h

theorem preserves_run : Preserves (Listed before dumps) run := by
  refine preserves_runQueue.bind fun halt => ?_
  cases halt with
  | none => exact .pure true
  | some halt =>
    cases halt with
    | failed e => exact (preserves_react _).bind fun _ => .pure false
    | unsupported | recursion | exhausted => exact .throw _

theorem endsAlike_guarded {work : Work Unit} {plain listed : Session}
    (h : EndsAlike (Listed before dumps) (work plain) (work listed)) :
    EndsAlike (Listed before dumps) (Work.guarded work plain) (Work.guarded work listed) := by
  unfold Work.guarded
  generalize work plain = r, work listed = r' at h
  cases h with
  | ok h => exact preserves_react _ _ _ h
  | error h => exact preserves_react _ _ _ h

theorem listed_after {α : Type} {work : Work α} {plain listed : Session}
    (h : EndsAlike (Listed before dumps) (work plain) (work listed)) :
    Listed before dumps (work.after plain) (work.after listed) := by
  unfold Work.after
  generalize work plain = r, work listed = r' at h
  cases h with
  | ok h => exact h
  | error h => exact h

/-- When a source is added, all listings are shown before anything else comes of it. -/
theorem add_endsAlike {s : Session} {source : String} {line : Int} (h : s.CanList source line) :
    EndsAlike (Listed s.log.toList (s.listings source line))
      (add source line s.withoutListings) (add source line s) := by
  unfold listings
  cases hscan : scan source line with
  | error failure =>
    rw [add_of_scan_error hscan, add_of_scan_error hscan]
    exact .error (.refl (s.registering source line))
  | ok tokens =>
    have hplain : (s.withoutListings.registering source line).logging
        (s.withoutListings.tokenDump tokens) = (s.registering source line).withoutListings :=
      logging_nil _
    have hlisted := Listed.logging_right (s.registering source line) (s.tokenDump tokens)
    dsimp only
    cases hbound : s.parseBound tokens with
    | some count =>
      rw [add_of_parseBound hscan hbound, add_of_parseBound (s := s.withoutListings) hscan hbound,
        if_neg (by simp), List.append_nil, hplain]
      exact .error (hlisted.reporting _)
    | none =>
      by_cases herrors : (parse tokens).errors = []
      · have hnone : s.withoutListings.ListsAll (parse tokens).statements := by
          simp [ListsAll, withoutListings]
        rw [add_of_accepts ⟨hscan, herrors, hbound, h tokens hscan herrors hbound⟩,
          add_of_accepts (s := s.withoutListings) ⟨hscan, herrors, hbound, hnone⟩,
          if_pos ⟨herrors, rfl⟩]
        have hadded := Listed.logging_right
          { s.registering source line with queue := s.queue ++ (parse tokens).statements }
          (s.tokenDump tokens ++ s.treeDump (parse tokens).statements)
        have haccepting : s.withoutListings.accepting source line tokens =
            { s.withoutListings.registering source line with
              queue := s.queue ++ (parse tokens).statements } := by
          simp [accepting, logging, tokenDump, treeDump, withoutListings, registering]
        rw [haccepting]
        exact .ok hadded
      · rw [add_of_errors hscan herrors hbound,
          add_of_errors (s := s.withoutListings) hscan herrors hbound,
          if_neg fun hnone => herrors hnone.1, List.append_nil, hplain]
        have hreported := hlisted.reporting ((parse tokens).errors.map SyntaxError.toDiagnostic)
        cases hfatal : s.reporter.fatal with
        | true =>
          rw [show s.withoutListings.reporter.fatal = true from hfatal]
          exact .error hreported
        | false =>
          rw [show s.withoutListings.reporter.fatal = false from hfatal]
          exact .ok hreported.forgetting

/-- The session as it takes its file: if a person types, errors are not fatal. -/
def begun (s : Session) : Session :=
  { s with reporter := { s.reporter with fatal := !s.interactive && s.reporter.fatal } }

def opening (path : String) (interactive : Bool) (content : Option String) : Work Unit :=
  if path = typed then
    if interactive then return ()
    else throw (.raised (.general ("'" ++ typed ++ "' is a reserved filename")))
  else if path.contains '\x00' then
    throw (.unexpected "ValueError" "embedded null byte")
  else
    match content with
    | none => throw (.raised (.general ("'" ++ path ++ "' could not be opened")))
    | some text => do
      let _ ← add (String.ofList (Text.ofFile text.toList)) 1
      return ()

theorem start_eq_opening (content : Option String) (s : Session) :
    start content s = opening s.path s.interactive content s.begun := by
  unfold start begun opening
  rw [Step.bind_of_ok (Step.get_apply s)]
  obtain ⟨_, _, _, _, interactive, _, _, _, _⟩ := s
  cases interactive with
  | true => exact Step.bind_of_ok (Step.modify_apply _ _) _
  | false => rfl

theorem start_endsAlike {s : Session} {content : Option String} (h : s.CanListFile content) :
    EndsAlike (Listed s.log.toList (s.fileListings content))
      (start content s.withoutListings) (start content s) := by
  have hrefl : Listed s.log.toList [] s.begun.withoutListings s.begun := .refl s.begun
  rw [start_eq_opening, start_eq_opening]
  change EndsAlike _ (opening s.path s.interactive content s.begun.withoutListings) _
  unfold fileListings opening readable?
  by_cases hpath : s.path = typed
  · rw [if_pos hpath, if_pos hpath]
    cases s.interactive with
    | true => exact .ok hrefl
    | false => exact .error hrefl
  · rw [if_neg hpath, if_neg hpath]
    cases hnul : s.path.contains '\x00' with
    | true => exact .error hrefl
    | false =>
      cases content with
      | none => exact .error hrefl
      | some text =>
        have hlists : s.CanList (String.ofList (Text.ofFile text.toList)) 1 :=
          h hpath _ (by simp [readable?, hnul])
        have hadd := add_endsAlike (s := s.begun) hlists
        exact hadd.bind fun _ => .pure ()

end Session

namespace Options

def withoutListings (o : Options) : Options := { o with showTokens := false, showTrees := false }

end Options

open Session

/-- The listings are all that a session shows besides. -/
theorem Session.Listed.transcript {dumps : List Event} {plain listed : Session}
    (h : Listed [] dumps plain listed) (style : Text.Style) : listed.transcript style =
      String.join (dumps.map (Event.text style)) ++ plain.transcript style := by
  cases h with
  | intro s events => simp [Session.transcript, String.join_append]

/-- Listings change nothing else, where the host has frames enough to list all trees. A session that
is asked for some and one that is not, to which the same source is added, give the same results and
are interrupted for the same reasons, and both are left behind with the same reporter, the same
machine and the same queue. The first one shows the tokens of the source, if they are wanted and the
source scans, and behind them its statements, if they are wanted and the source also parses without
errors; then it shows and reports just what the second one shows and reports. This is so when the
source is added, when what was added is run, in whatever way the adding ended, and for whole files,
with all that goes to the terminal.

Where the trees are wanted and the host has too few frames for one of them, the statements in front
of that one are listed, and then the adding is interrupted: nothing of the source is queued or run.
A program that runs a file reports this and ends with the status 1. -/
theorem listings_only_add (s : Session) :
    (∀ source line, s.CanList source line →
      let listed := Listed s.log.toList (s.listings source line)
      EndsAlike listed (add source line s.withoutListings) (add source line s) ∧
      EndsAlike listed (run ((add source line).after s.withoutListings))
        (run ((add source line).after s))) ∧
    (∀ content, s.CanListFile content →
      let listed := Listed s.log.toList (s.fileListings content)
      EndsAlike listed (start content s.withoutListings) (start content s) ∧
      EndsAlike listed (run ((start content).after s.withoutListings))
        (run ((start content).after s)) ∧
      EndsAlike listed (runFile content s.withoutListings) (runFile content s)) ∧
    (∀ (o : Options) (style : Text.Style) (clock : Nat → Float) (content : Option String)
        (host : Host), (o.session clock host).CanListFile content →
      let dumps := (o.session clock host).fileListings content
      let plain := o.withoutListings.runFile style clock content host
      o.runFile style clock content host =
        (String.join (dumps.map (Event.text style)) ++ plain.1, plain.2)) ∧
    ∀ source line tokens, scan source line = .ok tokens → (parse tokens).errors = [] →
      s.parseBound tokens = none → ¬ s.ListsAll (parse tokens).statements →
      let dumps := s.tokenDump tokens ++ s.treeDump (s.fitting (parse tokens).statements)
      (∃ s', add source line s = .error .recursion s' ∧
        s'.log.toList = s.log.toList ++ dumps ∧ s'.queue = s.queue ∧ s'.machine = s.machine) ∧
      ∀ content, s.OfFile → line = 1 → readable? s.path content = some source →
        ∃ s' report, runFile content s = .error (.exit 1) s' ∧
          report.diagnostic = Reporter.recursionError ∧
          s'.log.toList = s.log.toList ++ dumps ++ [.report report] ∧ s'.queue = s.queue ∧
          s'.machine = s.machine := by
  have hfile {s : Session} {content : Option String} (h : s.CanListFile content) :
      EndsAlike (Listed s.log.toList (s.fileListings content))
        (runFile content s.withoutListings) (runFile content s) :=
    endsAlike_guarded ((start_endsAlike h).bind fun _ => preserves_run.bind fun _ => .pure ())
  refine ⟨fun source line h => ?_, fun content h => ?_, fun o style clock content host h => ?_, ?_⟩
  · have hadd := add_endsAlike h
    exact ⟨hadd, preserves_run _ _ (listed_after hadd)⟩
  · have hstart := start_endsAlike h
    exact ⟨hstart, preserves_run _ _ (listed_after hstart), hfile h⟩
  · have hends := hfile h
    have hsession : o.withoutListings.session clock host =
        (o.session clock host).withoutListings := rfl
    unfold Options.runFile
    rw [hsession]
    dsimp only
    generalize runFile content (o.session clock host).withoutListings = r,
      runFile content (o.session clock host) = r' at hends
    cases hends with
    | ok h => exact congrArg (·, 0) (h.transcript style)
    | @error i _ _ h => exact congrArg (·, i.status) (h.transcript style)
  · intro source line tokens hscan herrors hbound hlists dumps
    refine ⟨⟨_, add_of_unlisted hscan herrors hbound hlists, toList_log_logging _ _, rfl, rfl⟩, ?_⟩
    rintro content hs rfl hreads
    refine ⟨_, (s.registering source 1).reporter.reportOn Reporter.recursionError,
      hs.runFile_of_unlisted hreads hscan herrors hbound hlists, rfl, ?_, rfl, rfl⟩
    rw [toList_log_reporting, toList_log_logging]
    rfl

/-- A program of one statement is listed and then run. Of another one, whose tree is too deep, the
tokens are listed, and then the adding is interrupted. -/
theorem listings_only_add_shown :
    let o : Options := { file := some "a.lox", showTokens := true, showTrees := true }
    let clock : Nat → Float := fun _ => 0
    let s := o.session clock
    let dumps : List Event := [.output "PRINT print nil", .output "NIL nil nil",
      .output "SEMICOLON ; nil", .output "EOF  nil", .output "(print nil)"]
    s.CanList "print nil;" 1 ∧ s.CanListFile (some "print nil;") ∧
    EndsAlike (Listed [] dumps) (add "print nil;" 1 s.withoutListings) (add "print nil;" 1 s) ∧
    (∀ style, o.runFile style clock (some "print nil;") =
      (String.join (dumps.map (Event.text style)) ++ "nil\n", 0)) ∧
    ∃ s', add (comparing 6000) 1 s = .error .recursion s' ∧ s'.queue = [] := by
  intro o clock s dumps
  let tokens : List Token := [⟨.keyword .printWord, "print", .nil, 1, some 0⟩,
    ⟨.keyword .nilWord, "nil", .nil, 1, some 6⟩, ⟨.semicolon, ";", .nil, 1, some 9⟩,
    ⟨.eof, "", .nil, 1, some 10⟩]
  have hscan : scan "print nil;" 1 = .ok tokens := by cbv
  have hreads : readable? "a.lox" (some "print nil;") = some "print nil;" :=
    readable?_of_not_mem opens_file (by decide)
  have hlists : s.CanList "print nil;" 1 := by
    intro tokens' hscan' _ _
    rw [hscan] at hscan'
    cases hscan'
    decide +kernel
  have hfile : s.CanListFile (some "print nil;") := by
    intro _ source hsource
    cases hreads.symm.trans hsource
    exact hlists
  have hdumps : s.listings "print nil;" 1 = dumps := by
    unfold listings
    rw [hscan]
    decide +kernel
  obtain ⟨hadd, -, hprogram, hunlisted⟩ := listings_only_add s
  refine ⟨hlists, hfile, ?_, fun style => ?_, ?_⟩
  · have hends := (hadd "print nil;" 1 hlists).1
    rwa [hdumps] at hends
  · have haccepts : (o.withoutListings.session clock).Accepts "print nil;" 1 tokens :=
      ⟨hscan, by decide +kernel, rfl, fun h => by cases h⟩
    have hplain : o.withoutListings.runFile style clock (some "print nil;") = ("nil\n", 0) := by
      rw [Options.runFile_of_done rfl (by decide) hreads haccepts (m := _) rfl]
      rfl
    have hboth := hprogram o style clock (some "print nil;") {} hfile
    have hshown : s.fileListings (some "print nil;") = dumps := by
      unfold fileListings
      rw [if_neg (by decide)]
      exact (congrArg (Option.elim · [] (s.listings · 1)) hreads).trans hdumps
    dsimp only at hboth
    rw [hplain] at hboth
    rw [hboth]
    exact congrArg (fun events : List Event =>
      (String.join (events.map (Event.text style)) ++ "nil\n", (0 : Int))) hshown
  · obtain ⟨deep, ops, hdeep, hparse, hlength, -⟩ := exists_comparison 6000
    have hnot : ¬ s.ListsAll (parse deep).statements := by
      rw [hparse]
      exact not_listsAll_comparison rfl (by rw [hlength]; decide)
    obtain ⟨⟨s', hrun, -, hqueue, -⟩, -⟩ :=
      hunlisted (comparing 6000) 1 deep hdeep (by rw [hparse]) rfl hnot
    exact ⟨s', hrun, hqueue⟩

/-- The trees of this program are too deep to be listed. Where they are to be listed, it ends with
another status than where they are not, and nothing is printed. -/
theorem listing_changes_status :
    let o : Options := { file := some "a.lox", showTrees := true }
    let clock : Nat → Float := fun _ => 0
    let content := some (comparing 6000)
    ∀ style, (o.runFile style clock content).2 = 1 ∧
      o.withoutListings.runFile style clock content = ("false\n", 0) := by
  intro o clock content style
  have hreads : readable? "a.lox" content = some (comparing 6000) :=
    readable?_comparing opens_file 6000
  obtain ⟨tokens, ops, hscan, hparse, hlength, hops⟩ := exists_comparison 6000
  have hfile : (o.session clock).OfFile := Options.ofFile_session rfl (by decide) clock {}
  constructor
  · have hlists : ¬ (o.session clock).ListsAll (parse tokens).statements := by
      rw [hparse]
      exact not_listsAll_comparison rfl (by rw [hlength]; decide)
    have hrun := hfile.runFile_of_unlisted hreads hscan (by rw [hparse]) rfl hlists
    rw [Options.runFile, hrun]
    rfl
  · have hrun : (Machine.start clock).run .standard (parse tokens).statements =
        (none, { Machine.start clock with printed := #["false"] }) := by
      rw [hparse, Machine.run_comparison hops (by rw [hlength]; decide) (by rw [hlength]; decide),
        hlength]
      rfl
    have haccepts : (o.withoutListings.session clock).Accepts (comparing 6000) 1 tokens :=
      ⟨hscan, by rw [hparse], rfl, fun h => by cases h⟩
    rw [Options.runFile_of_done rfl (by decide) hreads haccepts hrun]
    rfl

end Lox
