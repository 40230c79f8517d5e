import LoxInterpreter.Proofs.Runtime.ErrorTokens
import LoxInterpreter.Proofs.Session.Histories
import LoxInterpreter.Shell

/-!
Submissions to a session whose errors are not fatal. Whatever is wrong with a text, its error is
reported and forgotten, nothing of it waits in the queue, and the machine is back in the global
scope: the session is ready for the next text.
-/

namespace Lox

open Session Work

/-- Code of some sources is code of more sources. -/
theorem Store.OfSources.mono {sources more : List CleanSource} (hsub : sources ⊆ more) {s : Store}
    (h : s.OfSources sources) : s.OfSources more := by
  intro id scope hscope b hb f hf statement hstatement inner hinner
  refine ⟨trivial, fun e he part hpart => ?_⟩
  obtain ⟨source, hsource, hin⟩ :=
    (h id scope hscope b hb f hf statement hstatement inner hinner).2 e he part hpart
  exact ⟨source, hsub hsource, hin⟩

namespace Session

/-- The session is ready for the next text: nothing of those before is left but what is bound in
the scopes. -/
structure Calm (s : Session) : Prop where
  fatal : s.reporter.fatal = false
  hadError : s.reporter.hadError = false
  hadRuntimeError : s.reporter.hadRuntimeError = false
  queue : s.queue = []
  current : s.machine.current = Store.globals
  code : ∃ sources, s.machine.store.OfSources sources

/-- A session has taken a text, and is ready for the next one: it knows the text as the last
source, and its machine has run what was accepted of it. -/
structure Took (submission : Shell.Submission) (s s' : Session) : Prop where
  calm : s'.Calm
  host : s'.toHost = s.toHost
  trees : s'.showTrees = s.showTrees
  path : s'.path = s.path
  source : s'.reporter.sources.head? = some (.ofText s.path submission.text submission.line)
  machine : s'.machine = (s.accepted? submission.text submission.line).elim s.machine
    (s.machine.runBatch s.limits)

/-- A text was accepted, but running it takes longer than the session allows. -/
def Overruns (submission : Shell.Submission) (s : Session) : Prop :=
  ∃ statements, s.accepted? submission.text submission.line = some statements ∧
    (s.machine.run s.limits statements).1 = some .exhausted ∧
    ∃ s', guarded (Shell.submit submission) s = .error (halted .exhausted) s'

variable {s : Session} {submission : Shell.Submission} {tokens : List Token}

/-- A machine that runs what a session accepted halts with an error of the program, unless it is
stopped by the bound on its length. -/
theorem Calm.run_clean (h : s.Calm) (source : CleanSource) :
    ((s.machine.run s.limits source.program).2.current = Store.globals ∧
      ∃ sources, (s.machine.run s.limits source.program).2.store.OfSources sources) ∧
    ∀ op, (s.machine.run s.limits source.program).1 ≠ some (.unsupported op) := by
  obtain ⟨sources, hcode⟩ := h.code
  have hmore : s.machine.store.OfSources (source :: sources) :=
    hcode.mono (List.subset_cons_self source sources)
  obtain ⟨hlater, hexplained⟩ := Machine.ofSources_run hmore List.mem_cons_self s.limits
  refine ⟨⟨?_, _, hlater⟩, fun op hop => hexplained _ hop⟩
  exact (Machine.respects_run Run.respected_current s.limits source.program s.machine).trans
    h.current

/-- Once the errors of a text that was rejected are reported, they are forgotten. -/
theorem Calm.took_rejected (h : s.Calm)
    (hrejected : s.accepted? submission.text submission.line = none) (events : List Event)
    (errors : List Diagnostic) :
    s.Took submission ((((s.registering submission.text submission.line).logging events).reporting
      errors).forgetting) where
  calm := ⟨by simp [h.fatal], rfl, rfl, h.queue, h.current, h.code⟩
  host := rfl
  trees := rfl
  path := rfl
  source := by simp [forgetting, Reporter.reset, registering, Reporter.register]
  machine := by rw [hrejected]; rfl

/-- A text that was accepted is run, and if that ends with errors they are forgotten as well. -/
theorem Calm.took_accepted (h : s.Calm)
    (haccepts : s.Accepts submission.text submission.line tokens) (errors : List Diagnostic) :
    s.Took submission
      ((s.accepting submission.text submission.line tokens).ran.reporting errors).forgetting := by
  obtain ⟨⟨hcurrent, hcode⟩, -⟩ := h.run_clean ⟨_, _, tokens, haccepts.scans, haccepts.parses⟩
  have hmachine := machine_ran_accepting h.queue submission.text submission.line tokens
  refine ⟨⟨?_, rfl, rfl, rfl, ?_, ?_⟩, rfl, rfl, rfl, ?_, ?_⟩
  · rw [fatal_forgetting, fatal_reporting]
    exact h.fatal
  · rw [machine_forgetting, machine_reporting, hmachine]
    exact hcurrent
  · rw [machine_forgetting, machine_reporting, hmachine]
    exact hcode
  · rw [sources_forgetting, sources_reporting]
    rfl
  · rw [machine_forgetting, machine_reporting, hmachine, accepted?_of_accepts haccepts]
    rfl

/-- What becomes of a session whose errors are not fatal when it takes a text: what is wrong with
the text is reported and forgotten, or the text is run, and then the error that ends the run is.
Where the host has too few frames, this is reported and forgotten in the same way. -/
inductive Submits (s : Session) (submission : Shell.Submission) :
    EStateM.Result Interrupt Session Unit → Prop
  | unscanned {failure : ScanFailure}
      (hscan : scan submission.text submission.line = .error failure) :
      Submits s submission (.ok () ((s.registering submission.text submission.line).reporting
        [failure.error.toDiagnostic]).forgetting)
  | parseBound {tokens : List Token} {count : Nat}
      (hscan : scan submission.text submission.line = .ok tokens)
      (hbound : s.parseBound tokens = some count) :
      Submits s submission (.ok () (((s.registering submission.text submission.line).logging
        (s.tokenDump tokens)).reporting
          (((parse tokens).errors.map SyntaxError.toDiagnostic).take count ++
            [Reporter.recursionError])).forgetting)
  | unparsed {tokens : List Token} (hscan : scan submission.text submission.line = .ok tokens)
      (herrors : (parse tokens).errors ≠ []) :
      Submits s submission (.ok () (((s.registering submission.text submission.line).logging
        (s.tokenDump tokens)).reporting
          ((parse tokens).errors.map SyntaxError.toDiagnostic)).forgetting)
  | unlisted {tokens : List Token} (hscan : scan submission.text submission.line = .ok tokens)
      (hlists : ¬ s.ListsAll (parse tokens).statements) :
      Submits s submission (.ok () (((s.registering submission.text submission.line).logging
        (s.tokenDump tokens ++ s.treeDump (s.fitting (parse tokens).statements))).reporting
          [Reporter.recursionError]).forgetting)
  | done {tokens : List Token} (haccepts : s.Accepts submission.text submission.line tokens)
      (hrun : (s.machine.run s.limits (parse tokens).statements).1 = none) :
      Submits s submission (.ok () (s.accepting submission.text submission.line tokens).ran)
  | failed {tokens : List Token} {e : RuntimeError}
      (haccepts : s.Accepts submission.text submission.line tokens)
      (hrun : (s.machine.run s.limits (parse tokens).statements).1 = some (.failed e)) :
      Submits s submission (.ok () ((s.accepting submission.text submission.line
        tokens).ran.reporting [e.toDiagnostic]).forgetting)
  | recursion {tokens : List Token} (haccepts : s.Accepts submission.text submission.line tokens)
      (hrun : (s.machine.run s.limits (parse tokens).statements).1 = some .recursion) :
      Submits s submission (.ok () ((s.accepting submission.text submission.line
        tokens).ran.reporting [Reporter.recursionError]).forgetting)
  | exhausted {tokens : List Token} (haccepts : s.Accepts submission.text submission.line tokens)
      (hrun : (s.machine.run s.limits (parse tokens).statements).1 = some .exhausted) :
      Submits s submission (.error (halted .exhausted)
        ((s.accepting submission.text submission.line tokens).ran.reporting
          [Reporter.unknownError "Exhausted" "the run is too long"]).forgetting)

/-- A source without errors whose run comes to its end. -/
theorem guarded_submit_of_done (hqueue : s.queue = [])
    (haccepts : s.Accepts submission.text submission.line tokens)
    (hdone : (s.machine.run s.limits (parse tokens).statements).1 = none) :
    guarded (Shell.submit submission) s =
      .ok () (s.accepting submission.text submission.line tokens).ran := by
  have hran := run_accepting hqueue submission.text submission.line tokens
  have hrun := run_of_done (s := s.accepting submission.text submission.line tokens)
    (by rw [hran, hdone])
  exact guarded_of_ok
    ((Step.bind_of_ok (add_of_accepts haccepts) _).trans (Step.bind_of_ok hrun _))

/-- A text that was accepted is run. -/
theorem Calm.submits_accepted (h : s.Calm)
    (haccepts : s.Accepts submission.text submission.line tokens) :
    s.Submits submission (guarded (Shell.submit submission) s) := by
  have hadd := add_of_accepts haccepts
  let added := s.accepting submission.text submission.line tokens
  have hfatal : added.reporter.fatal = false := h.fatal
  have hran := run_accepting h.queue submission.text submission.line tokens
  have hinterrupted : ∀ {halt : Halt}, (∀ e, halt ≠ .failed e) →
      (s.machine.run s.limits (parse tokens).statements).1 = some halt →
        Shell.submit submission s = .error (halted halt) added.ran := by
    intro halt hno hhalt
    have hrun := run_of_halted (s := added) (by rw [hran, hhalt]) hno
    exact (Step.bind_of_ok hadd _).trans (Step.bind_of_error hrun _)
  cases hhalt : (s.machine.run s.limits (parse tokens).statements).1 with
  | none =>
    rw [guarded_submit_of_done h.queue haccepts hhalt]
    exact .done haccepts hhalt
  | some halt =>
    cases halt with
    | failed e =>
      have hrun := run_of_failed (s := added) (by rw [hran, hhalt])
      dsimp only at hrun
      rw [hfatal, if_neg (by simp)] at hrun
      have hsubmit : Shell.submit submission s = .ok () _ :=
        (Step.bind_of_ok hadd _).trans (Step.bind_of_ok hrun _)
      rw [guarded_of_ok hsubmit]
      exact .failed haccepts hhalt
    | unsupported op =>
      -- No operator that a parser leaves in a tree is unknown to the machine.
      exact absurd hhalt ((h.run_clean ⟨_, _, tokens, haccepts.scans, haccepts.parses⟩).2 op)
    | recursion =>
      have hguarded := guarded_of_recursion (hinterrupted (by simp) hhalt)
      rw [reporter_ran, hfatal, if_neg (by simp)] at hguarded
      rw [hguarded]
      exact .recursion haccepts hhalt
    | exhausted =>
      have hguarded := guarded_of_unexpected (hinterrupted (by simp) hhalt)
      dsimp only at hguarded
      rw [reporter_ran, hfatal, if_neg (by simp)] at hguarded
      rw [hguarded]
      exact .exhausted haccepts hhalt

/-- Where the host gives up while a text is added, this is reported. -/
theorem Calm.guarded_submit_of_recursion (h : s.Calm) {events : List Event}
    {errors : List Diagnostic}
    (hadd : add submission.text submission.line s = .error .recursion
      (((s.registering submission.text submission.line).logging events).reporting errors)) :
    guarded (Shell.submit submission) s =
      .ok () (((s.registering submission.text submission.line).logging events).reporting
        (errors ++ [Reporter.recursionError])).forgetting := by
  have hsubmit : Shell.submit submission s = .error .recursion _ := Step.bind_of_error hadd _
  have hguarded := guarded_of_recursion hsubmit
  rw [fatal_reporting, reporter_logging, fatal_registering, h.fatal, if_neg (by simp)] at hguarded
  rw [hguarded, reporting_append]

theorem Calm.submits (h : s.Calm) (submission : Shell.Submission) :
    s.Submits submission (guarded (Shell.submit submission) s) := by
  cases hscan : scan submission.text submission.line with
  | error failure =>
    have hsubmit : Shell.submit submission s = .error (.raised failure.error.toDiagnostic) _ :=
      Step.bind_of_error (add_of_scan_error hscan s) _
    have hguarded := guarded_of_raised hsubmit
    rw [fatal_registering, h.fatal, if_neg (by simp)] at hguarded
    rw [hguarded]
    exact .unscanned hscan
  | ok tokens =>
    cases hbound : s.parseBound tokens with
    | some count =>
      rw [h.guarded_submit_of_recursion (add_of_parseBound hscan hbound)]
      exact .parseBound hscan hbound
    | none =>
      by_cases herrors : (parse tokens).errors = []
      · by_cases hlists : s.ListsAll (parse tokens).statements
        · exact h.submits_accepted ⟨hscan, herrors, hbound, hlists⟩
        · have hadd := add_of_unlisted hscan herrors hbound hlists
          rw [← reporting_nil (logging _ _)] at hadd
          rw [h.guarded_submit_of_recursion hadd]
          exact .unlisted hscan hlists
      · have hadd := add_of_errors hscan herrors hbound
        dsimp only at hadd
        rw [h.fatal, if_neg (by simp)] at hadd
        have hsubmit : Shell.submit submission s = .ok () _ := Step.bind_of_ok hadd _
        rw [guarded_of_ok hsubmit]
        exact .unparsed hscan herrors

/-- A session that is ready takes a text, whatever is wrong with it, unless its run is too long. -/
theorem Calm.guarded_submit (h : s.Calm) (submission : Shell.Submission) :
    (∃ s', guarded (Shell.submit submission) s = .ok () s' ∧ s.Took submission s') ∨
      s.Overruns submission := by
  have hsubmits := h.submits submission
  generalize hguarded : guarded (Shell.submit submission) s = result at hsubmits
  cases hsubmits with
  | @unscanned failure hscan =>
    have htook :=
      h.took_rejected (accepted?_of_scan_error hscan) [] [failure.error.toDiagnostic]
    rw [logging_nil] at htook
    exact Or.inl ⟨_, rfl, htook⟩
  | parseBound hscan hbound =>
    exact Or.inl ⟨_, rfl, h.took_rejected (accepted?_of_parseBound hscan hbound) _ _⟩
  | unparsed hscan herrors =>
    exact Or.inl ⟨_, rfl, h.took_rejected (accepted?_of_errors hscan herrors) _ _⟩
  | unlisted hscan hlists =>
    exact Or.inl ⟨_, rfl, h.took_rejected (accepted?_of_not_lists hscan hlists) _ _⟩
  | @done tokens haccepts hrun =>
    -- Nothing was reported, so there is nothing to forget, and forgetting changes nothing.
    have hreset := forgetting_eq_self
      (s := (s.accepting submission.text submission.line tokens).ran) h.hadError h.hadRuntimeError
    have htook := h.took_accepted haccepts []
    rw [reporting_nil, hreset] at htook
    exact Or.inl ⟨_, rfl, htook⟩
  | failed haccepts hrun | recursion haccepts hrun =>
    exact Or.inl ⟨_, rfl, h.took_accepted haccepts _⟩
  | exhausted haccepts hrun =>
    exact Or.inr ⟨_, accepted?_of_accepts haccepts, hrun, _, hguarded⟩

end Session

end Lox
