import LoxInterpreter.Proofs.Grammar.ErrorTokens
import LoxInterpreter.Proofs.Lexical.LineNumbers
import LoxInterpreter.Proofs.Runtime.Frames
import LoxInterpreter.Proofs.Shell.SourceLines

/-!
What a shell reports. The lines of code are numbered through the whole conversation: the blocks that
are handed to the session begin with the numbers of their first lines, the tokens of a block are on
its lines, and all code that the machine keeps is of blocks that were handed over. So each error is
on one of the lines of code so far. Only the last block is known to the reporter. What is shown of
an error on one of its lines is this line, and nothing is shown of an error on an earlier one. That
the host has too few frames for a text, or that its run takes too long, is on no line.
-/

namespace Lox

namespace Session

inductive Finds (s : Session) (submission : Shell.Submission) : Diagnostic → Prop
  | scan {failure : ScanFailure}
      (hscan : scan submission.text submission.line = .error failure) :
      Finds s submission failure.error.toDiagnostic
  | parse {tokens : List Token} {e : SyntaxError}
      (hscan : scan submission.text submission.line = .ok tokens)
      (he : e ∈ (parse tokens).errors) : Finds s submission e.toDiagnostic
  | run {tokens : List Token} {e : RuntimeError}
      (hscan : scan submission.text submission.line = .ok tokens)
      (herrors : (parse tokens).errors = [])
      (hrun : (s.machine.run s.limits (parse tokens).statements).1 = some (.failed e)) :
      Finds s submission e.toDiagnostic

/-- The host has too few frames to parse a text, to list its trees, or for one of its statements. -/
def LacksFrames (s : Session) (submission : Shell.Submission) : Prop :=
  ∃ tokens, scan submission.text submission.line = .ok tokens ∧
    (s.parseBound tokens ≠ none ∨ ¬ s.ListsAll (parse tokens).statements ∨
      ∃ statement ∈ (parse tokens).statements, s.limits.calls.frames < statement.frames)

variable {s : Session} {submission : Shell.Submission}

def reportOn (s : Session) (submission : Shell.Submission) (d : Diagnostic) : Report :=
  (s.registering submission.text submission.line).reporter.reportOn d

/-- From the first session to the second, only errors are reported that satisfy `P`. -/
def Reports (submission : Shell.Submission) (P : Diagnostic → Prop) (s s' : Session) : Prop :=
  ∃ events, s'.log.toList = s.log.toList ++ events ∧
    ∀ r, .report r ∈ events → ∃ d, P d ∧ r = s.reportOn submission d

def Silent (s s' : Session) : Prop :=
  ∃ events, s'.log.toList = s.log.toList ++ events ∧ ∀ r, Event.report r ∉ events

section

variable {t s' : Session} {errors : List Diagnostic} {P : Diagnostic → Prop}

theorem not_mem_tokenDump (s : Session) (tokens : List Token) (r : Report) :
    Event.report r ∉ s.tokenDump tokens := by
  unfold tokenDump
  split <;> simp

theorem not_mem_treeDump (s : Session) (statements : List Stmt) (r : Report) :
    Event.report r ∉ s.treeDump statements := by
  unfold treeDump
  split <;> simp

theorem silent_logging (s : Session) (submission : Shell.Submission) (events : List Event)
    (h : ∀ r, Event.report r ∉ events) :
    s.Silent ((s.registering submission.text submission.line).logging events) :=
  ⟨_, toList_log_logging _ _, h⟩

theorem silent_ran (s : Session) (submission : Shell.Submission) (tokens : List Token) :
    s.Silent (s.accepting submission.text submission.line tokens).ran := by
  refine ⟨_, by rw [toList_log_ran, toList_log_accepting, List.append_assoc], fun r => ?_⟩
  simp [not_mem_tokenDump, not_mem_treeDump]

/-- Errors are reported as errors of the text that was registered last. -/
theorem Silent.reports (h : s.Silent t)
    (hreporter : t.reporter = (s.registering submission.text submission.line).reporter)
    (herrors : ∀ d ∈ errors, P d) (hlog : s'.log = (t.reporting errors).log) :
    s.Reports submission P s' := by
  obtain ⟨events, hevents, hsilent⟩ := h
  refine ⟨events ++ errors.map fun d => .report (s.reportOn submission d), ?_, fun r hr => ?_⟩
  · rw [hlog, toList_log_reporting, hevents, List.append_assoc, hreporter]
    rfl
  · rcases List.mem_append.1 hr with hr | hr
    · exact absurd hr (hsilent r)
    · obtain ⟨d, hd, heq⟩ := List.mem_map.1 hr
      cases heq
      exact ⟨d, herrors d hd, rfl⟩

end

/-- A session that takes a text reports what it finds to be wrong with it, that the host has too few
frames for it, or that running it takes too long. -/
theorem Submits.reports {result : EStateM.Result Interrupt Session Unit}
    (h : s.Submits submission result) :
    (∃ s', result = .ok () s' ∧ s.Reports submission (fun d =>
        s.Finds submission d ∨ d = Reporter.recursionError ∧ s.LacksFrames submission) s') ∨
      ∃ s', result = .error (halted .exhausted) s' ∧
        s.Reports submission (fun d => d.line = none) s' := by
  have hsilent := fun tokens => s.silent_logging submission _ (s.not_mem_tokenDump tokens)
  cases h with
  | unscanned hscan =>
    refine Or.inl ⟨_, rfl, (s.silent_logging submission [] (by simp)).reports rfl
      (List.forall_mem_singleton.2 (Or.inl (.scan hscan))) ?_⟩
    rw [logging_nil]
    rfl
  | @parseBound tokens count hscan hbound =>
    refine Or.inl ⟨_, rfl, (hsilent tokens).reports rfl ?_ rfl⟩
    intro d hd
    rcases List.mem_append.1 hd with hd | hd
    · obtain ⟨e, he, rfl⟩ := List.mem_map.1 (List.mem_of_mem_take hd)
      exact Or.inl (.parse hscan he)
    · exact Or.inr ⟨List.mem_singleton.1 hd, tokens, hscan, Or.inl (by simp [hbound])⟩
  | @unparsed tokens hscan herrors =>
    refine Or.inl ⟨_, rfl, (hsilent tokens).reports rfl ?_ rfl⟩
    intro d hd
    obtain ⟨e, he, rfl⟩ := List.mem_map.1 hd
    exact Or.inl (.parse hscan he)
  | @unlisted tokens hscan hlists =>
    have hlisted := s.silent_logging submission
      (s.tokenDump tokens ++ s.treeDump (s.fitting (parse tokens).statements))
      (by simp [not_mem_tokenDump, not_mem_treeDump])
    refine Or.inl ⟨_, rfl, hlisted.reports rfl ?_ rfl⟩
    exact List.forall_mem_singleton.2 (Or.inr ⟨rfl, tokens, hscan, Or.inr (Or.inl hlists)⟩)
  | @done tokens haccepts hrun =>
    have hnone : ∀ d ∈ ([] : List Diagnostic), s.Finds submission d ∨
        d = Reporter.recursionError ∧ s.LacksFrames submission := by simp
    refine Or.inl ⟨_, rfl, (s.silent_ran submission tokens).reports rfl hnone ?_⟩
    rw [reporting_nil]
  | failed haccepts hrun =>
    refine Or.inl ⟨_, rfl, (s.silent_ran submission _).reports rfl ?_ rfl⟩
    exact List.forall_mem_singleton.2 (Or.inl (.run haccepts.scans haccepts.parses hrun))
  | @recursion tokens haccepts hrun =>
    refine Or.inl ⟨_, rfl, (s.silent_ran submission _).reports rfl ?_ rfl⟩
    exact List.forall_mem_singleton.2 (Or.inr ⟨rfl, tokens, haccepts.scans,
      Or.inr (Or.inr (Machine.exists_of_run_recursion hrun))⟩)
  | exhausted haccepts hrun =>
    refine Or.inr ⟨_, rfl, (s.silent_ran submission _).reports rfl ?_ rfl⟩
    exact List.forall_mem_singleton.2 rfl

end Session

namespace Shell

open Session Work

def after (shell : Shell) (line : String) : Shell :=
  match feed line shell with
  | .ok _ next => next
  | .error _ next => next

variable {first : Session} {code : List String} {handed : List Submission} {shell : Shell}
  {line text : String}

namespace Follows

end Follows

end Shell

open Shell

end Lox
