import LoxInterpreter.Session
import Mathlib.Data.List.TakeWhile

/-!
What becomes of a session. A source that is added is rejected by the scanner, rejected by the
parser, or queued; what is queued is run to its end or up to an error. Parsing, listing and running
can also need more frames than the host has. For each of these cases this module says how the
session is left behind, and how the call ends.
-/

namespace Lox

namespace Reporter

variable (r : Reporter) (d : Diagnostic)

@[simp] theorem fatal_remember : (r.remember d).fatal = r.fatal := by
  unfold remember
  split <;> rfl

@[simp] theorem sources_remember : (r.remember d).sources = r.sources := by
  unfold remember
  split <;> rfl

@[simp] theorem fatal_foldl_remember (errors : List Diagnostic) :
    (errors.foldl remember r).fatal = r.fatal :=
  List.foldlRecOn (motive := fun r' => r'.fatal = r.fatal) errors remember rfl
    fun r' h d _ => (r'.fatal_remember d).trans h

@[simp] theorem sources_foldl_remember (errors : List Diagnostic) :
    (errors.foldl remember r).sources = r.sources :=
  List.foldlRecOn (motive := fun r' => r'.sources = r.sources) errors remember rfl
    fun r' h d _ => (r'.sources_remember d).trans h

/-- What is reported on an error does not depend on the errors before. -/
theorem reportOn_remember (other : Diagnostic) :
    (r.remember d).reportOn other = r.reportOn other := by
  unfold reportOn line?
  rw [sources_remember]

variable {r}

/-- Where there are no errors there is nothing to forget. -/
theorem reset_eq_self (herror : r.hadError = false) (hruntime : r.hadRuntimeError = false) :
    r.reset = r := by
  cases r
  cases herror
  cases hruntime
  rfl

theorem abort_of_fatal (h : r.fatal = true) (status : Int) :
    r.abort status = ⟨r, [], some (.exit status)⟩ := if_pos h

theorem abort_of_not_fatal (h : r.fatal = false) (status : Int) :
    r.abort status = ⟨r.reset, [], none⟩ := if_neg (by simp [h])

theorem raise_of_fatal (h : r.fatal = true) :
    r.raise d = ⟨r.remember d, [r.reportOn d], some (.exit d.phase.exitStatus)⟩ := by
  rw [raise, abort_of_fatal ((r.fatal_remember d).trans h)]

theorem raise_of_not_fatal (h : r.fatal = false) :
    r.raise d = ⟨(r.remember d).reset, [r.reportOn d], none⟩ := by
  rw [raise, abort_of_not_fatal ((r.fatal_remember d).trans h)]

end Reporter

namespace Session

def logging (s : Session) (events : List Event) : Session :=
  { s with log := s.log ++ events.toArray }

def registering (s : Session) (source : String) (line : Int) : Session :=
  { s with reporter := s.reporter.register (.ofText s.path source line) }

def reporting (s : Session) (errors : List Diagnostic) : Session :=
  { s with
    reporter := errors.foldl Reporter.remember s.reporter
    log := s.log ++ (errors.map fun d => Event.report (s.reporter.reportOn d)).toArray }

def forgetting (s : Session) : Session := { s with reporter := s.reporter.reset }

def tokenDump (s : Session) (tokens : List Token) : List Event :=
  if s.showTokens then (tokens.map Token.listing).map Event.output else []

/-- The host has frames enough for all trees that are listed. -/
def ListsAll (s : Session) (statements : List Stmt) : Prop :=
  s.showTrees = true → ∀ statement ∈ statements, statement.textFrames ≤ s.limits.calls.frames

instance (s : Session) (statements : List Stmt) : Decidable (s.ListsAll statements) :=
  inferInstanceAs (Decidable (_ → _))

/-- The statements in front of the first one for whose tree the host has too few frames. -/
def fitting (s : Session) (statements : List Stmt) : List Stmt :=
  statements.takeWhile (·.textFrames ≤ s.limits.calls.frames)

def treeDump (s : Session) (statements : List Stmt) : List Event :=
  if s.showTrees then (statements.map Stmt.text).map Event.output else []

/-- The session accepts a source with these tokens: it scans and parses without errors, and the host
has frames enough to parse it and to list its trees. -/
structure Accepts (s : Session) (source : String) (line : Int) (tokens : List Token) : Prop where
  scans : scan source line = .ok tokens
  parses : (parse tokens).errors = []
  bound : s.parseBound tokens = none
  lists : s.ListsAll (parse tokens).statements

def accepting (s : Session) (source : String) (line : Int) (tokens : List Token) : Session :=
  { (s.registering source line).logging
      (s.tokenDump tokens ++ s.treeDump (parse tokens).statements) with
    queue := s.queue ++ (parse tokens).statements }

/-- The session after its queue was run, to its end or not. -/
def ran (s : Session) : Session :=
  let m := (s.machine.run s.limits s.queue).2
  { s with
    queue := []
    machine := { m with printed := #[] }
    log := s.log ++ m.printed.map Event.output }

section

variable (s : Session) (source : String) (line : Int) (events : List Event)
  (errors : List Diagnostic)

@[simp] theorem reporter_logging : (s.logging events).reporter = s.reporter := rfl

@[simp] theorem fatal_registering :
    (s.registering source line).reporter.fatal = s.reporter.fatal := rfl

@[simp] theorem machine_reporting : (s.reporting errors).machine = s.machine := rfl

@[simp] theorem fatal_reporting : (s.reporting errors).reporter.fatal = s.reporter.fatal :=
  s.reporter.fatal_foldl_remember errors

@[simp] theorem sources_reporting :
    (s.reporting errors).reporter.sources = s.reporter.sources :=
  s.reporter.sources_foldl_remember errors

@[simp] theorem machine_forgetting : s.forgetting.machine = s.machine := rfl

@[simp] theorem fatal_forgetting : s.forgetting.reporter.fatal = s.reporter.fatal := rfl

@[simp] theorem sources_forgetting :
    s.forgetting.reporter.sources = s.reporter.sources := rfl

@[simp] theorem reporter_ran : s.ran.reporter = s.reporter := rfl

end

section

variable (s : Session)

@[simp] theorem toList_log_logging (events : List Event) :
    (s.logging events).log.toList = s.log.toList ++ events := by
  simp [logging]

@[simp] theorem toList_log_reporting (errors : List Diagnostic) :
    (s.reporting errors).log.toList =
      s.log.toList ++ errors.map fun d => Event.report (s.reporter.reportOn d) := by
  simp [reporting]

@[simp] theorem toList_log_accepting (source : String) (line : Int) (tokens : List Token) :
    (s.accepting source line tokens).log.toList =
      s.log.toList ++ (s.tokenDump tokens ++ s.treeDump (parse tokens).statements) := by
  simp [accepting, logging, registering]

@[simp] theorem toList_log_ran :
    s.ran.log.toList = s.log.toList ++
      (s.machine.run s.limits s.queue).2.printed.toList.map Event.output := by
  simp [ran]

end

/-- Where nothing else is queued, what was accepted is run next. -/
theorem run_accepting {s : Session} (h : s.queue = []) (source : String) (line : Int)
    (tokens : List Token) :
    let added := s.accepting source line tokens
    added.machine.run added.limits added.queue =
      s.machine.run s.limits (parse tokens).statements :=
  congrArg (s.machine.run s.limits) (congrArg (· ++ (parse tokens).statements) h)

theorem logging_logging (s : Session) (events more : List Event) :
    (s.logging events).logging more = s.logging (events ++ more) := by
  simp [logging, Array.append_assoc]

theorem logging_nil (s : Session) : s.logging [] = s := by
  simp [logging]

theorem reporting_nil (s : Session) : s.reporting [] = s := by
  simp [reporting]

theorem forgetting_eq_self {s : Session} (herror : s.reporter.hadError = false)
    (hruntime : s.reporter.hadRuntimeError = false) : s.forgetting = s := by
  rw [forgetting, Reporter.reset_eq_self herror hruntime]

/-- Errors that are reported one after another are reported together. -/
theorem reporting_reporting (s : Session) (d : Diagnostic) (ds : List Diagnostic) :
    (s.reporting [d]).reporting ds = s.reporting (d :: ds) := by
  have hreports : (fun e => Event.report ((s.reporter.remember d).reportOn e)) =
      fun e => Event.report (s.reporter.reportOn e) :=
    funext fun e => congrArg Event.report (s.reporter.reportOn_remember d e)
  simp [reporting, hreports]

theorem reporting_append (s : Session) (errors more : List Diagnostic) :
    (s.reporting errors).reporting more = s.reporting (errors ++ more) := by
  induction errors generalizing s with
  | nil => exact congrArg (·.reporting more) s.reporting_nil
  | cons d ds ih =>
    rw [← reporting_reporting, ih, reporting_reporting, List.cons_append]

end Session

namespace Work

open Session

def after {α : Type} (work : Work α) (s : Session) : Session :=
  match work s with
  | .ok _ s' => s'
  | .error _ s' => s'

theorem outputIf_apply (wanted : Bool) (texts : List String) (s : Session) :
    outputIf wanted texts s =
      .ok () (s.logging (if wanted then texts.map Event.output else [])) := by
  cases wanted with
  | false => exact congrArg (EStateM.Result.ok ()) s.logging_nil.symm
  | true => rfl

theorem react_report (d : Diagnostic) (s : Session) :
    react (·.report d) s = .ok () (s.reporting [d]) := rfl

theorem react_of_goes_on {f : Reporter → Reaction} {s : Session} {r : Reporter}
    {reports : List Report} (h : f s.reporter = ⟨r, reports, none⟩) :
    react f s = .ok () { s with
      reporter := r
      log := s.log ++ (reports.map Event.report).toArray } := by
  unfold react
  rw [h]

theorem react_of_interrupt {f : Reporter → Reaction} {s : Session} {r : Reporter}
    {reports : List Report} {i : Interrupt} (h : f s.reporter = ⟨r, reports, some i⟩) :
    react f s = .error i { s with
      reporter := r
      log := s.log ++ (reports.map Event.report).toArray } := by
  unfold react
  rw [h]

/-- After an error that is fatal the program ends, after another one the error is forgotten. -/
theorem react_abort (status : Int) (s : Session) :
    react (·.abort status) s =
      if s.reporter.fatal then .error (.exit status) s else .ok () s.forgetting := by
  cases hfatal : s.reporter.fatal with
  | true =>
    rw [react_of_interrupt (Reporter.abort_of_fatal hfatal status), if_pos rfl]
    simp
  | false =>
    rw [react_of_goes_on (Reporter.abort_of_not_fatal hfatal status), if_neg (by simp)]
    simp [forgetting]

theorem react_raise (d : Diagnostic) (s : Session) :
    react (·.raise d) s = if s.reporter.fatal then
        .error (.exit d.phase.exitStatus) (s.reporting [d])
      else .ok () (s.reporting [d]).forgetting := by
  cases hfatal : s.reporter.fatal with
  | true =>
    rw [react_of_interrupt (Reporter.raise_of_fatal d hfatal), if_pos rfl]
    rfl
  | false =>
    rw [react_of_goes_on (Reporter.raise_of_not_fatal d hfatal), if_neg (by simp)]
    rfl

section

variable {work : Work Unit} {s s' : Session}

theorem guarded_of_ok (h : work s = .ok () s') : guarded work s = .ok () s' := by
  unfold guarded
  rw [h]
  exact (react_of_goes_on rfl).trans (by simp)

theorem guarded_of_exit {status : Int} (h : work s = .error (.exit status) s') :
    guarded work s = .error (.exit status) s' := by
  unfold guarded
  rw [h]
  exact (react_of_interrupt rfl).trans (by simp)

/-- An error that is raised under the guard is reported, and then ends the program or is
forgotten. -/
theorem guarded_of_raised {d : Diagnostic} (h : work s = .error (.raised d) s') :
    guarded work s = if s'.reporter.fatal then
        .error (.exit d.phase.exitStatus) (s'.reporting [d])
      else .ok () (s'.reporting [d]).forgetting := by
  unfold guarded
  rw [h]
  exact react_raise d s'

theorem guarded_of_recursion (h : work s = .error .recursion s') :
    guarded work s = if s'.reporter.fatal then .error (.exit 1)
        (s'.reporting [Reporter.recursionError])
      else .ok () (s'.reporting [Reporter.recursionError]).forgetting := by
  unfold guarded
  rw [h]
  exact react_raise Reporter.recursionError s'

/-- An error of the interpreter itself is reported as well, but it is not forgotten. -/
theorem guarded_of_unexpected {kind message : String}
    (h : work s = .error (.unexpected kind message) s') :
    let d := Reporter.unknownError kind message
    guarded work s = if s'.reporter.fatal then .error (.exit 1) (s'.reporting [d])
      else .error (.unexpected kind message) (s'.reporting [d]).forgetting := by
  intro d
  unfold guarded
  rw [h]
  cases hfatal : s'.reporter.fatal with
  | true =>
    have habsorb : s'.reporter.absorb (some (.unexpected kind message)) =
        ⟨s'.reporter.remember d, [s'.reporter.reportOn d], some (.exit 1)⟩ := by
      rw [Reporter.absorb, Reporter.raise_of_fatal _ hfatal]
      rfl
    exact (react_of_interrupt habsorb).trans rfl
  | false =>
    have habsorb : s'.reporter.absorb (some (.unexpected kind message)) =
        ⟨(s'.reporter.remember d).reset, [s'.reporter.reportOn d],
          some (.unexpected kind message)⟩ := by
      rw [Reporter.absorb, Reporter.raise_of_not_fatal _ hfatal]
      rfl
    exact (react_of_interrupt habsorb).trans rfl

end

end Work

namespace Session

open Work

theorem reportAll_apply (errors : List Diagnostic) (s : Session) :
    reportAll errors s = .ok () (s.reporting errors) := by
  induction errors generalizing s with
  | nil => exact congrArg (EStateM.Result.ok ()) s.reporting_nil.symm
  | cons d ds ih =>
    rw [reportAll, Step.bind_apply, react_report]
    exact (ih _).trans (congrArg (EStateM.Result.ok ()) (s.reporting_reporting d ds))

theorem listTrees_of_listsAll {statements : List Stmt} {s : Session} (h : s.ListsAll statements) :
    listTrees statements s = .ok () (s.logging (s.treeDump statements)) := by
  unfold listTrees treeDump
  rw [Step.bind_of_ok (Step.get_apply s)]
  by_cases htrees : s.showTrees = true
  · rw [if_pos htrees, if_pos htrees, List.takeWhile_eq_self_iff.2 fun statement hmem =>
      decide_eq_true (h htrees statement hmem), if_neg (Nat.lt_irrefl _)]
    rfl
  · rw [if_neg htrees, if_neg htrees, logging_nil]
    rfl

theorem listTrees_of_not_listsAll {statements : List Stmt} {s : Session}
    (h : ¬ s.ListsAll statements) :
    listTrees statements s = .error .recursion (s.logging (s.treeDump (s.fitting statements))) := by
  let fits (statement : Stmt) : Bool := statement.textFrames ≤ s.limits.calls.frames
  have htrees : s.showTrees = true := Classical.byContradiction fun hno => h fun hyes =>
    absurd hyes hno
  have hshorter : (statements.takeWhile fits).length < statements.length := by
    refine Nat.lt_of_le_of_ne (List.takeWhile_prefix fits).length_le fun hlength => h ?_
    have hall := List.takeWhile_eq_self_iff.1 ((List.takeWhile_prefix fits).eq_of_length hlength)
    exact fun _ statement hmem => of_decide_eq_true (hall statement hmem)
  unfold listTrees treeDump
  rw [Step.bind_of_ok (Step.get_apply s), if_pos htrees, if_pos htrees, if_pos hshorter]
  rfl

section

variable {source : String} {line : Int} {tokens : List Token}

/-- The scanned source as it goes on to the parser. -/
theorem add_of_scanned (h : scan source line = .ok tokens) (s : Session) :
    let errors := (parse tokens).errors.map SyntaxError.toDiagnostic
    let shown := (s.registering source line).logging (s.tokenDump tokens)
    add source line s =
      (match s.parseBound tokens with
        | some count => do
          reportAll (errors.take count)
          throw Interrupt.recursion
        | none => do
          reportAll errors
          if errors.isEmpty then
            listTrees (parse tokens).statements
            enqueue (parse tokens).statements
            return true
          else
            react (·.abort Phase.parse.exitStatus)
            return false) shown := by
  unfold add
  rw [Step.bind_of_ok (Step.modify_apply _ s), h]
  dsimp only
  rw [Step.bind_of_ok (Step.get_apply _), Step.bind_of_ok (outputIf_apply _ _ _),
    Step.bind_of_ok (Step.get_apply _)]
  rfl

/-- A source that does not scan. -/
theorem add_of_scan_error {failure : ScanFailure} (h : scan source line = .error failure)
    (s : Session) : add source line s =
      .error (.raised failure.error.toDiagnostic) (s.registering source line) := by
  unfold add
  rw [Step.bind_of_ok (Step.modify_apply _ s), h]
  rfl

/-- A source that the host has too few frames to parse. The errors up to then are reported. -/
theorem add_of_parseBound (h : scan source line = .ok tokens) {s : Session} {count : Nat}
    (hbound : s.parseBound tokens = some count) : add source line s =
      .error .recursion (((s.registering source line).logging (s.tokenDump tokens)).reporting
        (((parse tokens).errors.map SyntaxError.toDiagnostic).take count)) := by
  rw [add_of_scanned h s, hbound]
  exact Step.bind_of_ok (reportAll_apply _ _) _

/-- A source that does not parse. -/
theorem add_of_errors (h : scan source line = .ok tokens) (herrors : (parse tokens).errors ≠ [])
    {s : Session} (hbound : s.parseBound tokens = none) :
    let s' := ((s.registering source line).logging (s.tokenDump tokens)).reporting
      ((parse tokens).errors.map SyntaxError.toDiagnostic)
    add source line s =
      if s.reporter.fatal then .error (.exit 65) s' else .ok false s'.forgetting := by
  intro s'
  have hempty : (parse tokens).errors.isEmpty = false := by
    simpa [List.isEmpty_iff] using herrors
  have habort : react (·.abort Phase.parse.exitStatus) s' =
      if s.reporter.fatal then .error (.exit 65) s' else .ok () s'.forgetting := by
    rw [react_abort, fatal_reporting]
    rfl
  rw [add_of_scanned h s, hbound]
  dsimp only
  rw [Step.bind_of_ok (reportAll_apply _ _), List.isEmpty_map, hempty, if_neg (by simp)]
  cases hfatal : s.reporter.fatal with
  | true =>
    rw [hfatal, if_pos rfl] at habort
    exact Step.bind_of_error habort _
  | false =>
    rw [hfatal, if_neg (by simp)] at habort
    exact Step.bind_of_ok habort _

/-- A source without errors whose trees the host has too few frames to list. -/
theorem add_of_unlisted (h : scan source line = .ok tokens) (herrors : (parse tokens).errors = [])
    {s : Session} (hbound : s.parseBound tokens = none)
    (hlists : ¬ s.ListsAll (parse tokens).statements) : add source line s =
      .error .recursion ((s.registering source line).logging
        (s.tokenDump tokens ++ s.treeDump (s.fitting (parse tokens).statements))) := by
  have htrees := listTrees_of_not_listsAll
    (s := (s.registering source line).logging (s.tokenDump tokens)) hlists
  rw [add_of_scanned h s, hbound]
  dsimp only
  rw [Step.bind_of_ok (reportAll_apply _ _), herrors, List.map_nil, reporting_nil,
    if_pos List.isEmpty_nil, Step.bind_of_error htrees, logging_logging]
  rfl

theorem add_of_accepts {s : Session} (h : s.Accepts source line tokens) :
    add source line s = .ok true (s.accepting source line tokens) := by
  have htrees := listTrees_of_listsAll
    (s := (s.registering source line).logging (s.tokenDump tokens)) h.lists
  rw [add_of_scanned h.scans s, h.bound]
  dsimp only
  rw [Step.bind_of_ok (reportAll_apply _ _), h.parses, List.map_nil, reporting_nil,
    if_pos List.isEmpty_nil, Step.bind_of_ok htrees, logging_logging]
  rfl

/-- The queue runs to its end. -/
theorem run_of_done {s : Session} (h : (s.machine.run s.limits s.queue).1 = none) :
    run s = .ok true s.ran := by
  have hqueue : runQueue s = .ok none s.ran := congrArg (EStateM.Result.ok · s.ran) h
  exact Step.bind_of_ok hqueue _

/-- The queue runs up to an error of the program. -/
theorem run_of_failed {s : Session} {e : RuntimeError}
    (h : (s.machine.run s.limits s.queue).1 = some (.failed e)) :
    let s' := s.ran.reporting [e.toDiagnostic]
    run s = if s.reporter.fatal then .error (.exit 70) s' else .ok false s'.forgetting := by
  intro s'
  have hqueue : runQueue s = .ok (some (.failed e)) s.ran :=
    congrArg (EStateM.Result.ok · s.ran) h
  have hraise : react (·.raise e.toDiagnostic) s.ran =
      if s.reporter.fatal then .error (.exit 70) s' else .ok () s'.forgetting := by
    rw [react_raise, reporter_ran]
    rfl
  refine (Step.bind_of_ok hqueue _).trans ?_
  cases hfatal : s.reporter.fatal with
  | true =>
    rw [hfatal, if_pos rfl] at hraise
    exact Step.bind_of_error hraise _
  | false =>
    rw [hfatal, if_neg (by simp)] at hraise
    exact Step.bind_of_ok hraise _

/-- The queue runs until the machine itself cannot go on. -/
theorem run_of_halted {s : Session} {halt : Halt}
    (h : (s.machine.run s.limits s.queue).1 = some halt) (hhalt : ∀ e, halt ≠ .failed e) :
    run s = .error (halted halt) s.ran := by
  have hqueue : runQueue s = .ok (some halt) s.ran := congrArg (EStateM.Result.ok · s.ran) h
  refine (Step.bind_of_ok hqueue _).trans ?_
  cases halt with
  | failed e => exact absurd rfl (hhalt e)
  | unsupported op => rfl
  | recursion => rfl
  | exhausted => rfl

end

end Session

end Lox
