import LoxInterpreter.Proofs.Session.Outcomes

/-!
Histories of sessions. Sources are added and the queue is run in any order, and calls that fail
are followed by other calls. A source that is rejected leaves no trace in the queue and in the
machine, and what a run takes out of the queue never comes back. So the batches that the machine
is given are, one after the other, the statements of the accepted sources.
-/

namespace Lox

namespace Session

/-- The statements of a source, if the session accepts it: it scans and parses without errors, and
the host has frames enough to parse it and to list its trees. -/
def accepted? (s : Session) (source : String) (line : Int) : Option (List Stmt) :=
  match scan source line with
  | .error _ => none
  | .ok tokens =>
    if s.parseBound tokens = none ∧ (parse tokens).errors.isEmpty ∧
        s.ListsAll (parse tokens).statements then
      some (parse tokens).statements
    else none

section

variable {s s' : Session} {source : String} {line : Int} {tokens : List Token}

theorem accepted?_of_scan_error {failure : ScanFailure}
    (h : scan source line = .error failure) : s.accepted? source line = none := by
  rw [accepted?, h]

theorem accepted?_of_parseBound (h : scan source line = .ok tokens) {count : Nat}
    (hbound : s.parseBound tokens = some count) : s.accepted? source line = none := by
  simp [accepted?, h, hbound]

theorem accepted?_of_errors (h : scan source line = .ok tokens)
    (herrors : (parse tokens).errors ≠ []) : s.accepted? source line = none := by
  simp [accepted?, h, herrors]

theorem accepted?_of_not_lists (h : scan source line = .ok tokens)
    (hlists : ¬ s.ListsAll (parse tokens).statements) : s.accepted? source line = none := by
  simp [accepted?, h, hlists]

theorem accepted?_of_accepts (h : s.Accepts source line tokens) :
    s.accepted? source line = some (parse tokens).statements := by
  simp [accepted?, h.scans, h.parses, h.bound, h.lists]

/-- What is accepted depends on the host and on whether trees are listed. -/
theorem accepted?_congr (hhost : s'.toHost = s.toHost) (htrees : s'.showTrees = s.showTrees) :
    s'.accepted? = s.accepted? := by
  have hlists : ∀ statements, s'.ListsAll statements ↔ s.ListsAll statements := by
    intro statements
    rw [ListsAll, ListsAll, hhost, htrees]
  funext source line
  simp only [accepted?, hhost, hlists]

end

end Session

/-- The machine after a batch of statements was run on it, with what was printed taken away. -/
def Machine.runBatch (limits : Limits) (m : Machine) (batch : List Stmt) : Machine :=
  { (m.run limits batch).2 with printed := #[] }

inductive Call
  | add (source : String) (line : Int)
  | run

namespace Call

def work : Call → Work Bool
  | add source line => Session.add source line
  | run => Session.run

def accepted (s : Session) : Call → List Stmt
  | add source line => (s.accepted? source line).getD []
  | run => []

end Call

namespace Session

open Work

/-- The session after some calls. A call that fails is followed by the next one all the same. -/
def perform (s : Session) (calls : List Call) : Session :=
  calls.foldl (fun s call => call.work.after s) s

def batches (s : Session) : List Call → List (List Stmt)
  | [] => []
  | .add source line :: calls => batches ((add source line).after s) calls
  | .run :: calls => s.queue :: batches (run.after s) calls

theorem machine_ran_accepting {s : Session} (h : s.queue = []) (source : String) (line : Int)
    (tokens : List Token) :
    (s.accepting source line tokens).ran.machine =
      s.machine.runBatch s.limits (parse tokens).statements := by
  unfold ran
  rw [run_accepting h]
  rfl

variable (s : Session)

/-- Adding a source puts its statements into the queue, if it is accepted. Apart from that, only
the reporter and the log can change. -/
theorem exists_after_add (source : String) (line : Int) :
    ∃ reporter log, (add source line).after s = { s with
      queue := s.queue ++ (s.accepted? source line).getD []
      reporter := reporter
      log := log } := by
  unfold Work.after
  cases hscan : scan source line with
  | error failure =>
    rw [add_of_scan_error hscan, accepted?_of_scan_error hscan]
    exact ⟨(s.registering source line).reporter, s.log, by simp [registering]⟩
  | ok tokens =>
    cases hbound : s.parseBound tokens with
    | some count =>
      rw [add_of_parseBound hscan hbound, accepted?_of_parseBound hscan hbound, Option.getD_none,
        List.append_nil]
      exact ⟨_, _, rfl⟩
    | none =>
      by_cases herrors : (parse tokens).errors = []
      · by_cases hlists : s.ListsAll (parse tokens).statements
        · have haccepts : s.Accepts source line tokens := ⟨hscan, herrors, hbound, hlists⟩
          rw [add_of_accepts haccepts, accepted?_of_accepts haccepts]
          exact ⟨_, _, rfl⟩
        · rw [add_of_unlisted hscan herrors hbound hlists, accepted?_of_not_lists hscan hlists,
            Option.getD_none, List.append_nil]
          exact ⟨_, _, rfl⟩
      · rw [add_of_errors hscan herrors hbound, accepted?_of_errors hscan herrors,
          Option.getD_none, List.append_nil]
        cases s.reporter.fatal <;> exact ⟨_, _, rfl⟩

/-- Running takes all out of the queue, however it ends. -/
theorem exists_after_run : ∃ reporter log, run.after s = { s with
    queue := []
    machine := s.machine.runBatch s.limits s.queue
    reporter := reporter
    log := log } := by
  unfold Work.after
  cases h : (s.machine.run s.limits s.queue).1 with
  | none =>
    rw [run_of_done h]
    exact ⟨_, _, rfl⟩
  | some halt =>
    cases halt with
    | failed e =>
      rw [run_of_failed h]
      cases s.reporter.fatal <;> exact ⟨_, _, rfl⟩
    | unsupported | recursion | exhausted =>
      rw [run_of_halted h (by simp)]
      exact ⟨_, _, rfl⟩

/-- No call changes which sources are accepted. -/
theorem accepted_after (call : Call) : Call.accepted (call.work.after s) = Call.accepted s := by
  cases call with
  | add source line =>
    obtain ⟨_, _, hadd⟩ := s.exists_after_add source line
    rw [Call.work, hadd]
    rfl
  | run =>
    obtain ⟨_, _, hrun⟩ := s.exists_after_run
    rw [Call.work, hrun]
    rfl

theorem accepted_perform (calls : List Call) :
    Call.accepted (s.perform calls) = Call.accepted s := by
  induction calls generalizing s with
  | nil => rfl
  | cons call calls ih => exact (ih (call.work.after s)).trans (s.accepted_after call)

theorem perform_append (calls more : List Call) :
    s.perform (calls ++ more) = (s.perform calls).perform more :=
  List.foldl_append

/-- The batches that were run and the queue are, one behind the other, what was in the queue at
first and what was accepted since then. -/
theorem flatten_batches_append_queue (calls : List Call) :
    (s.batches calls).flatten ++ (s.perform calls).queue =
      s.queue ++ calls.flatMap (Call.accepted s) := by
  induction calls generalizing s with
  | nil => simp [batches, perform]
  | cons call calls ih =>
    cases call with
    | add source line =>
      obtain ⟨_, _, hadd⟩ := s.exists_after_add source line
      have hqueue : ((add source line).after s).queue =
          s.queue ++ (s.accepted? source line).getD [] := by rw [hadd]
      have haccepted := s.accepted_after (.add source line)
      rw [Call.work] at haccepted
      have hrest := ih ((add source line).after s)
      rw [hqueue, haccepted, List.append_assoc] at hrest
      exact hrest
    | run =>
      obtain ⟨_, _, hrun⟩ := s.exists_after_run
      have hqueue : (run.after s).queue = [] := by rw [hrun]
      have haccepted := s.accepted_after .run
      rw [Call.work] at haccepted
      have hrest := ih (run.after s)
      rw [hqueue, haccepted, List.nil_append] at hrest
      rw [batches, List.flatten_cons, List.append_assoc]
      exact congrArg (s.queue ++ ·) hrest

/-- The machine has run the batches, one after the other, and nothing else. -/
theorem machine_perform (calls : List Call) :
    (s.perform calls).machine = (s.batches calls).foldl (Machine.runBatch s.limits) s.machine := by
  induction calls generalizing s with
  | nil => rfl
  | cons call calls ih =>
    cases call with
    | add source line =>
      obtain ⟨_, _, hadd⟩ := s.exists_after_add source line
      have hrest := ih ((add source line).after s)
      have hlimits : ((add source line).after s).limits = s.limits := by rw [hadd]
      have hmachine : ((add source line).after s).machine = s.machine := by rw [hadd]
      rw [hlimits, hmachine] at hrest
      exact hrest
    | run =>
      obtain ⟨_, _, hrun⟩ := s.exists_after_run
      have hrest := ih (run.after s)
      have hlimits : (run.after s).limits = s.limits := by rw [hrun]
      have hmachine : (run.after s).machine = s.machine.runBatch s.limits s.queue := by rw [hrun]
      rw [hlimits, hmachine] at hrest
      exact hrest

end Session

open Session

/-- A source that is rejected, by the scanner or by the parser or because the host has too few
frames to parse it or to list its trees, changes neither the queue nor the machine, and one that is
accepted puts its statements at the end of the queue. Each run leaves the queue empty. So in any
history the machine is given the accepted statements once and in their order, as far as they do not
wait in the queue, and is given nothing else. After a run, with or without an error, it is given
only what was accepted since. -/
theorem accepted_statements_run_once (s : Session) :
    (∀ source line failure, scan source line = .error failure →
      ∃ s', add source line s = .error (.raised failure.error.toDiagnostic) s' ∧
        s'.queue = s.queue ∧ s'.machine = s.machine) ∧
    (∀ source line tokens, scan source line = .ok tokens →
      (∀ count, s.parseBound tokens = some count →
        ∃ s', add source line s = .error .recursion s' ∧
          s'.queue = s.queue ∧ s'.machine = s.machine) ∧
      (s.parseBound tokens = none → (parse tokens).errors ≠ [] →
        ∃ s', (add source line s =
            if s.reporter.fatal then .error (.exit 65) s' else .ok false s') ∧
          s'.queue = s.queue ∧ s'.machine = s.machine) ∧
      (s.parseBound tokens = none → (parse tokens).errors = [] →
        (¬ s.ListsAll (parse tokens).statements →
          ∃ s', add source line s = .error .recursion s' ∧
            s'.queue = s.queue ∧ s'.machine = s.machine) ∧
        (s.ListsAll (parse tokens).statements →
          ∃ s', add source line s = .ok true s' ∧
            s'.queue = s.queue ++ (parse tokens).statements ∧ s'.machine = s.machine))) ∧
    (run.after s).queue = [] ∧
    ∀ calls,
      (s.batches calls).flatten ++ (s.perform calls).queue =
        s.queue ++ calls.flatMap (Call.accepted s) ∧
      (s.perform calls).machine =
        (s.batches calls).foldl (Machine.runBatch s.limits) s.machine ∧
      ∀ earlier later, calls = earlier ++ .run :: later →
        ((s.perform (earlier ++ [.run])).batches later).flatten ++ (s.perform calls).queue =
          later.flatMap (Call.accepted s) := by
  refine ⟨?_, ?_, ?_, ?_⟩
  · intro source line failure hscan
    exact ⟨_, add_of_scan_error hscan s, rfl, rfl⟩
  · intro source line tokens hscan
    refine ⟨fun count hbound => ⟨_, add_of_parseBound hscan hbound, rfl, rfl⟩, ?_, ?_⟩
    · intro hbound herrors
      rw [add_of_errors hscan herrors hbound]
      cases s.reporter.fatal with
      | true => exact ⟨_, rfl, rfl, rfl⟩
      | false => exact ⟨_, rfl, rfl, rfl⟩
    · intro hbound herrors
      exact ⟨fun hlists => ⟨_, add_of_unlisted hscan herrors hbound hlists, rfl, rfl⟩,
        fun hlists => ⟨_, add_of_accepts ⟨hscan, herrors, hbound, hlists⟩, rfl, rfl⟩⟩
  · obtain ⟨_, _, hrun⟩ := s.exists_after_run
    rw [hrun]
  · intro calls
    refine ⟨s.flatten_batches_append_queue calls, s.machine_perform calls, ?_⟩
    rintro earlier later rfl
    have hafter : s.perform (earlier ++ .run :: later) =
        (s.perform (earlier ++ [.run])).perform later := by
      rw [← perform_append, List.append_assoc, List.singleton_append]
    have hqueue : (s.perform (earlier ++ [.run])).queue = [] := by
      obtain ⟨_, _, hrun⟩ := (s.perform earlier).exists_after_run
      rw [perform_append]
      exact congrArg Session.queue hrun
    have hbatches := (s.perform (earlier ++ [.run])).flatten_batches_append_queue later
    rw [hqueue, List.nil_append, accepted_perform] at hbatches
    rw [hafter, hbatches]

/-- A statement behind an error is skipped, and the next run does not go back to it. -/
theorem accepted_statements_run_once_skipped :
    let s : Session := {
      reporter := { fatal := false }, machine := .start fun _ => 0, limits := ⟨9, 1, 99⟩
      path := typed, interactive := true }
    let printNil : Stmt := .print (.literal .nil)
    let later : List Call := [.add "print true;" 2, .run]
    let calls : List Call := .add "a;print nil;" 1 :: .run :: later
    (∃ i s', add "@" 1 s = .error i s' ∧ s'.queue = s.queue) ∧
    (∃ s', add "+" 1 s = .ok false s' ∧ s'.queue = s.queue) ∧
    (∃ s', add "a;print nil;" 1 s = .ok true s' ∧ printNil ∈ s'.queue) ∧
    ((s.perform [.add "a;print nil;" 1, .run]).batches later).flatten ++
      (s.perform calls).queue = [.print (.literal (.bool true))] ∧
    .output "true" ∈ (s.perform calls).log.toList ∧
    .output "nil" ∉ (s.perform calls).log.toList := by
  intro s printNil later calls
  let sum : List Token := [⟨.plus, "+", .nil, 1, some 0⟩, ⟨.eof, "", .nil, 1, some 1⟩]
  let tokens : List Token := [⟨.identifier, "a", .nil, 1, some 0⟩,
    ⟨.semicolon, ";", .nil, 1, some 1⟩, ⟨.keyword .printWord, "print", .nil, 1, some 2⟩,
    ⟨.keyword .nilWord, "nil", .nil, 1, some 8⟩, ⟨.semicolon, ";", .nil, 1, some 11⟩,
    ⟨.eof, "", .nil, 1, some 12⟩]
  have hat : scan "@" 1 = .error ⟨[], ⟨.unexpectedCharacter '@', 1, "@", 0⟩⟩ := by cbv
  have hsum : scan "+" 1 = .ok sum := by cbv
  have hscan : scan "a;print nil;" 1 = .ok tokens := by cbv
  have hprint : scan "print true;" 2 = .ok [⟨.keyword .printWord, "print", .nil, 2, some 0⟩,
      ⟨.keyword .trueWord, "true", .nil, 2, some 6⟩, ⟨.semicolon, ";", .nil, 2, some 10⟩,
      ⟨.eof, "", .nil, 2, some 11⟩] := by cbv
  have hlists : ∀ statements, s.ListsAll statements := by simp [ListsAll, s]
  have hlater : later.flatMap (Call.accepted s) = [.print (.literal (.bool true))] := by
    have haccepted := accepted?_of_accepts (s := s) ⟨hprint, by decide +kernel, rfl, hlists _⟩
    rw [List.flatMap_cons, Call.accepted, haccepted]
    rfl
  obtain ⟨hunscanned, hscanned, -, hhistory⟩ := accepted_statements_run_once s
  obtain ⟨s₁, hadd₁, hqueue₁, -⟩ := hunscanned "@" 1 _ hat
  obtain ⟨-, hunparsed, -⟩ := hscanned "+" 1 sum hsum
  obtain ⟨s₂, hadd₂, hqueue₂, -⟩ := hunparsed rfl (by decide +kernel)
  obtain ⟨-, -, hparsed⟩ := hscanned "a;print nil;" 1 tokens hscan
  obtain ⟨s₃, hadd₃, hqueue₃, -⟩ := (hparsed rfl (by decide +kernel)).2 (hlists _)
  refine ⟨⟨_, s₁, hadd₁, hqueue₁⟩, ⟨s₂, hadd₂, hqueue₂⟩, ⟨s₃, hadd₃, ?_⟩, ?_, ?_⟩
  · rw [hqueue₃]
    exact List.mem_cons_of_mem _ List.mem_cons_self
  · rw [← hlater]
    exact (hhistory calls).2.2 [.add "a;print nil;" 1] later rfl
  · decide +kernel

end Lox
