import LoxInterpreter.Proofs.Runtime.Respected

/-!
The current scope. Blocks and calls open scopes of their own and leave them again, whether they
end well, return, or halt. So a part of a run ends in the scope that it began in.
-/

namespace Lox

namespace Run

/-- Only a scope changes the current scope, and at its end it is changed back. -/
theorem respected_current : Respected fun m m' => m'.current = m.current where
  refl _ := rfl
  trans h h' := h'.trans h
  define _ _ _ _ := rfl
  makeFunction _ := rfl
  print _ _ := rfl
  readClock _ := rfl
  inScope _ _ _ _ _ := rfl

end Run

/-- The machine after some programs were run on it one after another, each with its limits. -/
def Machine.runAll (m : Machine) (programs : List (Limits × List Stmt)) : Machine :=
  programs.foldl (fun m p => (m.run p.1 p.2).2) m

theorem Machine.current_runAll (programs : List (Limits × List Stmt)) (m : Machine) :
    (m.runAll programs).current = m.current := by
  induction programs generalizing m with
  | nil => rfl
  | cons p programs ih =>
    have hrun : (m.run p.1 p.2).2.current = m.current :=
      Machine.respects_run Run.respected_current p.1 p.2 m
    exact (ih _).trans hrun

/-- Every expression, statement and call ends in the scope that it began in, whether it ends
well, returns, or halts. So the machine is in the global scope after each program. -/
theorem current_scope_restored :
    (∀ fuel room e m, (Run.after (Run.evaluate fuel room e) m).current = m.current) ∧
    (∀ fuel room es m, (Run.after (Run.evaluateAll fuel room es) m).current = m.current) ∧
    (∀ fuel room f paren args m,
      (Run.after (Run.call fuel room f paren args) m).current = m.current) ∧
    (∀ fuel room s m, (Run.after (Run.execute fuel room s) m).current = m.current) ∧
    (∀ fuel room ss m, (Run.after (Run.executeAll fuel room ss) m).current = m.current) ∧
    (∀ fuel room condition body m,
      (Run.after (Run.repeatWhile fuel room condition body) m).current = m.current) ∧
    ∀ clock programs, ((Machine.start clock).runAll programs).current = Store.globals := by
  have hrespected := Run.respectedWith Run.respected_current
  refine ⟨?_, ?_, ?_, ?_, ?_, ?_, ?_⟩
  · exact fun fuel => (hrespected fuel).evaluate
  · exact fun fuel => (hrespected fuel).evaluateAll
  · exact fun fuel => (hrespected fuel).call
  · exact fun fuel => (hrespected fuel).execute
  · exact fun fuel => (hrespected fuel).executeAll
  · exact fun fuel => (hrespected fuel).repeatWhile
  · exact fun clock programs => Machine.current_runAll programs (Machine.start clock)

end Lox
