import LoxInterpreter.Machine.Run

/-!
Relations between machines that runs respect. Whatever a part of a run does, it does by a few
actions of the machine, and it opens scopes only by `inScope`. So a reflexive and transitive
relation that each of these respects holds between the machine before a part of a run and the
machine that it leaves behind, however it ends.
-/

namespace Lox

namespace Run

variable {α β : Type}

def after (r : Run α) (m : Machine) : Machine :=
  match r m with
  | .ok _ m' => m'
  | .error _ m' => m'

theorem after_overflowing (paren : Token) (r : Run α) (m : Machine) :
    (overflowing paren r).after m = r.after m := by
  unfold after overflowing
  rcases r m with ⟨a, m'⟩ | ⟨_ | _ | _ | _, m'⟩ <;> rfl

/-- The relation is reflexive and transitive, the actions of the machine respect it, and so does
a scope whose body does. -/
structure Respected (R : Machine → Machine → Prop) : Prop where
  refl : ∀ m, R m m
  trans : ∀ {m₁ m₂ m₃}, R m₁ m₂ → R m₂ m₃ → R m₁ m₃
  define : ∀ m id name v, R m { m with store := m.store.define id name v }
  makeFunction : ∀ m, R m { m with functions := m.functions + 1 }
  print : ∀ m text, R m { m with printed := m.printed.push text }
  readClock : ∀ m, R m { m with readings := m.readings + 1 }
  inScope : ∀ m bindings enclosing m',
    R { m with
      store := (m.store.openScope bindings enclosing).2
      current := (m.store.openScope bindings enclosing).1 } m' →
    R m { m' with current := m.current }

/-- The relation holds from each machine to the one that the part of a run leaves behind. -/
def Respects (R : Machine → Machine → Prop) (r : Run α) : Prop := ∀ m, R m (after r m)

namespace Respected

variable {R : Machine → Machine → Prop}

theorem pure (hR : Respected R) (a : α) : Respects R (Pure.pure a : Run α) := hR.refl

theorem throw (hR : Respected R) (halt : Halt) : Respects R (MonadExcept.throw halt : Run α) :=
  hR.refl

theorem fail (hR : Respected R) (token : Token) (cause : RuntimeCause) :
    Respects R (Run.fail token cause : Run α) := hR.refl

theorem bind (hR : Respected R) {r : Run α} {f : α → Run β} (hr : Respects R r)
    (hf : ∀ a, Respects R (f a)) : Respects R (r >>= f) := by
  intro m
  have hfirst := hr m
  unfold after at hfirst ⊢
  rw [Step.bind_apply]
  cases hrun : r m with
  | ok a m' =>
    rw [hrun] at hfirst
    exact hR.trans hfirst (hf a m')
  | error halt m' =>
    rw [hrun] at hfirst
    exact hfirst

theorem ite (p : Prop) [Decidable p] {r r' : Run α} (hr : Respects R r) (hr' : Respects R r') :
    Respects R (if p then r else r') := by
  split
  · exact hr
  · exact hr'

theorem respects_get (hR : Respected R) (name : Token) : Respects R (Run.get name) := by
  intro m
  unfold after Run.get
  cases m.store.get? m.current name.lexeme <;> exact hR.refl m

theorem respects_assign (hR : Respected R) (name : Token) (v : Value) :
    Respects R (Run.assign name v) := by
  intro m
  unfold after Run.assign
  cases m.store.resolve name.lexeme m.current with
  | none => exact hR.refl m
  | some owner => exact hR.define m owner name.lexeme v

theorem respects_define (hR : Respected R) (name : Token) (v : Value) :
    Respects R (Run.define name v) :=
  fun m => hR.define m m.current name.lexeme v

theorem respects_ofOperator (hR : Respected R) (op : Token)
    (result : Except OperatorFault Value) : Respects R (ofOperator op result) := by
  match result with
  | .ok v => exact hR.pure v
  | .error (.unfit cause) => exact hR.fail op cause
  | .error .unsupported => exact hR.throw (.unsupported op)

theorem respects_inScope (hR : Respected R) (bindings : List (String × Value))
    (enclosing : ScopeId) {body : Run α} (h : Respects R body) :
    Respects R (Run.inScope bindings enclosing body) := by
  intro m
  have hbody := hR.inScope m bindings (some enclosing) _ (h _)
  unfold after at hbody ⊢
  unfold Run.inScope
  dsimp only
  -- Whether the body halts or not, the scope is left in the same way.
  generalize body { m with
    store := (m.store.openScope bindings (some enclosing)).2
    current := (m.store.openScope bindings (some enclosing)).1 } = result at hbody
  cases result <;> exact hbody

theorem respects_inBlock (hR : Respected R) {body : Run α} (h : Respects R body) :
    Respects R (Run.inBlock body) :=
  fun m => hR.respects_inScope [] m.current h m

theorem respects_inFrames (hR : Respected R) {room : Room} {count : Nat} {body : Room → Run α}
    (h : ∀ room, Respects R (body room)) : Respects R (Run.inFrames room count body) :=
  Room.nested_induction (hR.throw .recursion) h

theorem respects_overflowing {paren : Token} {body : Run α} (h : Respects R body) :
    Respects R (Run.overflowing paren body) := by
  intro m
  rw [after_overflowing]
  exact h m

end Respected

structure RespectedWith (R : Machine → Machine → Prop) (fuel : Nat) : Prop where
  evaluate (room : Room) (e : Expr) : Respects R (Run.evaluate fuel room e)
  evaluateAll (room : Room) (es : List Expr) : Respects R (Run.evaluateAll fuel room es)
  call (room : Room) (f : Value) (paren : Token) (args : List Value) :
    Respects R (Run.call fuel room f paren args)
  execute (room : Room) (s : Stmt) : Respects R (Run.execute fuel room s)
  executeAll (room : Room) (ss : List Stmt) : Respects R (Run.executeAll fuel room ss)
  repeatWhile (room : Room) (condition : Expr) (body : Stmt) :
    Respects R (Run.repeatWhile fuel room condition body)

namespace RespectedWith

variable {R : Machine → Machine → Prop} {fuel : Nat}

theorem step_evaluate (hR : Respected R) (ih : RespectedWith R fuel) (room : Room) (e : Expr) :
    Respects R (Run.evaluate (fuel + 1) room e) := by
  refine hR.respects_inFrames fun room => ?_
  match e with
  | .literal v => exact hR.pure (Value.ofLiteral v)
  | .grouping inner => exact ih.evaluate room inner
  | .unary op right =>
    exact hR.bind (ih.evaluate room right) fun v => hR.respects_ofOperator op _
  | .binary left op right =>
    exact hR.bind (ih.evaluate room left) fun v =>
      hR.bind (ih.evaluate room right) fun w => hR.respects_ofOperator op _
  | .logical left op right =>
    refine hR.bind (ih.evaluate room left) fun v => ?_
    exact Respected.ite _ (hR.pure v) (ih.evaluate room right)
  | .variable name => exact hR.respects_get name
  | .assign name value =>
    exact hR.bind (ih.evaluate room value) fun v =>
      hR.bind (hR.respects_assign name v) fun _ => hR.pure v
  | .call callee paren arguments =>
    exact hR.bind (ih.evaluate room callee) fun f =>
      hR.bind (ih.evaluateAll room arguments) fun args => ih.call room f paren args

theorem step_evaluateAll (hR : Respected R) (ih : RespectedWith R fuel) (room : Room)
    (es : List Expr) : Respects R (Run.evaluateAll (fuel + 1) room es) := by
  match es with
  | [] => exact hR.pure []
  | e :: es =>
    exact hR.bind (ih.evaluate room e) fun v =>
      hR.bind (ih.evaluateAll room es) fun vs => hR.pure (v :: vs)

theorem step_call (hR : Respected R) (ih : RespectedWith R fuel) (room : Room) (f : Value)
    (paren : Token) (args : List Value) :
    Respects R (Run.call (fuel + 1) room f paren args) := by
  refine hR.respects_inFrames fun room => ?_
  split
  · exact hR.fail paren .notCallable
  · refine Respected.ite _ (hR.fail paren _) ?_
    split
    · split
      · exact hR.fail paren .stackOverflow
      · refine Respected.respects_overflowing (hR.respects_inFrames fun room => ?_)
        refine hR.bind (hR.respects_inScope _ _ (ih.executeAll room _)) fun completion => ?_
        exact hR.pure completion.result
    · exact Respected.respects_overflowing (hR.respects_inFrames fun _ => hR.readClock)

theorem step_execute (hR : Respected R) (ih : RespectedWith R fuel) (room : Room) (s : Stmt) :
    Respects R (Run.execute (fuel + 1) room s) := by
  refine hR.respects_inFrames fun room => ?_
  match s with
  | .expression e => exact hR.bind (ih.evaluate room e) fun _ => hR.pure Completion.normal
  | .print e =>
    refine hR.bind (ih.evaluate room e) fun v => ?_
    exact hR.bind (fun m => hR.print m v.text) fun _ => hR.pure Completion.normal
  | .var name none =>
    exact hR.bind (hR.respects_define name .nil) fun _ => hR.pure Completion.normal
  | .var name (some e) =>
    refine hR.bind (ih.evaluate room e) fun v => ?_
    exact hR.bind (hR.respects_define name v) fun _ => hR.pure Completion.normal
  | .block body =>
    exact hR.respects_inFrames fun room => hR.respects_inBlock (ih.executeAll room body)
  | .conditional condition thenBranch elseBranch =>
    refine hR.bind (ih.evaluate room condition) fun v => ?_
    refine Respected.ite _ (ih.execute room thenBranch) ?_
    split
    · exact ih.execute room _
    · exact hR.pure Completion.normal
  | .loop condition body => exact ih.repeatWhile room condition body
  | .function name params body =>
    refine hR.bind (fun m => hR.makeFunction m) fun f => ?_
    exact hR.bind (hR.respects_define name f) fun _ => hR.pure Completion.normal
  | .result _ none => exact hR.pure (Completion.returned .nil)
  | .result _ (some e) =>
    exact hR.bind (ih.evaluate room e) fun v => hR.pure (Completion.returned v)

theorem step_executeAll (hR : Respected R) (ih : RespectedWith R fuel) (room : Room)
    (ss : List Stmt) : Respects R (Run.executeAll (fuel + 1) room ss) := by
  match ss with
  | [] => exact hR.pure Completion.normal
  | s :: ss =>
    refine hR.bind (ih.execute room s) fun completion => ?_
    match completion with
    | .normal => exact ih.executeAll room ss
    | .returned v => exact hR.pure (Completion.returned v)

theorem step_repeatWhile (hR : Respected R) (ih : RespectedWith R fuel) (room : Room)
    (condition : Expr) (body : Stmt) :
    Respects R (Run.repeatWhile (fuel + 1) room condition body) := by
  refine hR.bind (ih.evaluate room condition) fun v => ?_
  refine Respected.ite _ (hR.bind (ih.execute room body) fun completion => ?_)
    (hR.pure Completion.normal)
  match completion with
  | .normal => exact ih.repeatWhile room condition body
  | .returned v => exact hR.pure (Completion.returned v)

end RespectedWith

/-- A relation that the actions of the machine respect is respected by all parts of runs. The
induction is on the fuel, which every recursion uses up. -/
theorem respectedWith {R : Machine → Machine → Prop} (hR : Respected R) (fuel : Nat) :
    RespectedWith R fuel := by
  induction fuel with
  | zero =>
    exact {
      evaluate := fun _ _ => hR.throw .exhausted
      evaluateAll := fun _ _ => hR.throw .exhausted
      call := fun _ _ _ _ => hR.throw .exhausted
      execute := fun _ _ => hR.throw .exhausted
      executeAll := fun _ _ => hR.throw .exhausted
      repeatWhile := fun _ _ _ => hR.throw .exhausted }
  | succ fuel ih =>
    exact {
      evaluate := ih.step_evaluate hR
      evaluateAll := ih.step_evaluateAll hR
      call := ih.step_call hR
      execute := ih.step_execute hR
      executeAll := ih.step_executeAll hR
      repeatWhile := ih.step_repeatWhile hR }

theorem respects_executeProgram {R : Machine → Machine → Prop} (hR : Respected R)
    (fuel : Nat) (room : Room) (program : List Stmt) :
    Respects R (executeProgram fuel room program) := by
  induction program with
  | nil => exact hR.pure ()
  | cons s ss ih => exact hR.bind ((respectedWith hR fuel).execute room s) fun _ => ih

end Run

/-- A run leaves the machine that the execution of its program leaves. -/
theorem Machine.snd_run (limits : Limits) (program : List Stmt) (m : Machine) :
    (m.run limits program).2 =
      (Run.executeProgram limits.fuel limits.calls program).after m := by
  unfold Machine.run Run.after
  cases Run.executeProgram limits.fuel limits.calls program m <;> rfl

/-- A run halts with what the execution of its program halts with. -/
theorem Machine.fst_run_eq_some_iff {limits : Limits} {program : List Stmt} {m : Machine}
    {halt : Halt} : (m.run limits program).1 = some halt ↔
      ∃ m', Run.executeProgram limits.fuel limits.calls program m = .error halt m' := by
  unfold Machine.run
  cases Run.executeProgram limits.fuel limits.calls program m <;> simp

/-- Whole runs respect the relation as well. -/
theorem Machine.respects_run {R : Machine → Machine → Prop} (hR : Run.Respected R)
    (limits : Limits) (program : List Stmt) (m : Machine) : R m (m.run limits program).2 := by
  rw [Machine.snd_run]
  exact Run.respects_executeProgram hR limits.fuel limits.calls program m

end Lox
