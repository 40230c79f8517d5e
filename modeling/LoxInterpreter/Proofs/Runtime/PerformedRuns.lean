import LoxInterpreter.Proofs.Runtime.Layers
import LoxInterpreter.Proofs.Runtime.Situations

/-!
Runs are performed by acts. Whatever a part of a run does, however it ends, it does by a sequence of
acts, which leaves the result at hand and returns to the scope before. So what holds in all
situations that acts lead to holds wherever a run gets.
-/

namespace Lox

namespace Run

variable {α : Type} {r : Run α} {bindings : List (String × Value)} {enclosing : ScopeId}
  {m m' : Machine}

/-- The scope before is returned to, however the body ends. -/
theorem after_inScope (bindings : List (String × Value)) (enclosing : ScopeId) (r : Run α)
    (m : Machine) : (inScope bindings enclosing r).after m =
      { r.after (Trace.opened bindings enclosing m) with current := m.current } := by
  unfold after inScope Trace.opened
  dsimp only
  cases r { m with
    store := (m.store.openScope bindings (some enclosing)).2
    current := (m.store.openScope bindings (some enclosing)).1 } <;> rfl

theorem ok_of_inScope {a : α} (h : inScope bindings enclosing r m = .ok a m') :
    ∃ m'', r (Trace.opened bindings enclosing m) = .ok a m'' := by
  unfold inScope at h
  dsimp only at h
  split at h
  next m'' hbody =>
    cases h
    exact ⟨m'', hbody⟩
  next => cases h

theorem ok_of_overflowing {paren : Token} {a : α} (h : overflowing paren r m = .ok a m') :
    r m = .ok a m' := by
  unfold overflowing at h
  split at h
  · cases h
  · exact h

end Run

namespace Situation

variable {p q : Situation} {α β : Type}

/-- Acts lead from `p` to a situation behind a part of a run, in which its result is at hand if it
has one. -/
structure Performs (p : Situation) (t : Trace) (r : Run α) (gives : α → List Value)
    (q : Situation) : Prop where
  leads : p.Leads q
  machine : q.machine = r.after p.machine
  moments : q.moments = p.moments ++ t p.machine
  outer : q.outer = p.outer
  hand : p.hand ⊆ q.hand
  given : ∀ a m, r p.machine = .ok a m → gives a ⊆ q.hand

theorem Performs.of_ok {t : Trace} {r : Run α} {gives : α → List Value} {a : α} {m : Machine}
    (h : Performs p t r gives q) (hrun : r p.machine = .ok a m) :
    q.machine = m ∧ gives a ⊆ q.hand := by
  refine ⟨?_, h.given a m hrun⟩
  rw [h.machine, Run.after, hrun]

def Realizes (p : Situation) (t : Trace) (r : Run α) (gives : α → List Value) : Prop :=
  ∃ q, Performs p t r gives q

namespace Realizes

variable {t : Trace} {r : Run α} {gives : α → List Value} {gives' : β → List Value}

theorem of_act {a : α} {m : Machine} (hrun : r p.machine = .ok a m) (hact : p.Act q)
    (hmachine : q.machine = m) (hmoments : q.moments = p.moments ++ t p.machine)
    (houter : q.outer = p.outer) (hhand : p.hand ⊆ q.hand) (hgiven : gives a ⊆ q.hand) :
    p.Realizes t r gives := by
  refine ⟨q, .act hact, ?_, hmoments, houter, hhand, ?_⟩
  · rw [hmachine, Run.after, hrun]
  · rw [hrun]
    rintro _ _ ⟨⟩
    exact hgiven

/-- Where a part of a run halts at once, nothing needs to be done. -/
theorem of_halt {halt : Halt} (hrun : r p.machine = .error halt p.machine) :
    p.Realizes .quiet r gives := by
  refine ⟨p, .refl p, ?_, (List.append_nil _).symm, rfl, List.Subset.refl _, ?_⟩
  · rw [Run.after, hrun]
  · rw [hrun]
    rintro _ _ ⟨⟩

theorem pure {a : α} (h : gives a ⊆ p.hand) : p.Realizes .quiet (Pure.pure a) gives := by
  refine ⟨p, .refl p, rfl, (List.append_nil _).symm, rfl, List.Subset.refl _, ?_⟩
  rintro _ _ ⟨⟩
  exact h

theorem throw (p : Situation) (halt : Halt) :
    p.Realizes .quiet (MonadExcept.throw halt : Run α) gives := of_halt rfl

theorem fail (p : Situation) (token : Token) (cause : RuntimeCause) :
    p.Realizes .quiet (Run.fail token cause : Run α) gives := throw p _

theorem bind {f : α → Run β} {next : α → Trace} (hr : p.Realizes t r gives)
    (hf : ∀ a (q : Situation), p.hand ⊆ q.hand → gives a ⊆ q.hand →
      q.Realizes (next a) (f a) gives') :
    p.Realizes (Trace.andThen t r next) (r >>= f) gives' := by
  obtain ⟨q, hq⟩ := hr
  have hmachine := hq.machine
  unfold Run.after at hmachine
  cases hrun : r p.machine with
  | ok a m =>
    rw [hrun] at hmachine
    obtain ⟨q', hq'⟩ := hf a q hq.hand (hq.given a m hrun)
    have hbind : (r >>= f) p.machine = f a q.machine := by
      rw [Step.bind_of_ok hrun, hmachine]
    refine ⟨q', hq.leads.trans hq'.leads, ?_, ?_, hq'.outer.trans hq.outer, ?_, ?_⟩
    · rw [hq'.machine, Run.after, Run.after, hbind]
    · rw [hq'.moments, hq.moments, Trace.andThen, hrun, List.append_assoc, hmachine]
    · exact List.Subset.trans hq.hand hq'.hand
    · rw [hbind]
      exact hq'.given
  | error halt m =>
    rw [hrun] at hmachine
    have hbind : (r >>= f) p.machine = .error halt m := Step.bind_of_error hrun f
    refine ⟨q, hq.leads, ?_, ?_, hq.outer, hq.hand, ?_⟩
    · rw [hmachine, Run.after, hbind]
    · rw [hq.moments, Trace.andThen, hrun, List.append_nil]
    · rw [hbind]
      rintro _ _ ⟨⟩

theorem bind_quiet {f : α → Run β} (hr : p.Realizes t r gives)
    (hf : ∀ a (q : Situation), p.hand ⊆ q.hand → gives a ⊆ q.hand →
      q.Realizes .quiet (f a) gives') :
    p.Realizes t (r >>= f) gives' := by
  have hbind := hr.bind hf
  rwa [Trace.andThen_quiet] at hbind

theorem ite (c : Prop) [Decidable c] {t' : Trace} {r' : Run α} (hr : p.Realizes t r gives)
    (hr' : p.Realizes t' r' gives) :
    p.Realizes (if c then t else t') (if c then r else r') gives := by
  split
  · exact hr
  · exact hr'

theorem inFrames {room : Room} {count : Nat} {t : Room → Trace} {body : Room → Run α}
    (h : ∀ room, p.Realizes (t room) (body room) gives) :
    p.Realizes (Trace.inFrames room count t) (Run.inFrames room count body) gives :=
  Room.nested_induction₂ (P := fun t r => p.Realizes t r gives) (throw p .recursion) h

/-- A call that overflows does what its body does. -/
theorem overflowing (paren : Token) (h : p.Realizes t r gives) :
    p.Realizes t (Run.overflowing paren r) gives := by
  obtain ⟨q, hq⟩ := h
  refine ⟨q, hq.leads, ?_, hq.moments, hq.outer, hq.hand, ?_⟩
  · rw [hq.machine, Run.after_overflowing]
  · exact fun a m hrun => hq.given a m (Run.ok_of_overflowing hrun)

/-- A value that is no function can be come by at any time. -/
theorem of_compute {v : Value} (hv : ∀ f, v ≠ .function f)
    (h : Realizes { p with hand := v :: p.hand } t r gives) : p.Realizes t r gives := by
  obtain ⟨q, hq⟩ := h
  exact ⟨q, (Leads.act (.compute p hv)).trans hq.leads, hq.machine, hq.moments, hq.outer,
    List.Subset.trans (List.subset_cons_self v p.hand) hq.hand, hq.given⟩

theorem computed {v : Value} (hv : ∀ f, v ≠ .function f) :
    p.Realizes .quiet (Pure.pure v) fun v => [v] :=
  of_compute hv (.pure (List.cons_subset_cons v (List.nil_subset _)))

theorem ofOperator (op : Token) {result : Except OperatorFault Value}
    (h : ∀ v, result = .ok v → ∀ f, v ≠ .function f) :
    p.Realizes .quiet (Run.ofOperator op result) fun v => [v] := by
  cases result with
  | ok v => exact computed (h v rfl)
  | error fault =>
    cases fault with
    | unfit cause => exact fail p op cause
    | unsupported => exact throw p _

theorem get (p : Situation) (name : Token) : p.Realizes .quiet (Run.get name) fun v => [v] := by
  cases hget : p.machine.store.get? p.machine.current name.lexeme with
  | some v =>
    have hrun : Run.get name p.machine = .ok v p.machine := by rw [Run.get, hget]
    exact of_act hrun (.read p hget) rfl (List.append_nil _).symm rfl (List.subset_cons_self _ _)
      (List.cons_subset_cons v (List.nil_subset _))
  | none => exact of_halt (by rw [Run.get, hget])

theorem assign (name : Token) {v : Value} (hv : v ∈ p.hand) :
    p.Realizes .quiet (Run.assign name v) fun _ => [] := by
  cases hresolve : p.machine.store.resolve name.lexeme p.machine.current with
  | some owner =>
    have hrun : Run.assign name v p.machine =
        .ok () { p.machine with store := p.machine.store.define owner name.lexeme v } := by
      rw [Run.assign, hresolve]
    exact of_act hrun (.assign p hv hresolve) rfl (List.append_nil _).symm rfl
      (List.Subset.refl _) (List.nil_subset _)
  | none => exact of_halt (by rw [Run.assign, hresolve])

theorem declaration (name : Token) {v : Value} (hv : v ∈ p.hand) :
    p.Realizes (Trace.declaration name v) (Run.define name v) fun _ => [] :=
  of_act rfl (.declare p name hv) rfl rfl rfl (List.Subset.refl _) (List.nil_subset _)

theorem functionDeclaration (p : Situation) (name : Token) (params : List Token)
    (body : List Stmt) :
    p.Realizes (Trace.functionDeclaration name params body) (do
      let f ← Run.makeFunction name params body
      Run.define name f) fun _ => [] :=
  of_act rfl (.declareFunction p name params body) rfl rfl rfl (List.Subset.refl _)
    (List.nil_subset _)

theorem print (p : Situation) (text : String) :
    p.Realizes .quiet (Run.print text) fun _ => [] :=
  of_act rfl (.print p text) rfl (List.append_nil _).symm rfl (List.Subset.refl _)
    (List.nil_subset _)

theorem readClock (p : Situation) : p.Realizes .quiet Run.readClock fun v => [v] :=
  of_compute (v := .number (p.machine.clock p.machine.readings)) (by simp) <|
    of_act rfl (.readClock _) rfl (List.append_nil _).symm rfl (List.Subset.refl _)
      (List.cons_subset_cons _ (List.nil_subset _))

/-- A scope that was entered is left at the end of its body, however that ends. -/
theorem inScope {entered : Situation} {bindings : List (String × Value)} {enclosing : ScopeId}
    {t' : Trace} (hact : p.Act entered)
    (hmachine : entered.machine = Trace.opened bindings enclosing p.machine)
    (hmoments : entered.moments ++ t entered.machine = p.moments ++ t' p.machine)
    (houter : entered.outer = p.machine.current :: p.outer) (hhand : p.hand ⊆ entered.hand)
    (hbody : entered.Realizes t r gives) :
    p.Realizes t' (Run.inScope bindings enclosing r) gives := by
  obtain ⟨q, hq⟩ := hbody
  have hleave : q.Act { q with
      machine := { q.machine with current := p.machine.current }, outer := p.outer } :=
    .leave q (hq.outer.trans houter)
  refine ⟨_, ((Leads.act hact).trans hq.leads).trans (.act hleave), ?_,
    hq.moments.trans hmoments, rfl, List.Subset.trans hhand hq.hand, ?_⟩
  · rw [Run.after_inScope, hq.machine, hmachine]
  · intro a m hrun
    obtain ⟨m', hbody⟩ := Run.ok_of_inScope hrun
    exact hq.given a m' (hmachine ▸ hbody)

theorem inBlock (hbody : Realizes { p with
      machine := Trace.opened [] p.machine.current p.machine
      outer := p.machine.current :: p.outer } t r gives) :
    p.Realizes (Trace.inBlock t) (Run.inBlock r) gives := by
  have hscope : p.Realizes (Trace.inBlock t) (Run.inScope [] p.machine.current r) gives :=
    inScope (.enterBlock p) rfl rfl rfl (List.Subset.refl _) hbody
  obtain ⟨q, hq⟩ := hscope
  exact ⟨q, hq.leads, hq.machine, hq.moments, hq.outer, hq.hand, hq.given⟩

theorem inCall {f : Closure} {args : List Value} (hf : .function f ∈ p.hand)
    (hargs : args ⊆ p.hand) (hbody : ∀ q : Situation, q.Realizes t r gives) :
    p.Realizes (Trace.inCall f args t) (Run.inScope (parameterBindings f.params args) f.scope r)
      gives :=
  inScope (.enterCall p hf hargs) rfl (List.append_assoc _ _ _) rfl (List.Subset.refl _) (hbody _)

end Realizes

end Situation

def Completion.values : Completion → List Value
  | normal => []
  | returned v => [v]

namespace Situation

variable {p : Situation}

structure RealizesWith (fuel : Nat) : Prop where
  evaluate (p : Situation) (room : Room) (e : Expr) :
    p.Realizes (Trace.evaluate fuel room e) (Run.evaluate fuel room e) fun v => [v]
  evaluateAll (p : Situation) (room : Room) (es : List Expr) :
    p.Realizes (Trace.evaluateAll fuel room es) (Run.evaluateAll fuel room es) fun vs => vs
  call {p : Situation} (room : Room) {f : Value} (paren : Token) {args : List Value}
    (hf : f ∈ p.hand) (hargs : args ⊆ p.hand) :
    p.Realizes (Trace.call fuel room f args) (Run.call fuel room f paren args) fun v => [v]
  execute (p : Situation) (room : Room) (s : Stmt) :
    p.Realizes (Trace.execute fuel room s) (Run.execute fuel room s) Completion.values
  executeAll (p : Situation) (room : Room) (ss : List Stmt) :
    p.Realizes (Trace.executeAll fuel room ss) (Run.executeAll fuel room ss) Completion.values
  repeatWhile (p : Situation) (room : Room) (condition : Expr) (body : Stmt) :
    p.Realizes (Trace.repeatWhile fuel room condition body)
      (Run.repeatWhile fuel room condition body) Completion.values

namespace RealizesWith

variable {fuel : Nat}

theorem step_evaluate (ih : RealizesWith fuel) (p : Situation) (room : Room) (e : Expr) :
    p.Realizes (Trace.evaluate (fuel + 1) room e) (Run.evaluate (fuel + 1) room e)
      fun v => [v] := by
  refine .inFrames fun room => ?_
  cases e with
  | literal l => exact .computed (Value.ne_function_ofLiteral l)
  | grouping inner => exact ih.evaluate p room inner
  | unary op right =>
    exact (ih.evaluate p room right).bind_quiet fun v _ _ _ =>
      .ofOperator op fun _ => Value.ne_function_of_unary
  | binary left op right =>
    refine (ih.evaluate p room left).bind fun v q _ _ => ?_
    exact (ih.evaluate q room right).bind_quiet fun w _ _ _ =>
      .ofOperator op fun _ => Value.ne_function_of_binary
  | logical left op right =>
    exact (ih.evaluate p room left).bind fun v q _ hv =>
      .ite _ (.pure hv) (ih.evaluate q room right)
  | «variable» name => exact .get p name
  | assign name value =>
    refine (ih.evaluate p room value).bind_quiet fun v q _ hv => ?_
    exact (Realizes.assign name (hv List.mem_cons_self)).bind_quiet fun _ _ hhand _ =>
      .pure (List.Subset.trans hv hhand)
  | call callee paren arguments =>
    refine (ih.evaluate p room callee).bind fun f q _ hf => ?_
    exact (ih.evaluateAll q room arguments).bind fun args _ hhand hargs =>
      ih.call room paren (hhand (hf List.mem_cons_self)) hargs

theorem step_evaluateAll (ih : RealizesWith fuel) (p : Situation) (room : Room)
    (es : List Expr) :
    p.Realizes (Trace.evaluateAll (fuel + 1) room es) (Run.evaluateAll (fuel + 1) room es)
      fun vs => vs := by
  cases es with
  | nil => exact .pure (List.nil_subset _)
  | cons e es =>
    refine (ih.evaluate p room e).bind fun v q _ hv => ?_
    exact (ih.evaluateAll q room es).bind_quiet fun vs _ hhand hvs =>
      .pure (List.cons_subset.2 ⟨hhand (hv List.mem_cons_self), hvs⟩)

theorem step_call (ih : RealizesWith fuel) (room : Room) {f : Value} (paren : Token)
    {args : List Value} (hf : f ∈ p.hand) (hargs : args ⊆ p.hand) :
    p.Realizes (Trace.call (fuel + 1) room f args) (Run.call (fuel + 1) room f paren args)
      fun v => [v] := by
  refine .inFrames fun room => ?_
  cases f with
  | function f =>
    refine .ite _ (.fail p paren _) ?_
    rcases room with ⟨_ | depth, frames⟩
    · exact .fail p paren .stackOverflow
    · refine .overflowing paren (.inFrames fun room => ?_)
      have hbody := Realizes.inCall hf hargs fun q => ih.executeAll q room f.body
      refine hbody.bind_quiet fun completion q _ hcompletion => ?_
      cases completion with
      | normal => exact .computed (by simp [Completion.result])
      | returned v => exact .pure hcompletion
  | clock =>
    dsimp only [Value.arity?]
    split
    · exact .fail p paren _
    · refine .overflowing paren ?_
      exact Room.nested_induction (P := (p.Realizes .quiet · _)) (.throw p _) fun _ => .readClock p
  | nil | bool | number | string => exact .fail p paren .notCallable

theorem step_execute (ih : RealizesWith fuel) (p : Situation) (room : Room) (s : Stmt) :
    p.Realizes (Trace.execute (fuel + 1) room s) (Run.execute (fuel + 1) room s)
      Completion.values := by
  have hnormal (q : Situation) :
      q.Realizes .quiet (Pure.pure Completion.normal) Completion.values :=
    .pure (List.nil_subset _)
  refine .inFrames fun room => ?_
  cases s with
  | expression e => exact (ih.evaluate p room e).bind_quiet fun _ q _ _ => hnormal q
  | print e =>
    refine (ih.evaluate p room e).bind_quiet fun v q _ _ => ?_
    exact (Realizes.print q v.text).bind_quiet fun _ q _ _ => hnormal q
  | var name initializer =>
    cases initializer with
    | none =>
      refine Realizes.of_compute (v := .nil) (by simp) ?_
      exact (Realizes.declaration name List.mem_cons_self).bind_quiet fun _ q _ _ => hnormal q
    | some e =>
      refine (ih.evaluate p room e).bind fun v q _ hv => ?_
      exact (Realizes.declaration name (hv List.mem_cons_self)).bind_quiet fun _ q _ _ => hnormal q
  | block body => exact .inFrames fun room => (ih.executeAll _ room body).inBlock
  | conditional condition thenBranch elseBranch =>
    refine (ih.evaluate p room condition).bind fun v q _ _ =>
      .ite _ (ih.execute q room thenBranch) ?_
    cases elseBranch with
    | none => exact hnormal q
    | some elseBranch => exact ih.execute q room elseBranch
  | loop condition body => exact ih.repeatWhile p room condition body
  | function name params body =>
    exact (Realizes.functionDeclaration p name params body).bind_quiet fun _ q _ _ => hnormal q
  | result keyword value =>
    cases value with
    | none => exact .of_compute (v := .nil) (by simp) (.pure (by simp [Completion.values]))
    | some e => exact (ih.evaluate p room e).bind_quiet fun v q _ hv => .pure hv

theorem step_executeAll (ih : RealizesWith fuel) (p : Situation) (room : Room) (ss : List Stmt) :
    p.Realizes (Trace.executeAll (fuel + 1) room ss) (Run.executeAll (fuel + 1) room ss)
      Completion.values := by
  cases ss with
  | nil => exact .pure (List.nil_subset _)
  | cons s ss =>
    refine (ih.execute p room s).bind fun completion q _ hcompletion => ?_
    cases completion with
    | normal => exact ih.executeAll q room ss
    | returned v => exact .pure hcompletion

theorem step_repeatWhile (ih : RealizesWith fuel) (p : Situation) (room : Room) (condition : Expr)
    (body : Stmt) :
    p.Realizes (Trace.repeatWhile (fuel + 1) room condition body)
      (Run.repeatWhile (fuel + 1) room condition body) Completion.values := by
  refine (ih.evaluate p room condition).bind fun v q _ _ =>
    .ite _ ?_ (.pure (List.nil_subset _))
  refine (ih.execute q room body).bind fun completion q' _ hcompletion => ?_
  cases completion with
  | normal => exact ih.repeatWhile q' room condition body
  | returned v => exact .pure hcompletion

end RealizesWith

/-- The induction is on the fuel, which runs and traces use up together. -/
theorem realizesWith (fuel : Nat) : RealizesWith fuel := by
  induction fuel with
  | zero =>
    exact {
      evaluate := fun p _ _ => .throw p .exhausted
      evaluateAll := fun p _ _ => .throw p .exhausted
      call := fun _ _ _ _ _ _ => .throw _ .exhausted
      execute := fun p _ _ => .throw p .exhausted
      executeAll := fun p _ _ => .throw p .exhausted
      repeatWhile := fun p _ _ _ => .throw p .exhausted }
  | succ fuel ih =>
    exact {
      evaluate := ih.step_evaluate
      evaluateAll := ih.step_evaluateAll
      call := ih.step_call
      execute := ih.step_execute
      executeAll := ih.step_executeAll
      repeatWhile := ih.step_repeatWhile }

theorem realizes_executeProgram (p : Situation) (fuel : Nat) (room : Room) (program : List Stmt) :
    p.Realizes (Trace.executeProgram fuel room program) (Run.executeProgram fuel room program)
      fun _ => [] := by
  induction program generalizing p with
  | nil => exact .pure (List.nil_subset _)
  | cons s ss ih => exact ((realizesWith fuel).execute p room s).bind fun _ q _ _ => ih q

/-! ### Whole runs -/

/-- Programs that are run one after another are performed by acts. -/
theorem exists_runAll (programs : List (Limits × List Stmt)) (p : Situation) :
    ∃ q, p.Leads q ∧ q.machine = p.machine.runAll programs ∧
      q.moments = p.moments ++ p.machine.moments programs ∧ q.outer = p.outer := by
  induction programs generalizing p with
  | nil => exact ⟨p, .refl p, rfl, (List.append_nil _).symm, rfl⟩
  | cons program programs ih =>
    obtain ⟨q, hq⟩ := p.realizes_executeProgram program.1.fuel program.1.calls program.2
    obtain ⟨q', hleads, hmachine, hmoments, houter⟩ := ih q
    have hrun : q.machine = (p.machine.run program.1 program.2).2 :=
      hq.machine.trans (Machine.snd_run _ _ _).symm
    refine ⟨q', hq.leads.trans hleads, ?_, ?_, houter.trans hq.outer⟩
    · rw [hmachine, hrun]
      rfl
    · rw [hmoments, hq.moments, hrun, List.append_assoc]
      rfl

end Situation

/-- The moments of programs that are run one after another lead from the first machine to the last
one. -/
theorem Machine.linked_moments (programs : List (Limits × List Stmt)) (m : Machine) :
    Linked m (moments programs m) (m.runAll programs) := by
  obtain ⟨q, hleads, hmachine, hmoments, -⟩ := Situation.exists_runAll programs ⟨m, [], [], []⟩
  have hlinked := hleads.linked (Store.Grown.refl m.store)
  rwa [hmachine, hmoments] at hlinked

/-- Wherever a run meets an expression or a statement, it is in a situation. -/
theorem Machine.Reached.exists_situation {m : Machine} (hm : m.Reached) :
    ∃ p : Situation, p.Reachable ∧ p.machine = m := by
  induction hm with
  | start clock => exact ⟨.start clock, .start clock, rfl⟩
  | evaluated _ fuel room e ih =>
    obtain ⟨p, hp, rfl⟩ := ih
    obtain ⟨q, hq⟩ := (Situation.realizesWith fuel).evaluate p room e
    exact ⟨q, hp.leads hq.leads, hq.machine⟩
  | executed _ fuel room s ih =>
    obtain ⟨p, hp, rfl⟩ := ih
    obtain ⟨q, hq⟩ := (Situation.realizesWith fuel).execute p room s
    exact ⟨q, hp.leads hq.leads, hq.machine⟩
  | block _ ih =>
    obtain ⟨p, hp, rfl⟩ := ih
    exact ⟨_, hp.leads (.act (.enterBlock p)), rfl⟩
  | @called _ m₁ m₂ _ fuel room callee arguments f args hcallee hargs ih =>
    obtain ⟨p, hp, rfl⟩ := ih
    obtain ⟨q, hq⟩ := (Situation.realizesWith fuel).evaluate p room callee
    obtain ⟨rfl, hf⟩ := hq.of_ok hcallee
    obtain ⟨q', hq'⟩ := (Situation.realizesWith fuel).evaluateAll q room arguments
    obtain ⟨rfl, hvs⟩ := hq'.of_ok hargs
    have hf' : .function f ∈ q'.hand := hq'.hand (hf List.mem_cons_self)
    exact ⟨_, ((hp.leads hq.leads).leads hq'.leads).leads (.act (.enterCall q' hf' hvs)), rfl⟩

/-- The values of two expressions are both at hand when the second one was evaluated. -/
theorem Machine.Reached.exists_of_operands {m m₁ m₂ : Machine} (hm : m.Reached)
    {fuel : Nat} {room : Room} {left right : Expr} {v w : Value}
    (hleft : Run.evaluate fuel room left m = .ok v m₁)
    (hright : Run.evaluate fuel room right m₁ = .ok w m₂) :
    ∃ p : Situation, p.Reachable ∧ p.machine = m₂ ∧ p.Occurs v ∧ p.Occurs w := by
  obtain ⟨p, hp, rfl⟩ := hm.exists_situation
  obtain ⟨q, hq⟩ := (Situation.realizesWith fuel).evaluate p room left
  obtain ⟨rfl, hv⟩ := hq.of_ok hleft
  obtain ⟨q', hq'⟩ := (Situation.realizesWith fuel).evaluate q room right
  obtain ⟨hmachine, hw⟩ := hq'.of_ok hright
  exact ⟨q', (hp.leads hq.leads).leads hq'.leads, hmachine,
    Or.inl (hq'.hand (hv List.mem_cons_self)), Or.inl (hw List.mem_cons_self)⟩

end Lox
