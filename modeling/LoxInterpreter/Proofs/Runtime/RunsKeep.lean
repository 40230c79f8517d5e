import LoxInterpreter.Proofs.Runtime.Invariant

/-!
Runs keep the invariants that the actions of the machine keep. A call needs nothing of the scope
that it is made in, and only what can bind a name in the current scope needs that scope to be
owned.
-/

namespace Lox

theorem Value.ne_function_of_unary {k : Kind} {v u : Value} (h : v.unary k = .ok u) :
    ∀ f, u ≠ .function f := by
  unfold Value.unary at h
  split at h
  · cases h
    simp
  · split at h <;> cases h
    simp

theorem ne_function_of_arithmetic {k : Kind} {x y : Float} {u : Value}
    (h : arithmetic k x y = .ok u) : ∀ f, u ≠ .function f := by
  unfold arithmetic at h
  split at h <;> cases h <;> simp

theorem Value.ne_function_of_binary {k : Kind} {v v' u : Value} (h : v.binary k v' = .ok u) :
    ∀ f, u ≠ .function f := by
  unfold Value.binary at h
  split at h
  · cases h
    simp
  · cases h
    simp
  · unfold Value.add at h
    split at h <;> cases h <;> simp
  · split at h
    · exact ne_function_of_arithmetic h
    · cases h

theorem Value.ne_function_ofLiteral (l : Literal) (f : Closure) : ofLiteral l ≠ .function f := by
  cases l <;> simp [ofLiteral]

/-- The bindings of a call hold the arguments. -/
theorem mem_args_of_mem_parameterBindings {params : List Token} {args : List Value}
    {b : String × Value} (h : b ∈ parameterBindings params args) : b.2 ∈ args := by
  unfold parameterBindings at h
  refine List.foldlRecOn (motive := fun bindings => ∀ b ∈ bindings, b.2 ∈ args) _ _ ?_ ?_ b h
  · exact fun _ hb => absurd hb List.not_mem_nil
  · rintro bindings hbindings ⟨p, v⟩ hpair b hb
    rcases mem_of_mem_bind hb with rfl | hb
    · exact (List.of_mem_zip hpair).2
    · exact hbindings b hb

namespace Invariant

variable {W : Type}

structure KeptWith (I : Invariant W) (fuel : Nat) : Prop where
  evaluate {w : W} {c : ScopeId} (room : Room) {e : Expr} : I.seen w c → e.Every I.node →
    I.Keeps w c (Run.evaluate fuel room e) I.value
  evaluateAll {w : W} {c : ScopeId} (room : Room) {es : List Expr} : I.seen w c →
    (∀ e ∈ es, e.Every I.node) →
    I.Keeps w c (Run.evaluateAll fuel room es) fun w vs => ∀ v ∈ vs, I.value w v
  call {w : W} {c : ScopeId} (room : Room) {f : Value} {paren : Token} {args : List Value} :
    I.value w f → (∀ v ∈ args, I.value w v) →
    (∀ cause : RuntimeCause, cause.OfCall → I.halt (.failed ⟨paren, cause⟩)) →
    I.Keeps w c (Run.call fuel room f paren args) I.value
  execute {w : W} {c : ScopeId} (room : Room) {s : Stmt} : I.seen w c →
    (s.declares = true → I.owned w c) → I.statement s →
    I.Keeps w c (Run.execute fuel room s) I.completion
  executeAll {w : W} {c : ScopeId} (room : Room) {ss : List Stmt} : I.owned w c →
    (∀ s ∈ ss, I.statement s) → I.Keeps w c (Run.executeAll fuel room ss) I.completion
  repeatWhile {w : W} {c : ScopeId} (room : Room) {condition : Expr} {body : Stmt} :
    I.seen w c → (body.declares = true → I.owned w c) → condition.Every I.node →
    I.statement body → I.Keeps w c (Run.repeatWhile fuel room condition body) I.completion

namespace KeptWith

variable {I : Invariant W} {fuel : Nat} {w : W} {c : ScopeId}

theorem keeps_ofOperator (hI : I.Kept) {op : Token} {result : Except OperatorFault Value}
    (hok : ∀ u, result = .ok u → ∀ f, u ≠ .function f)
    (hfault : ∀ fault, result = .error fault → I.halt (fault.halt op)) :
    I.Keeps w c (Run.ofOperator op result) I.value := by
  cases result with
  | ok u => exact hI.keeps_pure (value_of_ne (hok u rfl))
  | error fault =>
    have hhalt := hfault fault rfl
    cases fault with
    | unfit cause => exact hI.keeps_fail hhalt
    | unsupported => exact hI.keeps_throw hhalt

theorem step_evaluate (hI : I.Kept) (ih : I.KeptWith fuel) (room : Room) {e : Expr}
    (hc : I.seen w c) (he : e.Every I.node) :
    I.Keeps w c (Run.evaluate (fuel + 1) room e) I.value := by
  obtain ⟨hnode, hparts⟩ := Expr.every_iff.1 he
  refine hI.keeps_inFrames fun room => ?_
  cases e with
  | literal l => exact hI.keeps_pure (value_of_ne (Value.ne_function_ofLiteral l))
  | grouping inner => exact ih.evaluate room hc (hparts _ (by simp [Expr.parts]))
  | unary op right =>
    refine hI.keeps_bind (ih.evaluate room hc (hparts _ (by simp [Expr.parts]))) ?_
    intro v w' hw hv
    exact keeps_ofOperator hI (fun u => Value.ne_function_of_unary)
      fun fault => hI.unaryFault hnode
  | binary left op right =>
    refine hI.keeps_bind (ih.evaluate room hc (hparts _ (by simp [Expr.parts]))) ?_
    intro v w' hw hv
    have hc' := hI.seen_mono hw hc
    refine hI.keeps_bind (ih.evaluate room hc' (hparts _ (by simp [Expr.parts]))) ?_
    intro v' w'' hw' hv'
    exact keeps_ofOperator hI (fun u => Value.ne_function_of_binary)
      fun fault => hI.binaryFault hnode
  | logical left op right =>
    refine hI.keeps_bind (ih.evaluate room hc (hparts _ (by simp [Expr.parts]))) ?_
    intro v w' hw hv
    split
    · exact hI.keeps_pure hv
    · exact ih.evaluate room (hI.seen_mono hw hc) (hparts _ (by simp [Expr.parts]))
  | «variable» name => exact hI.keeps_get hc hnode
  | assign name value =>
    refine hI.keeps_bind (ih.evaluate room hc (hparts _ (by simp [Expr.parts]))) ?_
    intro v w' hw hv
    refine hI.keeps_bind (hI.keeps_assign (hI.seen_mono hw hc) hnode hv) ?_
    intro _ w'' hw' _
    exact hI.keeps_pure (hI.value_mono hw' hv)
  | call callee paren arguments =>
    refine hI.keeps_bind (ih.evaluate room hc (hparts _ (by simp [Expr.parts]))) ?_
    intro f w' hw hf
    have hc' := hI.seen_mono hw hc
    refine hI.keeps_bind
      (ih.evaluateAll room hc' fun e he => hparts e (by simp [Expr.parts, he])) ?_
    intro args w'' hw' hargs
    exact ih.call room (hI.value_mono hw' hf) hargs fun cause => hI.callFault hnode

theorem step_evaluateAll (hI : I.Kept) (ih : I.KeptWith fuel) (room : Room) {es : List Expr}
    (hc : I.seen w c) (hes : ∀ e ∈ es, e.Every I.node) :
    I.Keeps w c (Run.evaluateAll (fuel + 1) room es) fun w vs => ∀ v ∈ vs, I.value w v := by
  cases es with
  | nil => exact hI.keeps_pure (by simp)
  | cons e es =>
    refine hI.keeps_bind (ih.evaluate room hc (hes e List.mem_cons_self)) ?_
    intro v w' hw hv
    have hes' : ∀ e ∈ es, e.Every I.node := fun e he => hes e (List.mem_cons_of_mem _ he)
    refine hI.keeps_bind (ih.evaluateAll room (hI.seen_mono hw hc) hes') ?_
    intro vs w'' hw' hvs
    exact hI.keeps_pure (List.forall_mem_cons.2 ⟨hI.value_mono hw' hv, hvs⟩)

theorem step_call (hI : I.Kept) (ih : I.KeptWith fuel) (room : Room) {f : Value} {paren : Token}
    {args : List Value} (hf : I.value w f) (hargs : ∀ v ∈ args, I.value w v)
    (hparen : ∀ cause : RuntimeCause, cause.OfCall → I.halt (.failed ⟨paren, cause⟩)) :
    I.Keeps w c (Run.call (fuel + 1) room f paren args) I.value := by
  have hoverflow : I.halt (.failed ⟨paren, .stackOverflow⟩) := hparen _ .stackOverflow
  refine hI.keeps_inFrames fun room => ?_
  split
  · exact hI.keeps_fail (hparen _ .notCallable)
  · split
    · exact hI.keeps_fail (hparen _ (.wrongArity _ _))
    · split
      next f _ =>
        have hclosure : I.closure w f := hf f rfl
        split
        · exact hI.keeps_fail hoverflow
        · refine Kept.keeps_overflowing (hI.keeps_inFrames fun room => ?_) hoverflow
          -- The body runs in a scope of its own, whatever scope the call is made in.
          have hbindings : ∀ b ∈ parameterBindings f.params args, I.value w b.2 :=
            fun b hb => hargs _ (mem_args_of_mem_parameterBindings hb)
          refine hI.keeps_bind (hI.keeps_inScope (hI.seen_scope hclosure) hbindings
            fun w' id hw hid => ih.executeAll room hid (hI.body hclosure)) ?_
          intro completion w' _ hcompletion
          exact hI.keeps_pure (value_result hcompletion)
      · exact Kept.keeps_overflowing (hI.keeps_inFrames fun _ => hI.keeps_readClock) hoverflow

theorem step_execute (hI : I.Kept) (ih : I.KeptWith fuel) (room : Room) {s : Stmt}
    (hc : I.seen w c) (howned : s.declares = true → I.owned w c) (hs : I.statement s) :
    I.Keeps w c (Run.execute (fuel + 1) room s) I.completion := by
  obtain ⟨-, hexpressions, hparts⟩ := Stmt.every_iff.1 hs
  refine hI.keeps_inFrames fun room => ?_
  match s with
  | .expression e =>
    exact hI.keeps_bind (ih.evaluate room hc (hexpressions e (by simp [Stmt.expressions])))
      fun _ _ _ _ => hI.keeps_pure completion_normal
  | .print e =>
    refine hI.keeps_bind (ih.evaluate room hc (hexpressions e (by simp [Stmt.expressions]))) ?_
    exact fun _ _ _ _ => hI.keeps_bind hI.keeps_print fun _ _ _ _ =>
      hI.keeps_pure completion_normal
  | .var name none =>
    exact hI.keeps_bind (hI.keeps_define (howned rfl) (value_of_ne (by simp)))
      fun _ _ _ _ => hI.keeps_pure completion_normal
  | .var name (some e) =>
    refine hI.keeps_bind (ih.evaluate room hc (hexpressions e (by simp [Stmt.expressions]))) ?_
    intro v w' hw hv
    exact hI.keeps_bind (hI.keeps_define (hI.owned_mono hw (howned rfl)) hv)
      fun _ _ _ _ => hI.keeps_pure completion_normal
  | .block body =>
    exact hI.keeps_inFrames fun room =>
      hI.keeps_inBlock hc fun w' id _ hid => ih.executeAll room hid hparts
  | .conditional condition thenBranch elseBranch =>
    refine hI.keeps_bind
      (ih.evaluate room hc (hexpressions condition (by simp [Stmt.expressions]))) ?_
    intro v w' hw _
    have hc' := hI.seen_mono hw hc
    -- A branch that can bind a name makes the whole statement one that can.
    split
    · refine ih.execute room hc' (fun h => hI.owned_mono hw (howned ?_))
        (hparts _ (by simp [Stmt.parts]))
      cases elseBranch <;> simp [Stmt.declares, h]
    · cases elseBranch with
      | some s =>
        exact ih.execute room hc' (fun h => hI.owned_mono hw (howned (by simp [Stmt.declares, h])))
          (hparts s (by simp [Stmt.parts]))
      | none => exact hI.keeps_pure completion_normal
  | .loop condition body =>
    exact ih.repeatWhile room hc howned (hexpressions condition (by simp [Stmt.expressions]))
      (hparts body (by simp [Stmt.parts]))
  | .function name params body =>
    refine hI.keeps_bind (hI.keeps_makeFunction (howned rfl) hparts) ?_
    intro f w' hw hf
    exact hI.keeps_bind (hI.keeps_define (hI.owned_mono hw (howned rfl)) hf)
      fun _ _ _ _ => hI.keeps_pure completion_normal
  | .result _ none => exact hI.keeps_pure (completion_returned.2 (value_of_ne (by simp)))
  | .result _ (some e) =>
    refine hI.keeps_bind (ih.evaluate room hc (hexpressions e (by simp [Stmt.expressions]))) ?_
    exact fun v w' _ hv => hI.keeps_pure (completion_returned.2 hv)

theorem step_executeAll (hI : I.Kept) (ih : I.KeptWith fuel) (room : Room) {ss : List Stmt}
    (hc : I.owned w c) (hss : ∀ s ∈ ss, I.statement s) :
    I.Keeps w c (Run.executeAll (fuel + 1) room ss) I.completion := by
  cases ss with
  | nil => exact hI.keeps_pure completion_normal
  | cons s ss =>
    refine hI.keeps_bind
      (ih.execute room (hI.seen_of_owned hc) (fun _ => hc) (hss s List.mem_cons_self)) ?_
    intro completion w' hw hcompletion
    cases completion with
    | normal =>
      exact ih.executeAll room (hI.owned_mono hw hc) fun s hs => hss s (List.mem_cons_of_mem _ hs)
    | returned v => exact hI.keeps_pure hcompletion

theorem step_repeatWhile (hI : I.Kept) (ih : I.KeptWith fuel) (room : Room) {condition : Expr}
    {body : Stmt} (hc : I.seen w c) (howned : body.declares = true → I.owned w c)
    (hcondition : condition.Every I.node) (hbody : I.statement body) :
    I.Keeps w c (Run.repeatWhile (fuel + 1) room condition body) I.completion := by
  refine hI.keeps_bind (ih.evaluate room hc hcondition) ?_
  intro v w' hw _
  have hc' := hI.seen_mono hw hc
  have howned' : body.declares = true → I.owned w' c := fun h => hI.owned_mono hw (howned h)
  split
  · refine hI.keeps_bind (ih.execute room hc' howned' hbody) ?_
    intro completion w'' hw' hcompletion
    cases completion with
    | normal =>
      exact ih.repeatWhile room (hI.seen_mono hw' hc') (fun h => hI.owned_mono hw' (howned' h))
        hcondition hbody
    | returned v => exact hI.keeps_pure hcompletion
  · exact hI.keeps_pure completion_normal

end KeptWith

/-- All parts of runs keep an invariant that the actions of the machine keep. The induction is on
the fuel, which every recursion uses up. -/
theorem Kept.keptWith {I : Invariant W} (hI : I.Kept) (fuel : Nat) : I.KeptWith fuel := by
  induction fuel with
  | zero =>
    exact {
      evaluate := fun _ _ _ _ => hI.keeps_throw hI.exhausted
      evaluateAll := fun _ _ _ _ => hI.keeps_throw hI.exhausted
      call := fun _ _ _ _ _ _ _ => hI.keeps_throw hI.exhausted
      execute := fun _ _ _ _ _ => hI.keeps_throw hI.exhausted
      executeAll := fun _ _ _ _ => hI.keeps_throw hI.exhausted
      repeatWhile := fun _ _ _ _ _ _ _ => hI.keeps_throw hI.exhausted }
  | succ fuel ih =>
    exact {
      evaluate := ih.step_evaluate hI
      evaluateAll := ih.step_evaluateAll hI
      call := ih.step_call hI
      execute := ih.step_execute hI
      executeAll := ih.step_executeAll hI
      repeatWhile := ih.step_repeatWhile hI }

theorem Kept.keeps_executeProgram {I : Invariant W} (hI : I.Kept) (fuel : Nat) (room : Room)
    {w : W} {c : ScopeId} {program : List Stmt} (hc : I.owned w c)
    (hprogram : ∀ s ∈ program, I.statement s) :
    I.Keeps w c (Run.executeProgram fuel room program) fun _ _ => True := by
  induction program generalizing w with
  | nil => exact hI.keeps_pure trivial
  | cons s ss ih =>
    refine hI.keeps_bind ((hI.keptWith fuel).execute room (hI.seen_of_owned hc) (fun _ => hc)
      (hprogram s List.mem_cons_self)) ?_
    exact fun _ w' hw _ =>
      ih (hI.owned_mono hw hc) fun s hs => hprogram s (List.mem_cons_of_mem _ hs)

/-- A run of a program keeps the invariant, and halts in a known way if it halts. -/
theorem Kept.run {I : Invariant W} (hI : I.Kept) (limits : Limits) {w : W} {program : List Stmt}
    {m : Machine} (hm : I.machine w m) (hc : I.owned w m.current)
    (hprogram : ∀ s ∈ program, I.statement s) :
    (∃ w', I.grows w w' ∧ I.machine w' (m.run limits program).2) ∧
      ∀ halt, (m.run limits program).1 = some halt → I.halt halt := by
  have hkeeps := hI.keeps_executeProgram limits.fuel limits.calls hc hprogram
  refine ⟨m.snd_run limits program ▸ hkeeps.after hm rfl, fun halt hhalt => ?_⟩
  obtain ⟨m', hrun⟩ := Machine.fst_run_eq_some_iff.1 hhalt
  exact hkeeps.error hm rfl hrun

end Invariant

end Lox
