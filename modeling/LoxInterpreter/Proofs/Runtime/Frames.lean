import LoxInterpreter.Proofs.Runtime.Respected

/-!
The frames of the host that runs need. What is nested in a statement takes frames, and so does what
is nested in the functions that it calls. If a call has too few, it fails with a stack overflow like
any other error of the program. So the host gives up only where the frames do not suffice for the
tree of a statement itself.
-/

namespace Lox

mutual

/-- How many frames of the host an expression takes, besides those of the functions that it
calls. -/
def Expr.frames : Expr → Nat
  | .literal _ | .variable _ => 1
  | .grouping e | .unary _ e | .assign _ e => e.frames + 1
  | .binary l _ r | .logical l _ r => max l.frames r.frames + 1
  | .call callee _ args => max callee.frames (Expr.mostFrames args) + 1

def Expr.mostFrames : List Expr → Nat
  | [] => 0
  | e :: es => max e.frames (Expr.mostFrames es)

end

mutual

def Stmt.frames : Stmt → Nat
  | .var _ none | .result _ none | .function _ _ _ => 1
  | .expression e | .print e | .var _ (some e) | .result _ (some e) => e.frames + 1
  | .block body => Stmt.mostFrames body + 2
  | .conditional c t none => max c.frames t.frames + 1
  | .conditional c t (some e) => max c.frames (max t.frames e.frames) + 1
  | .loop c body => max c.frames body.frames + 1

def Stmt.mostFrames : List Stmt → Nat
  | [] => 0
  | s :: ss => max s.frames (Stmt.mostFrames ss)

end

theorem Expr.frames_pos (e : Expr) : 0 < e.frames := by
  cases e <;> simp [frames]

theorem Stmt.frames_pos (s : Stmt) : 0 < s.frames := by
  unfold frames
  split <;> omega

namespace Run

section

variable {fuel : Nat} {room : Room}

theorem evaluate_of_no_frames (hframes : room.frames = 0) (e : Expr) (m : Machine) :
    evaluate (fuel + 1) room e m = .error .recursion m := by
  rw [evaluate, inFrames_of_lt (hframes ▸ Nat.one_pos)]
  rfl

theorem evaluate_literal (hframes : 0 < room.frames) (l : Literal) (m : Machine) :
    evaluate (fuel + 1) room (.literal l) m = .ok (.ofLiteral l) m := by
  rw [evaluate, inFrames_of_le hframes]
  rfl

/-- The operator `==` compares the values of its operands. -/
theorem evaluate_equal {op : Token} (hop : op.kind = .equalEqual) {left right : Expr}
    {v w : Value} {m m₁ m₂ : Machine} (hframes : 0 < room.frames)
    (hleft : evaluate fuel ⟨room.depth, room.frames - 1⟩ left m = .ok v m₁)
    (hright : evaluate fuel ⟨room.depth, room.frames - 1⟩ right m₁ = .ok w m₂) :
    evaluate (fuel + 1) room (.binary left op right) m = .ok (.bool (v.same w)) m₂ := by
  rw [evaluate, inFrames_of_le hframes]
  dsimp only
  rw [Step.bind_of_ok hleft, Step.bind_of_ok hright, hop]
  rfl

theorem evaluate_binary_of_error {op : Token} {left right : Expr} {m m' : Machine} {halt : Halt}
    (hframes : 0 < room.frames)
    (hleft : evaluate fuel ⟨room.depth, room.frames - 1⟩ left m = .error halt m') :
    evaluate (fuel + 1) room (.binary left op right) m = .error halt m' := by
  rw [evaluate, inFrames_of_le hframes]
  exact Step.bind_of_error hleft _

end

variable {α β : Type}

def Fits (r : Run α) : Prop := ∀ m m', r m ≠ .error .recursion m'

namespace Fits

variable {r r' : Run α}

theorem pure (a : α) : Fits (Pure.pure a : Run α) := fun _ _ => by rintro ⟨⟩

theorem throw {halt : Halt} (h : halt ≠ .recursion) : Fits (MonadExcept.throw halt : Run α) := by
  rintro m m' ⟨⟩
  exact h rfl

theorem fail (token : Token) (cause : RuntimeCause) : Fits (Run.fail token cause : Run α) :=
  throw (by simp)

theorem bind {f : α → Run β} (hr : Fits r) (hf : ∀ a, Fits (f a)) : Fits (r >>= f) := by
  intro m m' h
  rw [Step.bind_apply] at h
  cases hrun : r m with
  | ok a m₁ =>
    rw [hrun] at h
    exact hf a m₁ m' h
  | error halt m₁ =>
    rw [hrun] at h
    cases h
    exact hr m m' hrun

theorem ite (c : Prop) [Decidable c] (hr : Fits r) (hr' : Fits r') :
    Fits (if c then r else r') := by
  split
  · exact hr
  · exact hr'

theorem get (name : Token) : Fits (Run.get name) := by
  intro m m' h
  unfold Run.get at h
  split at h <;> cases h

theorem assign (name : Token) (v : Value) : Fits (Run.assign name v) := by
  intro m m' h
  unfold Run.assign at h
  split at h <;> cases h

theorem ofOperator (op : Token) (result : Except OperatorFault Value) :
    Fits (Run.ofOperator op result) := by
  match result with
  | .ok v => exact pure v
  | .error (.unfit cause) => exact fail op cause
  | .error .unsupported => exact throw (by simp)

theorem inScope (bindings : List (String × Value)) (enclosing : ScopeId) (h : Fits r) :
    Fits (Run.inScope bindings enclosing r) := by
  intro m m' hrun
  unfold Run.inScope at hrun
  dsimp only at hrun
  split at hrun
  next => cases hrun
  next halt m₁ hbody =>
    cases hrun
    exact h _ m₁ hbody

theorem inBlock (h : Fits r) : Fits (Run.inBlock r) := fun m => inScope [] m.current h m

theorem inFrames {room : Room} {count : Nat} {body : Room → Run α} (hcount : count ≤ room.frames)
    (h : Fits (body ⟨room.depth, room.frames - count⟩)) : Fits (Run.inFrames room count body) := by
  rw [Run.inFrames_of_le hcount]
  exact h

/-- Where the host gives up in a call, the call fails instead. -/
theorem overflowing (paren : Token) (r : Run α) : Fits (Run.overflowing paren r) := by
  intro m m' h
  unfold Run.overflowing at h
  rcases hrun : r m with ⟨a, m₁⟩ | ⟨halt, m₁⟩
  · rw [hrun] at h
    cases h
  · rw [hrun] at h
    cases halt <;> cases h

end Fits

structure FitsWith (fuel : Nat) : Prop where
  evaluate {room : Room} {e : Expr} : e.frames ≤ room.frames → Fits (Run.evaluate fuel room e)
  evaluateAll {room : Room} {es : List Expr} : Expr.mostFrames es ≤ room.frames →
    Fits (Run.evaluateAll fuel room es)
  call {room : Room} (f : Value) (paren : Token) (args : List Value) : 0 < room.frames →
    Fits (Run.call fuel room f paren args)
  execute {room : Room} {s : Stmt} : s.frames ≤ room.frames → Fits (Run.execute fuel room s)
  executeAll {room : Room} {ss : List Stmt} : Stmt.mostFrames ss ≤ room.frames →
    Fits (Run.executeAll fuel room ss)
  repeatWhile {room : Room} {condition : Expr} {body : Stmt} : condition.frames ≤ room.frames →
    body.frames ≤ room.frames → Fits (Run.repeatWhile fuel room condition body)

namespace FitsWith

variable {fuel : Nat} {room : Room}

theorem step_evaluate (ih : FitsWith fuel) {e : Expr} (h : e.frames ≤ room.frames) :
    Fits (Run.evaluate (fuel + 1) room e) := by
  refine .inFrames (Nat.le_trans e.frames_pos h) ?_
  cases e with
  | literal v => exact .pure _
  | grouping inner => exact ih.evaluate (Nat.le_sub_of_add_le h)
  | unary op right =>
    exact .bind (ih.evaluate (Nat.le_sub_of_add_le h)) fun v => .ofOperator op _
  | binary left op right =>
    obtain ⟨hleft, hright⟩ := Nat.max_le.1 (Nat.le_sub_of_add_le h)
    exact .bind (ih.evaluate hleft) fun v => .bind (ih.evaluate hright) fun w => .ofOperator op _
  | logical left op right =>
    obtain ⟨hleft, hright⟩ := Nat.max_le.1 (Nat.le_sub_of_add_le h)
    exact .bind (ih.evaluate hleft) fun v => .ite _ (.pure v) (ih.evaluate hright)
  | «variable» name => exact .get name
  | assign name value =>
    exact .bind (ih.evaluate (Nat.le_sub_of_add_le h)) fun v =>
      .bind (.assign name v) fun _ => .pure v
  | call callee paren arguments =>
    obtain ⟨hcallee, harguments⟩ := Nat.max_le.1 (Nat.le_sub_of_add_le h)
    exact .bind (ih.evaluate hcallee) fun f => .bind (ih.evaluateAll harguments) fun args =>
      ih.call f paren args (Nat.lt_of_lt_of_le callee.frames_pos hcallee)

theorem step_evaluateAll (ih : FitsWith fuel) {es : List Expr}
    (h : Expr.mostFrames es ≤ room.frames) : Fits (Run.evaluateAll (fuel + 1) room es) := by
  cases es with
  | nil => exact .pure []
  | cons e es =>
    obtain ⟨he, hes⟩ := Nat.max_le.1 h
    exact .bind (ih.evaluate he) fun v => .bind (ih.evaluateAll hes) fun vs => .pure (v :: vs)

/-- A call takes one frame before it comes to the function, whose frames do not count. -/
theorem step_call (f : Value) (paren : Token) (args : List Value) (h : 0 < room.frames) :
    Fits (Run.call (fuel + 1) room f paren args) := by
  refine .inFrames h ?_
  split
  · exact .fail paren .notCallable
  · refine .ite _ (.fail paren _) ?_
    split
    · split
      · exact .fail paren .stackOverflow
      · exact .overflowing paren _
    · exact .overflowing paren _

theorem step_execute (ih : FitsWith fuel) {s : Stmt} (h : s.frames ≤ room.frames) :
    Fits (Run.execute (fuel + 1) room s) := by
  refine .inFrames (Nat.le_trans s.frames_pos h) ?_
  match s with
  | .expression e =>
    exact .bind (ih.evaluate (Nat.le_sub_of_add_le h)) fun _ => .pure Completion.normal
  | .print e =>
    refine .bind (ih.evaluate (Nat.le_sub_of_add_le h)) fun v => .bind ?_ fun _ => .pure _
    exact fun m m' => by rintro ⟨⟩
  | .var name none => exact fun m m' => by rintro ⟨⟩
  | .var name (some e) =>
    refine .bind (ih.evaluate (Nat.le_sub_of_add_le h)) fun v => ?_
    exact fun m m' => by rintro ⟨⟩
  | .block body =>
    have hbody : Stmt.mostFrames body + 1 ≤ room.frames - 1 := Nat.le_sub_of_add_le h
    refine .inFrames (Nat.le_trans (Nat.le_add_left 1 _) hbody) ?_
    exact .inBlock (ih.executeAll (Nat.le_sub_of_add_le hbody))
  | .conditional condition thenBranch none =>
    obtain ⟨hcondition, hthen⟩ := Nat.max_le.1 (Nat.le_sub_of_add_le h)
    exact .bind (ih.evaluate hcondition) fun v => .ite _ (ih.execute hthen) (.pure _)
  | .conditional condition thenBranch (some elseBranch) =>
    obtain ⟨hcondition, hbranches⟩ := Nat.max_le.1 (Nat.le_sub_of_add_le h)
    obtain ⟨hthen, helse⟩ := Nat.max_le.1 hbranches
    exact .bind (ih.evaluate hcondition) fun v => .ite _ (ih.execute hthen) (ih.execute helse)
  | .loop condition body =>
    obtain ⟨hcondition, hbody⟩ := Nat.max_le.1 (Nat.le_sub_of_add_le h)
    exact ih.repeatWhile hcondition hbody
  | .function name params body => exact fun m m' => by rintro ⟨⟩
  | .result _ none => exact .pure (Completion.returned .nil)
  | .result _ (some e) =>
    exact .bind (ih.evaluate (Nat.le_sub_of_add_le h)) fun v => .pure (Completion.returned v)

theorem step_executeAll (ih : FitsWith fuel) {ss : List Stmt}
    (h : Stmt.mostFrames ss ≤ room.frames) : Fits (Run.executeAll (fuel + 1) room ss) := by
  cases ss with
  | nil => exact .pure Completion.normal
  | cons s ss =>
    obtain ⟨hs, hss⟩ := Nat.max_le.1 h
    refine .bind (ih.execute hs) fun completion => ?_
    cases completion with
    | normal => exact ih.executeAll hss
    | returned v => exact .pure (Completion.returned v)

theorem step_repeatWhile (ih : FitsWith fuel) {condition : Expr} {body : Stmt}
    (hcondition : condition.frames ≤ room.frames) (hbody : body.frames ≤ room.frames) :
    Fits (Run.repeatWhile (fuel + 1) room condition body) := by
  refine .bind (ih.evaluate hcondition) fun v => .ite _ (.bind (ih.execute hbody) ?_) (.pure _)
  intro completion
  cases completion with
  | normal => exact ih.repeatWhile hcondition hbody
  | returned v => exact .pure (Completion.returned v)

end FitsWith

/-- The induction is on the fuel, which every recursion uses up. -/
theorem fitsWith (fuel : Nat) : FitsWith fuel := by
  induction fuel with
  | zero =>
    exact {
      evaluate := fun _ => .throw (by simp)
      evaluateAll := fun _ => .throw (by simp)
      call := fun _ _ _ _ => .throw (by simp)
      execute := fun _ => .throw (by simp)
      executeAll := fun _ => .throw (by simp)
      repeatWhile := fun _ _ => .throw (by simp) }
  | succ fuel ih =>
    exact {
      evaluate := ih.step_evaluate
      evaluateAll := ih.step_evaluateAll
      call := fun f paren args h => FitsWith.step_call f paren args h
      execute := ih.step_execute
      executeAll := ih.step_executeAll
      repeatWhile := ih.step_repeatWhile }

theorem fits_executeProgram (fuel : Nat) {room : Room} {program : List Stmt}
    (h : ∀ s ∈ program, s.frames ≤ room.frames) : Fits (executeProgram fuel room program) := by
  induction program with
  | nil => exact .pure ()
  | cons s ss ih =>
    obtain ⟨hs, hss⟩ := List.forall_mem_cons.1 h
    exact .bind ((fitsWith fuel).execute hs) fun _ => ih hss

end Run

/-- Where the host gives up, it has too few frames for a statement of the program itself. -/
theorem Machine.exists_of_run_recursion {limits : Limits} {program : List Stmt} {m : Machine}
    (h : (m.run limits program).1 = some .recursion) :
    ∃ s ∈ program, limits.calls.frames < s.frames := by
  refine Classical.byContradiction fun hnone => ?_
  simp only [not_exists, not_and, Nat.not_lt] at hnone
  obtain ⟨m', hrun⟩ := fst_run_eq_some_iff.1 h
  exact Run.fits_executeProgram limits.fuel hnone m m' hrun

end Lox
