import LoxInterpreter.Proofs.Places.Bare
import LoxInterpreter.Proofs.Places.Mirrors
import LoxInterpreter.Proofs.Runtime.FunctionMaps
import LoxInterpreter.Proofs.Runtime.Scopes

/-!
Running bare programs. A machine decides by the kinds and the lexemes of tokens only, so a bare
program does with the bare machine what the program does with the machine itself: the values, the
scopes and the errors are the bare ones, and the printed texts are the same.
-/

namespace Lox

/-- The bare form of a function has the same identity, and tokens with the same lexemes. -/
theorem Closure.faithful_bare : Faithful bare :=
  ⟨fun _ => rfl, fun _ => rfl, fun _ => List.length_map _⟩

namespace Value

theorem bare_eq : bare = mapFunction Closure.bare := by
  funext v
  cases v <;> rfl

@[simp] theorem isTruthy_bare (v : Value) : v.bare.isTruthy = v.isTruthy := by
  rw [bare_eq, isTruthy_mapFunction]

@[simp] theorem text_bare (v : Value) : v.bare.text = v.text := by
  rw [bare_eq, text_mapFunction Closure.faithful_bare]

theorem ofLiteral_bare (l : Literal) : (ofLiteral l).bare = ofLiteral l := by
  rw [bare_eq, mapFunction_ofLiteral]

theorem decides_bare (k : Kind) (v : Value) : v.bare.decides k = v.decides k := by
  rw [bare_eq, decides_mapFunction]

theorem unary_bare (k : Kind) (v : Value) : v.bare.unary k = (v.unary k).map bare := by
  rw [bare_eq, unary_mapFunction]

theorem binary_bare (k : Kind) (v w : Value) :
    v.bare.binary k w.bare = (v.binary k w).map bare := by
  rw [bare_eq, binary_mapFunction Closure.faithful_bare]

end Value

theorem bareBindings_eq : bareBindings = mapBindings Closure.bare := by
  funext bindings
  rw [bareBindings, Value.bare_eq, mapBindings]

theorem bind_bare (name : String) (v : Value) (bindings : List (String × Value)) :
    bind name v.bare (bareBindings bindings) = bareBindings (bind name v bindings) := by
  rw [Value.bare_eq, bareBindings_eq, bind_mapBindings]

theorem lookup_bare (name : String) (bindings : List (String × Value)) :
    (bareBindings bindings).lookup name = (bindings.lookup name).map Value.bare := by
  rw [Value.bare_eq, bareBindings_eq, lookup_mapBindings]

/-- The scope of a call begins with the bare arguments. -/
theorem parameterBindings_bare (params : List Token) (args : List Value) :
    parameterBindings (params.map Token.bare) (args.map Value.bare) =
      bareBindings (parameterBindings params args) := by
  rw [Value.bare_eq, bareBindings_eq, ← parameterBindings_map]
  unfold parameterBindings
  rw [List.zip_map_left, List.foldl_map]
  rfl

theorem Scope.find?_bare (s : Scope) (name : String) :
    s.bare.find? name = (s.find? name).map Value.bare :=
  lookup_bare name s.bindings

namespace Store

variable (s : Store) (id : ScopeId) (name : String)

theorem getElem?_bare : s.bare.scopes[id]? = s.scopes[id]?.map Scope.bare :=
  Array.getElem?_map

theorem nearest_bare (steps : Nat) : s.bare.nearest name steps id = s.nearest name steps id := by
  induction steps generalizing id with
  | zero => rfl
  | succ steps ih =>
    rw [nearest, nearest, getElem?_bare]
    cases s.scopes[id]? with
    | none => rfl
    | some scope =>
      simp only [Option.map_some, Scope.find?_bare, Option.isSome_map]
      split
      · rfl
      · simp only [Scope.bare]
        cases scope.enclosing with
        | none => rfl
        | some outer => exact ih outer

theorem resolve_bare : s.bare.resolve name id = s.resolve name id :=
  s.nearest_bare id name (id + 1)

theorem get?_bare : s.bare.get? id name = (s.get? id name).map Value.bare := by
  unfold get?
  rw [resolve_bare]
  cases s.resolve name id with
  | none => rfl
  | some owner =>
    simp only [Option.bind_eq_bind, Option.bind_some, getElem?_bare]
    cases s.scopes[owner]? with
    | none => rfl
    | some scope => exact scope.find?_bare name

theorem define_bare (v : Value) : s.bare.define id name v.bare = (s.define id name v).bare := by
  refine congrArg Store.mk (Array.ext_getElem? fun other => ?_)
  change (s.bare.define id name v.bare).scopes[other]? = (s.define id name v).bare.scopes[other]?
  rw [getElem?_define, getElem?_bare, getElem?_bare, getElem?_define]
  split
  · cases s.scopes[other]? with
    | none => rfl
    | some scope => simp only [Option.map_some, Scope.bare, Scope.define, bind_bare]
  · rfl

theorem openScope_bare (bindings : List (String × Value)) (enclosing : Option ScopeId) :
    s.bare.openScope (bareBindings bindings) enclosing =
      ((s.openScope bindings enclosing).1, (s.openScope bindings enclosing).2.bare) := by
  simp [openScope, bare, Scope.bare]

end Store

namespace Run

variable {α β : Type}

abbrev Mirrors (f : α → β) (r : Run α) (r' : Run β) : Prop :=
  Step.Mirrors Machine.bare Halt.bare f r r'

theorem mirrors_fail {f : α → β} (token : Token) (cause : RuntimeCause) :
    Mirrors f (fail token cause) (fail token.bare cause) := .throw _

theorem mirrors_get (name : Token) : Mirrors Value.bare (get name) (get name.bare) := by
  intro m
  unfold get
  have hget := m.store.get?_bare m.current name.lexeme
  change m.bare.store.get? m.bare.current name.bare.lexeme = _ at hget
  rw [hget]
  cases m.store.get? m.current name.lexeme <;> rfl

theorem mirrors_assign (name : Token) (v : Value) :
    Mirrors id (assign name v) (assign name.bare v.bare) := by
  intro m
  unfold assign
  have hresolve := m.store.resolve_bare m.current name.lexeme
  change m.bare.store.resolve name.bare.lexeme m.bare.current = _ at hresolve
  rw [hresolve]
  cases m.store.resolve name.lexeme m.current with
  | none => rfl
  | some owner =>
    simp only [Machine.bare, Token.lexeme_bare, Store.define_bare, Step.image, id]

theorem mirrors_define (name : Token) (v : Value) :
    Mirrors id (define name v) (define name.bare v.bare) := by
  intro m
  simp only [define, Machine.bare, Token.lexeme_bare, Store.define_bare, Step.image, id]

theorem mirrors_makeFunction (name : Token) (params : List Token) (body : List Stmt) :
    Mirrors Value.bare (makeFunction name params body)
      (makeFunction name.bare (params.map Token.bare) (body.map Stmt.bare)) := fun _ => rfl

theorem mirrors_print (text : String) : Mirrors id (print text) (print text) := fun _ => rfl

theorem mirrors_readClock : Mirrors Value.bare readClock readClock := fun _ => rfl

theorem mirrors_ofOperator (op : Token) (result : Except OperatorFault Value) :
    Mirrors Value.bare (ofOperator op result) (ofOperator op.bare (result.map Value.bare)) := by
  match result with
  | .ok v => exact .pure v
  | .error (.unfit cause) => exact mirrors_fail op cause
  | .error .unsupported => exact .throw (Halt.unsupported op)

theorem mirrors_inScope {f : α → β} (bindings : List (String × Value)) (enclosing : ScopeId)
    {body : Run α} {body' : Run β} (h : Mirrors f body body') :
    Mirrors f (inScope bindings enclosing body)
      (inScope (bareBindings bindings) enclosing body') := by
  intro m
  have hbody := h { m with
    store := (m.store.openScope bindings (some enclosing)).2
    current := (m.store.openScope bindings (some enclosing)).1 }
  have hopened := m.store.openScope_bare bindings (some enclosing)
  change m.bare.store.openScope (bareBindings bindings) (some enclosing) = _ at hopened
  -- The new scope has the same number in both stores.
  unfold inScope
  rw [hopened]
  dsimp only
  change body' { m.bare with
    store := (m.store.openScope bindings (some enclosing)).2.bare
    current := (m.store.openScope bindings (some enclosing)).1 } = _ at hbody
  rw [hbody]
  cases body { m with
    store := (m.store.openScope bindings (some enclosing)).2
    current := (m.store.openScope bindings (some enclosing)).1 } <;> rfl

theorem mirrors_inBlock {f : α → β} {body : Run α} {body' : Run β} (h : Mirrors f body body') :
    Mirrors f (inBlock body) (inBlock body') :=
  fun m => mirrors_inScope [] m.current h m

theorem mirrors_inFrames {f : α → β} {room : Room} {count : Nat} {body : Room → Run α}
    {body' : Room → Run β} (h : ∀ room, Mirrors f (body room) (body' room)) :
    Mirrors f (inFrames room count body) (inFrames room count body') :=
  Room.nested_induction₂ (.throw Halt.recursion) h

theorem mirrors_overflowing {f : α → β} (paren : Token) {body : Run α} {body' : Run β}
    (h : Mirrors f body body') :
    Mirrors f (overflowing paren body) (overflowing paren.bare body') := by
  intro m
  unfold overflowing
  rw [h m]
  rcases body m with ⟨a, m'⟩ | ⟨_ | _ | _ | _, m'⟩ <;> rfl

structure MirrorsRuns (fuel : Nat) : Prop where
  evaluate (room : Room) (e : Expr) :
    Mirrors Value.bare (evaluate fuel room e) (evaluate fuel room e.bare)
  evaluateAll (room : Room) (es : List Expr) :
    Mirrors (List.map Value.bare) (evaluateAll fuel room es)
      (evaluateAll fuel room (es.map Expr.bare))
  call (room : Room) (f : Value) (paren : Token) (args : List Value) :
    Mirrors Value.bare (call fuel room f paren args)
      (call fuel room f.bare paren.bare (args.map Value.bare))
  execute (room : Room) (s : Stmt) :
    Mirrors Completion.bare (execute fuel room s) (execute fuel room s.bare)
  executeAll (room : Room) (ss : List Stmt) :
    Mirrors Completion.bare (executeAll fuel room ss) (executeAll fuel room (ss.map Stmt.bare))
  repeatWhile (room : Room) (condition : Expr) (body : Stmt) :
    Mirrors Completion.bare (repeatWhile fuel room condition body)
      (repeatWhile fuel room condition.bare body.bare)

namespace MirrorsRuns

variable {fuel : Nat}

theorem step_evaluate (ih : MirrorsRuns fuel) (room : Room) (e : Expr) :
    Mirrors Value.bare (Run.evaluate (fuel + 1) room e)
      (Run.evaluate (fuel + 1) room e.bare) := by
  refine mirrors_inFrames fun room => ?_
  cases e with
  | literal l =>
    have hvalue : Mirrors Value.bare (pure (Value.ofLiteral l)) (pure (Value.ofLiteral l).bare) :=
      .pure _
    rwa [Value.ofLiteral_bare] at hvalue
  | grouping inner => exact ih.evaluate room inner
  | unary op right =>
    refine .bind (ih.evaluate room right) fun v => ?_
    rw [Token.kind_bare, Value.unary_bare]
    exact mirrors_ofOperator op _
  | binary left op right =>
    refine .bind (ih.evaluate room left) fun v => .bind (ih.evaluate room right) fun w => ?_
    rw [Token.kind_bare, Value.binary_bare]
    exact mirrors_ofOperator op _
  | logical left op right =>
    refine .bind (ih.evaluate room left) fun v => ?_
    rw [Token.kind_bare, Value.decides_bare]
    exact .ite _ (.pure v) (ih.evaluate room right)
  | «variable» name => exact mirrors_get name
  | assign name value =>
    refine .bind (ih.evaluate room value) fun v => ?_
    exact .bind (mirrors_assign name v) fun _ => .pure v
  | call callee paren arguments =>
    rw [Expr.bare_call]
    refine .bind (ih.evaluate room callee) fun f => ?_
    exact .bind (ih.evaluateAll room arguments) fun args => ih.call room f paren args

theorem step_evaluateAll (ih : MirrorsRuns fuel) (room : Room) (es : List Expr) :
    Mirrors (List.map Value.bare) (Run.evaluateAll (fuel + 1) room es)
      (Run.evaluateAll (fuel + 1) room (es.map Expr.bare)) := by
  cases es with
  | nil => exact .pure []
  | cons e es =>
    refine .bind (ih.evaluate room e) fun v => ?_
    exact .bind (ih.evaluateAll room es) fun vs => .pure (v :: vs)

theorem step_call (ih : MirrorsRuns fuel) (room : Room) (f : Value) (paren : Token)
    (args : List Value) :
    Mirrors Value.bare (Run.call (fuel + 1) room f paren args)
      (Run.call (fuel + 1) room f.bare paren.bare (args.map Value.bare)) := by
  have hlength : (args.map Value.bare).length = args.length := List.length_map _
  refine mirrors_inFrames fun room => ?_
  -- Only functions have another bare form, and it wants as many arguments.
  cases f with
  | nil | bool _ | number _ | string _ => exact mirrors_fail paren .notCallable
  | clock =>
    simp only [Value.bare, Value.arity?, hlength]
    refine .ite _ (mirrors_fail paren _) (mirrors_overflowing paren ?_)
    exact mirrors_inFrames fun _ => mirrors_readClock
  | function f =>
    have hparams : (f.params.map Token.bare).length = f.params.length := List.length_map _
    simp only [Value.bare, Value.arity?, Closure.bare, hlength, hparams]
    refine .ite _ (mirrors_fail paren _) ?_
    cases room.depth with
    | zero => exact mirrors_fail paren .stackOverflow
    | succ depth =>
      rw [parameterBindings_bare]
      refine mirrors_overflowing paren (mirrors_inFrames fun room => ?_)
      refine .bind (mirrors_inScope _ f.scope (ih.executeAll room f.body)) fun completion => ?_
      cases completion with
      | normal => exact .pure Value.nil
      | returned v => exact .pure v

theorem step_execute (ih : MirrorsRuns fuel) (room : Room) (s : Stmt) :
    Mirrors Completion.bare (Run.execute (fuel + 1) room s)
      (Run.execute (fuel + 1) room s.bare) := by
  refine mirrors_inFrames fun room => ?_
  match s with
  | .expression e => exact .bind (ih.evaluate room e) fun _ => .pure Completion.normal
  | .print e =>
    refine .bind (ih.evaluate room e) fun v => ?_
    rw [Value.text_bare]
    exact .bind (mirrors_print v.text) fun _ => .pure Completion.normal
  | .var name none => exact .bind (mirrors_define name .nil) fun _ => .pure Completion.normal
  | .var name (some e) =>
    refine .bind (ih.evaluate room e) fun v => ?_
    exact .bind (mirrors_define name v) fun _ => .pure Completion.normal
  | .block body =>
    rw [Stmt.bare_block]
    exact mirrors_inFrames fun room => mirrors_inBlock (ih.executeAll room body)
  | .conditional condition thenBranch none =>
    refine .bind (ih.evaluate room condition) fun v => ?_
    rw [Value.isTruthy_bare]
    exact .ite _ (ih.execute room thenBranch) (.pure Completion.normal)
  | .conditional condition thenBranch (some elseBranch) =>
    refine .bind (ih.evaluate room condition) fun v => ?_
    rw [Value.isTruthy_bare]
    exact .ite _ (ih.execute room thenBranch) (ih.execute room elseBranch)
  | .loop condition body => exact ih.repeatWhile room condition body
  | .function name params body =>
    rw [Stmt.bare_function]
    refine .bind (mirrors_makeFunction name params body) fun f => ?_
    exact .bind (mirrors_define name f) fun _ => .pure Completion.normal
  | .result _ none => exact .pure (Completion.returned .nil)
  | .result _ (some e) =>
    exact .bind (ih.evaluate room e) fun v => .pure (Completion.returned v)

theorem step_executeAll (ih : MirrorsRuns fuel) (room : Room) (ss : List Stmt) :
    Mirrors Completion.bare (Run.executeAll (fuel + 1) room ss)
      (Run.executeAll (fuel + 1) room (ss.map Stmt.bare)) := by
  cases ss with
  | nil => exact .pure Completion.normal
  | cons s ss =>
    refine .bind (ih.execute room s) fun completion => ?_
    cases completion with
    | normal => exact ih.executeAll room ss
    | returned v => exact .pure (Completion.returned v)

theorem step_repeatWhile (ih : MirrorsRuns fuel) (room : Room) (condition : Expr) (body : Stmt) :
    Mirrors Completion.bare (Run.repeatWhile (fuel + 1) room condition body)
      (Run.repeatWhile (fuel + 1) room condition.bare body.bare) := by
  refine .bind (ih.evaluate room condition) fun v => ?_
  rw [Value.isTruthy_bare]
  refine .ite _ (.bind (ih.execute room body) fun completion => ?_) (.pure Completion.normal)
  cases completion with
  | normal => exact ih.repeatWhile room condition body
  | returned v => exact .pure (Completion.returned v)

end MirrorsRuns

/-- The induction is on the fuel, which every recursion uses up. -/
theorem mirrorsRuns (fuel : Nat) : MirrorsRuns fuel := by
  induction fuel with
  | zero =>
    exact {
      evaluate := fun _ _ => .throw _
      evaluateAll := fun _ _ => .throw _
      call := fun _ _ _ _ => .throw _
      execute := fun _ _ => .throw _
      executeAll := fun _ _ => .throw _
      repeatWhile := fun _ _ _ => .throw _ }
  | succ fuel ih =>
    exact {
      evaluate := ih.step_evaluate
      evaluateAll := ih.step_evaluateAll
      call := ih.step_call
      execute := ih.step_execute
      executeAll := ih.step_executeAll
      repeatWhile := ih.step_repeatWhile }

theorem mirrors_executeProgram (fuel : Nat) (room : Room) (program : List Stmt) :
    Mirrors id (executeProgram fuel room program)
      (executeProgram fuel room (program.map Stmt.bare)) := by
  induction program with
  | nil => exact .pure ()
  | cons s ss ih => exact .bind ((mirrorsRuns fuel).execute room s) fun _ => ih

end Run

/-- A bare program halts on the bare machine as the program does on the machine itself, and leaves
the bare form of the machine behind. -/
theorem Machine.run_bare (limits : Limits) (program : List Stmt) (m : Machine) :
    m.bare.run limits (program.map Stmt.bare) =
      ((m.run limits program).1.map Halt.bare, (m.run limits program).2.bare) := by
  unfold run
  rw [Run.mirrors_executeProgram limits.fuel limits.calls program m]
  cases Run.executeProgram limits.fuel limits.calls program m <;> rfl

end Lox
