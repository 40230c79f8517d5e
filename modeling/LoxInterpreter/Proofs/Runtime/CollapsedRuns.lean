import LoxInterpreter.Proofs.Places.Mirrors
import LoxInterpreter.Proofs.Runtime.Collapse
import LoxInterpreter.Proofs.Runtime.RunsKeep
import LoxInterpreter.Proofs.Tree.Parts

/-!
Runs on collapsed stores. Empty scopes say nothing about what names mean, so a part of a run does
on a machine without some of them what it does on the machine with them: it ends alike, prints the
same, and leaves machines behind of which the second one is again the first one without empty
scopes.

The two runs need not have the same fuel, and one of them may open an empty scope that the other
one does not open. So `Simulates` allows the first run to be cut off where it has less fuel, or the
second one where that has less.
-/

namespace Lox

variable {α β γ δ : Type}

namespace Collapse

inductive OfMachines (w : Collapse) : Machine → Machine → Prop
  | intro {m : Machine} {s' : Store} (store : w.OfStores m.store s')
      (inside : m.current < w.size) :
      OfMachines w m { m with store := s', current := w.image m.current }

def OfValues (w : Collapse) (v v' : Value) : Prop :=
  v.ScopeBelow w.size ∧ v' = v.moved w.image

def OfLists (w : Collapse) (vs vs' : List Value) : Prop :=
  (∀ v ∈ vs, v.ScopeBelow w.size) ∧ vs' = vs.map (Value.moved w.image)

inductive OfCompletions (w : Collapse) : Completion → Completion → Prop
  | normal : OfCompletions w .normal .normal
  | returned {v v' : Value} (h : w.OfValues v v') : OfCompletions w (.returned v) (.returned v')

variable {left right : Prop} {w w' : Collapse} {c : ScopeId}

theorem OfValues.mono {v v' : Value} (hw : w.Grows w') (h : w.OfValues v v') : w'.OfValues v v' :=
  ⟨h.1.mono hw.size, h.2.trans (Value.moved_congr h.1 hw.image).symm⟩

theorem OfValues.isTruthy {v v' : Value} (h : w.OfValues v v') : v'.isTruthy = v.isTruthy := by
  rw [h.2, Value.isTruthy_mapFunction]

theorem OfLists.cons {v v' : Value} {vs vs' : List Value} (hv : w.OfValues v v')
    (hvs : w.OfLists vs vs') : w.OfLists (v :: vs) (v' :: vs') := by
  refine ⟨List.forall_mem_cons.2 ⟨hv.1, hvs.1⟩, ?_⟩
  rw [hv.2, hvs.2, List.map_cons]

/-- A value that is not a function stays the same. -/
theorem ofValues_of_ne {v : Value} (h : ∀ f, v ≠ .function f) : w.OfValues v v := by
  refine ⟨fun f hf => absurd hf (h f), ?_⟩
  cases v with
  | function f => exact absurd rfl (h f)
  | _ => rfl

theorem OfCompletions.result {completion completion' : Completion}
    (h : w.OfCompletions completion completion') :
    w.OfValues completion.result completion'.result := by
  cases h with
  | normal => exact ofValues_of_ne (by simp [Completion.result])
  | returned h => exact h

/-- How two parts of runs end that began with machines in the scope `c` and in what stands for it:
alike, unless one of them is cut off. -/
inductive Ends (left right : Prop) (w : Collapse) (c : ScopeId) (Q : Collapse → α → β → Prop) :
    EStateM.Result Halt Machine α → EStateM.Result Halt Machine β → Prop
  | ok {a : α} {b : β} {m m' : Machine} {w' : Collapse} (hw : w.Grows w')
      (hm : w'.OfMachines m m') (hc : m.current = c) (h : Q w' a b) :
      Ends left right w c Q (.ok a m) (.ok b m')
  | halted {halt : Halt} {m m' : Machine} {w' : Collapse} (hw : w.Grows w')
      (hm : w'.OfMachines m m') (hc : m.current = c) :
      Ends left right w c Q (.error halt m) (.error halt m')
  | cutLeft {m : Machine} {result : EStateM.Result Halt Machine β} (h : left) :
      Ends left right w c Q (.error .exhausted m) result
  | cutRight {m : Machine} {result : EStateM.Result Halt Machine α} (h : right) :
      Ends left right w c Q result (.error .exhausted m)

theorem Ends.of_grows {Q : Collapse → α → β → Prop} {result : EStateM.Result Halt Machine α}
    {result' : EStateM.Result Halt Machine β} (hw : w.Grows w')
    (h : Ends left right w' c Q result result') : Ends left right w c Q result result' := by
  cases h with
  | ok hw' hm hc h => exact .ok (hw.trans hw') hm hc h
  | halted hw' hm hc => exact .halted (hw.trans hw') hm hc
  | cutLeft h => exact .cutLeft h
  | cutRight h => exact .cutRight h

/-- The part `r'` of a run does on collapsed machines what `r` does, with results related by `Q`.
The first may be cut off if `left` holds, the second if `right` holds. -/
def Simulates (left right : Prop) (w : Collapse) (c : ScopeId) (Q : Collapse → α → β → Prop)
    (r : Run α) (r' : Run β) : Prop :=
  ∀ m m', w.OfMachines m m' → m.current = c → Ends left right w c Q (r m) (r' m')

namespace Simulates

variable {r : Run α} {r' : Run β} {Q : Collapse → α → β → Prop} {T : Collapse → γ → δ → Prop}

theorem pure {a : α} {b : β} (h : Q w a b) :
    Simulates left right w c Q (Pure.pure a) (Pure.pure b) :=
  fun _ _ hm hc => .ok (.refl w) hm hc h

theorem throw {halt : Halt} :
    Simulates left right w c Q (MonadExcept.throw halt) (MonadExcept.throw halt) :=
  fun _ _ hm hc => .halted (.refl w) hm hc

theorem fail {token : Token} {cause : RuntimeCause} :
    Simulates left right w c Q (Run.fail token cause) (Run.fail token cause) :=
  throw

theorem throwLeft (h : left) :
    Simulates left right w c Q (MonadExcept.throw .exhausted) r' :=
  fun _ _ _ _ => .cutLeft h

theorem throwRight (h : right) :
    Simulates left right w c Q r (MonadExcept.throw .exhausted) :=
  fun _ _ _ _ => .cutRight h

theorem bind {f : α → Run γ} {f' : β → Run δ} (hr : Simulates left right w c Q r r')
    (hf : ∀ a b w', w.Grows w' → Q w' a b → Simulates left right w' c T (f a) (f' b)) :
    Simulates left right w c T (r >>= f) (r' >>= f') := by
  intro m m' hm hc
  have hfirst := hr m m' hm hc
  rw [Step.bind_apply, Step.bind_apply]
  generalize r m = result, r' m' = result' at hfirst
  cases hfirst with
  | ok hw hm' hc' h => exact (hf _ _ _ hw h _ _ hm' hc').of_grows hw
  | halted hw hm' hc' => exact .halted hw hm' hc'
  | cutLeft h => exact .cutLeft h
  | cutRight h => exact .cutRight h

theorem ite (p : Prop) [Decidable p] {q : Run α} {q' : Run β}
    (hr : Simulates left right w c Q r r') (hq : Simulates left right w c Q q q') :
    Simulates left right w c Q (if p then r else q) (if p then r' else q') := by
  split
  · exact hr
  · exact hq

theorem inFrames {room : Room} {count : Nat} {body : Room → Run α} {body' : Room → Run β}
    (h : ∀ room, Simulates left right w c Q (body room) (body' room)) :
    Simulates left right w c Q (Run.inFrames room count body) (Run.inFrames room count body') :=
  Room.nested_induction₂ (P := Simulates left right w c Q) throw h

theorem overflowing (paren : Token) (h : Simulates left right w c Q r r') :
    Simulates left right w c Q (Run.overflowing paren r) (Run.overflowing paren r') := by
  intro m m' hm hc
  have hends := h m m' hm hc
  unfold Run.overflowing
  generalize r m = result, r' m' = result' at hends
  cases hends with
  | ok hw hm' hc' h => exact .ok hw hm' hc' h
  | @halted halt _ _ _ hw hm' hc' => cases halt <;> exact .halted hw hm' hc'
  | cutLeft h => exact .cutLeft h
  | cutRight h => exact .cutRight h

/-! ### Actions of the machine -/

variable {v v' : Value}

theorem get (name : Token) : Simulates left right w c OfValues (Run.get name) (Run.get name) := by
  rintro m _ hm hc
  cases hm with
  | intro store inside =>
    unfold Run.get
    dsimp only
    rw [store.get? inside]
    cases hget : m.store.get? m.current name.lexeme with
    | some v => exact .ok (.refl w) (.intro store inside) hc ⟨store.scopeBelow_of_get? hget, rfl⟩
    | none => exact .halted (.refl w) (.intro store inside) hc

theorem assign (name : Token) (hv : w.OfValues v v') :
    Simulates left right w c (fun _ _ _ => True) (Run.assign name v) (Run.assign name v') := by
  rintro m _ hm hc
  obtain ⟨hbelow, rfl⟩ := hv
  cases hm with
  | intro store inside =>
    unfold Run.assign
    dsimp only
    rw [store.resolve inside]
    cases hresolve : m.store.resolve name.lexeme m.current with
    | some owner =>
      have howner := store.kept_of_resolve hresolve
      exact .ok (.refl w) (.intro (store.define howner hbelow) inside) hc trivial
    | none => exact .halted (.refl w) (.intro store inside) hc

/-- Names are not bound in a scope that is left out. -/
theorem define (name : Token) (hc : w.Kept c) (hv : w.OfValues v v') :
    Simulates left right w c (fun _ _ _ => True) (Run.define name v) (Run.define name v') := by
  rintro m _ hm rfl
  obtain ⟨hbelow, rfl⟩ := hv
  cases hm with
  | intro store inside =>
    exact .ok (.refl w) (.intro (store.define hc hbelow) inside) rfl trivial

theorem makeFunction (name : Token) (params : List Token) (body : List Stmt) :
    Simulates left right w c OfValues (Run.makeFunction name params body)
      (Run.makeFunction name params body) := by
  rintro m _ hm rfl
  cases hm with
  | intro store inside =>
    refine .ok (.refl w) (.intro store inside) rfl ⟨?_, rfl⟩
    rintro f ⟨⟩
    exact inside

theorem print (text : String) :
    Simulates left right w c (fun _ _ _ => True) (Run.print text) (Run.print text) := by
  rintro m _ hm hc
  cases hm with
  | intro store inside => exact .ok (.refl w) (.intro store inside) hc trivial

theorem readClock : Simulates left right w c OfValues Run.readClock Run.readClock := by
  rintro m _ hm hc
  cases hm with
  | intro store inside =>
    exact .ok (.refl w) (.intro store inside) hc (ofValues_of_ne (by simp))

theorem ofOperator (op : Token) {result : Except OperatorFault Value}
    (hresult : ∀ v, result = .ok v → ∀ f, v ≠ .function f) :
    Simulates left right w c OfValues (Run.ofOperator op result)
      (Run.ofOperator op (result.map (Value.moved w.image))) := by
  cases result with
  | ok v =>
    have hv := ofValues_of_ne (w := w) (hresult v rfl)
    exact pure ⟨hv.1, rfl⟩
  | error fault =>
    cases fault with
    | unfit cause => exact fail
    | unsupported => exact throw

end Simulates

/-! ### Scopes -/

def goOnIn (c : ScopeId) (m : Machine) : Machine := { m with current := c }

/-- A part of a run in a scope of its own runs in the opened scope, and goes on in the one before,
however it ends there. -/
theorem inScope_apply (bindings : List (String × Value)) (enclosing : ScopeId) (r : Run α)
    (m : Machine) : Run.inScope bindings enclosing r m =
      Step.image (goOnIn m.current) id id (r (Trace.opened bindings enclosing m)) := by
  unfold Run.inScope Trace.opened
  dsimp only
  cases r { m with
    store := (m.store.openScope bindings (some enclosing)).2
    current := (m.store.openScope bindings (some enclosing)).1 } <;> rfl

theorem OfMachines.goOnIn {m m' : Machine} (h : w.OfMachines m m') (hc : c < w.size) :
    w.OfMachines (goOnIn c m) (goOnIn (w.image c) m') := by
  cases h with
  | intro store inside => exact .intro (m := Collapse.goOnIn c _) store hc

/-- Both runs leave a scope. -/
theorem Ends.leave {Q : Collapse → α → β → Prop} {d : ScopeId} (hw : w.Grows w') (hc : c < w.size)
    {result : EStateM.Result Halt Machine α} {result' : EStateM.Result Halt Machine β}
    (h : Ends left right w' d Q result result') :
    Ends left right w c Q (Step.image (goOnIn c) id id result)
      (Step.image (goOnIn (w.image c)) id id result') := by
  cases h with
  | ok hw' hm _ h =>
    have hgrows := hw.trans hw'
    have hleave := hm.goOnIn (Nat.lt_of_lt_of_le hc hgrows.size)
    rw [hgrows.image c hc] at hleave
    exact .ok hgrows hleave rfl h
  | halted hw' hm _ =>
    have hgrows := hw.trans hw'
    have hleave := hm.goOnIn (Nat.lt_of_lt_of_le hc hgrows.size)
    rw [hgrows.image c hc] at hleave
    exact .halted hgrows hleave rfl
  | cutLeft h => exact .cutLeft h
  | cutRight h => exact .cutRight h

/-- Only the first run leaves a scope, for which the scope behind it stands in the second one. -/
theorem Ends.leaveLeft {Q : Collapse → α → β → Prop} {d : ScopeId} (hw : w.Grows w')
    (hc : c < w.size) (hd : d < w'.size) (himage : w'.image d = w.image c)
    {result : EStateM.Result Halt Machine α} {result' : EStateM.Result Halt Machine β}
    (h : Ends left right w' d Q result result') :
    Ends left right w c Q (Step.image (goOnIn c) id id result) result' := by
  have hleave : ∀ {w'' m m'}, w'.Grows w'' → w''.OfMachines m m' → m.current = d →
      w''.OfMachines (goOnIn c m) m' := by
    intro w'' m m' hw'' hm hcurrent
    have hstands : w''.image c = w''.image m.current := by
      rw [hcurrent, hw''.image d hd, himage, (hw.trans hw'').image c hc]
    cases hm with
    | intro store _ =>
      have hinside : c < w''.size := Nat.lt_of_lt_of_le hc (hw.trans hw'').size
      have hleft := OfMachines.intro (m := Collapse.goOnIn c m) store hinside
      rwa [Collapse.goOnIn, hstands] at hleft
  cases h with
  | ok hw' hm hc' h => exact .ok (hw.trans hw') (hleave hw' hm hc') rfl h
  | halted hw' hm hc' => exact .halted (hw.trans hw') (hleave hw' hm hc') rfl
  | cutLeft h => exact .cutLeft h
  | cutRight h => exact .cutRight h

namespace Simulates

variable {r : Run α} {r' : Run β} {Q : Collapse → α → β → Prop}

theorem inScope {bindings : List (String × Value)} {enclosing : ScopeId}
    (henclosing : enclosing < w.size) (hbindings : ∀ b ∈ bindings, b.2.ScopeBelow w.size)
    (hr : ∀ w' id, w.Grows w' → w'.Kept id → Simulates left right w' id Q r r') :
    Simulates left right w c Q (Run.inScope bindings enclosing r)
      (Run.inScope (mapBindings (Closure.moved w.image) bindings) (w.image enclosing) r') := by
  rintro m _ hm rfl
  cases hm with
  | @intro s' store inside =>
    have hgrows := w.grows_keep s'.scopes.size
    have hkept : (w.keep s'.scopes.size).Kept m.store.scopes.size :=
      store.size.symm ▸ w.kept_keep s'.scopes.size
    have hopened := OfMachines.intro (m := Trace.opened bindings enclosing m)
      (store.openScope henclosing hbindings) hkept.1
    have himage : (w.keep s'.scopes.size).image m.store.scopes.size = s'.scopes.size :=
      if_pos store.size
    rw [inScope_apply, inScope_apply]
    refine Ends.leave hgrows inside (hr _ _ hgrows hkept _ _ ?_ rfl)
    rw [show (Trace.opened bindings enclosing m).current = m.store.scopes.size from rfl,
      himage] at hopened
    exact hopened

theorem inBlock (hr : ∀ w' id, w.Grows w' → w'.Kept id → Simulates left right w' id Q r r') :
    Simulates left right w c Q (Run.inBlock r) (Run.inBlock r') := by
  rintro m _ hm hc
  cases hm with
  | intro store inside =>
    have hnone : ∀ b ∈ ([] : List (String × Value)), b.2.ScopeBelow w.size := by simp
    exact inScope inside hnone hr m _ (.intro store inside) hc

/-- The first run is in a block in which no names are bound, the second one is not. -/
theorem inBlockLeft
    (hr : ∀ w' id, w.Grows w' → id < w'.size → Simulates left right w' id Q r r') :
    Simulates left right w c Q (Run.inBlock r) r' := by
  rintro m _ hm rfl
  cases hm with
  | @intro s' store inside =>
    have hgrows := w.grows_drop m.current
    have hlt : m.store.scopes.size < (w.drop m.current).size :=
      store.size.symm ▸ Nat.lt_succ_self w.size
    have himage : (w.drop m.current).image m.store.scopes.size = w.image m.current :=
      if_pos store.size
    have hopened := OfMachines.intro (m := Trace.opened [] m.current m)
      (store.openEmpty inside) hlt
    rw [Run.inBlock, inScope_apply]
    refine Ends.leaveLeft hgrows inside hlt himage (hr _ _ hgrows hlt _ _ ?_ rfl)
    rw [show (Trace.opened [] m.current m).current = m.store.scopes.size from rfl,
      himage] at hopened
    exact hopened

end Simulates

/-! ### Expressions and statements -/

/-- The run that may be cut off has no more fuel than the other one. If that is the second run, the
first one has even `ahead` more, and can use up that much by itself. -/
def Pace (left right : Prop) (ahead fuel fuel' : Nat) : Prop :=
  left ∧ fuel ≤ fuel' ∨ right ∧ fuel' + ahead ≤ fuel

namespace Pace

variable {ahead ahead' fuel fuel' : Nat}

theorem mono (h : Pace left right ahead fuel fuel') (hle : ahead' ≤ ahead) :
    Pace left right ahead' fuel fuel' :=
  h.imp_right (And.imp_right (Nat.le_trans (Nat.add_le_add_left hle fuel')))

/-- Either the first run is cut off, or it uses up some of what it is ahead by. -/
theorem spend (h : Pace left right (ahead + 1) fuel fuel') :
    fuel = 0 ∧ left ∨ ∃ rest, fuel = rest + 1 ∧ Pace left right ahead rest fuel' := by
  cases fuel with
  | zero => exact h.elim (fun hleft => .inl ⟨rfl, hleft.1⟩) fun hright => absurd hright.2 (by omega)
  | succ rest =>
    refine .inr ⟨rest, rfl, h.imp (And.imp_right ?_) (And.imp_right ?_)⟩
    · exact Nat.le_of_succ_le
    · exact Nat.le_of_succ_le_succ

/-- Both runs use up fuel until one of them is cut off. -/
@[elab_as_elim]
theorem induct {motive : Nat → Nat → Prop} (h : Pace left right ahead fuel fuel')
    (cutLeft : left → ∀ fuel', motive 0 fuel') (cutRight : right → ∀ fuel, motive fuel 0)
    (step : ∀ fuel fuel', Pace left right ahead fuel fuel' → motive fuel fuel' →
      motive (fuel + 1) (fuel' + 1)) : motive fuel fuel' := by
  induction fuel generalizing fuel' with
  | zero =>
    rcases h with ⟨hleft, -⟩ | ⟨hright, hle⟩
    · exact cutLeft hleft fuel'
    · rw [Nat.eq_zero_of_add_eq_zero_right (Nat.le_zero.1 hle)]
      exact cutRight hright 0
  | succ fuel ih =>
    cases fuel' with
    | zero =>
      rcases h with ⟨-, hle⟩ | ⟨hright, -⟩
      · exact absurd hle (Nat.not_succ_le_zero fuel)
      · exact cutRight hright (fuel + 1)
    | succ fuel' =>
      have hrest : Pace left right ahead fuel fuel' :=
        h.imp (And.imp_right (by omega)) (And.imp_right (by omega))
      exact step fuel fuel' hrest (ih hrest)

end Pace

/-- The same expressions and statements do the same on collapsed machines, with `fuel` in the first
run and `fuel'` in the second one. Declarations must not bind names in a scope that is left out. -/
structure SimulatesWith (left right : Prop) (fuel fuel' : Nat) : Prop where
  evaluate {w : Collapse} {c : ScopeId} (room : Room) (e : Expr) :
    Simulates left right w c OfValues (Run.evaluate fuel room e) (Run.evaluate fuel' room e)
  evaluateAll {w : Collapse} {c : ScopeId} (room : Room) (es : List Expr) :
    Simulates left right w c OfLists (Run.evaluateAll fuel room es)
      (Run.evaluateAll fuel' room es)
  call {w : Collapse} {c : ScopeId} {f f' : Value} {args args' : List Value} (room : Room)
    (paren : Token) (hf : w.OfValues f f') (hargs : w.OfLists args args') :
    Simulates left right w c OfValues (Run.call fuel room f paren args)
      (Run.call fuel' room f' paren args')
  execute {w : Collapse} {c : ScopeId} (room : Room) (s : Stmt)
    (hc : s.declares = true → w.Kept c) :
    Simulates left right w c OfCompletions (Run.execute fuel room s) (Run.execute fuel' room s)
  executeAll {w : Collapse} {c : ScopeId} (room : Room) (ss : List Stmt) (hc : w.Kept c) :
    Simulates left right w c OfCompletions (Run.executeAll fuel room ss)
      (Run.executeAll fuel' room ss)
  repeatWhile {w : Collapse} {c : ScopeId} (room : Room) (condition : Expr) (body : Stmt)
    (hc : body.declares = true → w.Kept c) :
    Simulates left right w c OfCompletions (Run.repeatWhile fuel room condition body)
      (Run.repeatWhile fuel' room condition body)

namespace SimulatesWith

variable {fuel fuel' : Nat}

theorem zeroLeft (h : left) : SimulatesWith left right 0 fuel' where
  evaluate _ _ := .throwLeft h
  evaluateAll _ _ := .throwLeft h
  call _ _ _ _ := .throwLeft h
  execute _ _ _ := .throwLeft h
  executeAll _ _ _ := .throwLeft h
  repeatWhile _ _ _ _ := .throwLeft h

theorem zeroRight (h : right) : SimulatesWith left right fuel 0 where
  evaluate _ _ := .throwRight h
  evaluateAll _ _ := .throwRight h
  call _ _ _ _ := .throwRight h
  execute _ _ _ := .throwRight h
  executeAll _ _ _ := .throwRight h
  repeatWhile _ _ _ _ := .throwRight h

theorem step_evaluate (ih : SimulatesWith left right fuel fuel') (room : Room) (e : Expr) :
    Simulates left right w c OfValues (Run.evaluate (fuel + 1) room e)
      (Run.evaluate (fuel' + 1) room e) := by
  refine .inFrames fun room => ?_
  cases e with
  | literal l => exact .pure (ofValues_of_ne (Value.ne_function_ofLiteral l))
  | grouping inner => exact ih.evaluate room inner
  | unary op right =>
    refine (ih.evaluate room right).bind fun v v' w' _ hv => ?_
    rw [hv.2, Value.unary_mapFunction]
    exact .ofOperator op fun _ => Value.ne_function_of_unary
  | binary left op right =>
    refine (ih.evaluate room left).bind fun v v' w₁ _ hv => ?_
    refine (ih.evaluate room right).bind fun u u' w₂ hw hu => ?_
    rw [(hv.mono hw).2, hu.2, Value.binary_mapFunction (Closure.faithful_moved _)]
    exact .ofOperator op fun _ => Value.ne_function_of_binary
  | logical left op right =>
    refine (ih.evaluate room left).bind fun v v' w' _ hv => ?_
    have hdecides : v'.decides op.kind = v.decides op.kind := by
      rw [hv.2, Value.decides_mapFunction]
    rw [hdecides]
    exact .ite _ (.pure hv) (ih.evaluate room right)
  | «variable» name => exact .get name
  | assign name value =>
    refine (ih.evaluate room value).bind fun v v' w₁ _ hv => ?_
    exact (Simulates.assign name hv).bind fun _ _ w₂ hw _ => .pure (hv.mono hw)
  | call callee paren arguments =>
    refine (ih.evaluate room callee).bind fun f f' w₁ _ hf => ?_
    exact (ih.evaluateAll room arguments).bind fun args args' w₂ hw hargs =>
      ih.call room paren (hf.mono hw) hargs

theorem step_evaluateAll (ih : SimulatesWith left right fuel fuel') (room : Room)
    (es : List Expr) :
    Simulates left right w c OfLists (Run.evaluateAll (fuel + 1) room es)
      (Run.evaluateAll (fuel' + 1) room es) := by
  cases es with
  | nil => exact .pure ⟨by simp, rfl⟩
  | cons e es =>
    refine (ih.evaluate room e).bind fun v v' w₁ _ hv => ?_
    exact (ih.evaluateAll room es).bind fun vs vs' w₂ hw hvs => .pure (hvs.cons (hv.mono hw))

/-- The body of a function is executed in a scope of its own, in both runs. -/
theorem step_call (ih : SimulatesWith left right fuel fuel') {f f' : Value}
    {args args' : List Value} (room : Room) (paren : Token) (hf : w.OfValues f f')
    (hargs : w.OfLists args args') :
    Simulates left right w c OfValues (Run.call (fuel + 1) room f paren args)
      (Run.call (fuel' + 1) room f' paren args') := by
  obtain ⟨hbelow, rfl⟩ := hf
  obtain ⟨hargs, rfl⟩ := hargs
  have harity := Value.arity?_mapFunction (Closure.faithful_moved w.image) f
  have hlength : (args.map (Value.moved w.image)).length = args.length := List.length_map _
  refine .inFrames fun room => ?_
  simp only [harity, hlength]
  cases hn : f.arity? with
  | none => exact .fail
  | some n =>
    refine .ite _ .fail ?_
    cases f with
    | nil | bool _ | number _ | string _ => cases hn
    | clock => exact .overflowing paren (.inFrames fun _ => .readClock)
    | function f =>
      cases room.depth with
      | zero => exact .fail
      | succ depth =>
        refine .overflowing paren (.inFrames fun room => ?_)
        have hbindings : ∀ b ∈ parameterBindings f.params args, b.2.ScopeBelow w.size :=
          fun b hb => hargs b.2 (mem_args_of_mem_parameterBindings hb)
        have hbody := Simulates.inScope (c := c) (hbelow f rfl) hbindings fun _ _ _ hid =>
          ih.executeAll room f.body hid
        rw [← parameterBindings_map] at hbody
        exact hbody.bind fun _ _ _ _ hcompletion => .pure hcompletion.result

theorem step_execute (ih : SimulatesWith left right fuel fuel') (room : Room) (s : Stmt)
    (hc : s.declares = true → w.Kept c) :
    Simulates left right w c OfCompletions (Run.execute (fuel + 1) room s)
      (Run.execute (fuel' + 1) room s) := by
  refine .inFrames fun room => ?_
  cases s with
  | expression e => exact (ih.evaluate room e).bind fun _ _ _ _ _ => .pure .normal
  | print e =>
    refine (ih.evaluate room e).bind fun v v' w' _ hv => ?_
    rw [hv.2, Value.text_mapFunction (Closure.faithful_moved _)]
    exact (Simulates.print v.text).bind fun _ _ _ _ _ => .pure .normal
  | var name initializer =>
    cases initializer with
    | none =>
      have hnil : w.OfValues .nil .nil := ofValues_of_ne (by simp)
      exact (Simulates.define name (hc rfl) hnil).bind fun _ _ _ _ _ => .pure .normal
    | some e =>
      refine (ih.evaluate room e).bind fun v v' w' hw hv => ?_
      exact (Simulates.define name (hw.kept (hc rfl)) hv).bind fun _ _ _ _ _ => .pure .normal
  | block body => exact .inFrames fun room => .inBlock fun _ _ _ hid => ih.executeAll room body hid
  | conditional condition thenBranch elseBranch =>
    refine (ih.evaluate room condition).bind fun v v' w' hw hv => ?_
    rw [hv.isTruthy]
    -- A branch that can bind a name makes the whole statement one that can.
    refine .ite _ (ih.execute room thenBranch fun h => hw.kept (hc ?_)) ?_
    · cases elseBranch <;> simp [Stmt.declares, h]
    · cases elseBranch with
      | some s => exact ih.execute room s fun h => hw.kept (hc (by simp [Stmt.declares, h]))
      | none => exact .pure .normal
  | loop condition body => exact ih.repeatWhile room condition body hc
  | function name params body =>
    refine (Simulates.makeFunction name params body).bind fun f f' w' hw hf => ?_
    exact (Simulates.define name (hw.kept (hc rfl)) hf).bind fun _ _ _ _ _ => .pure .normal
  | result keyword value =>
    cases value with
    | none => exact .pure (.returned (ofValues_of_ne (by simp)))
    | some e => exact (ih.evaluate room e).bind fun _ _ _ _ hv => .pure (.returned hv)

theorem step_executeAll (ih : SimulatesWith left right fuel fuel') (room : Room) (ss : List Stmt)
    (hc : w.Kept c) :
    Simulates left right w c OfCompletions (Run.executeAll (fuel + 1) room ss)
      (Run.executeAll (fuel' + 1) room ss) := by
  cases ss with
  | nil => exact .pure .normal
  | cons s ss =>
    refine (ih.execute room s fun _ => hc).bind fun _ _ w' hw hcompletion => ?_
    cases hcompletion with
    | normal => exact ih.executeAll room ss (hw.kept hc)
    | returned hv => exact .pure (.returned hv)

theorem step_repeatWhile (ih : SimulatesWith left right fuel fuel') (room : Room)
    (condition : Expr) (body : Stmt) (hc : body.declares = true → w.Kept c) :
    Simulates left right w c OfCompletions (Run.repeatWhile (fuel + 1) room condition body)
      (Run.repeatWhile (fuel' + 1) room condition body) := by
  refine (ih.evaluate room condition).bind fun v v' w₁ hw₁ hv => ?_
  rw [hv.isTruthy]
  refine .ite _ ?_ (.pure .normal)
  have hbody := ih.execute room body fun h => hw₁.kept (hc h)
  refine hbody.bind fun _ _ w₂ hw₂ hcompletion => ?_
  cases hcompletion with
  | normal => exact ih.repeatWhile room condition body fun h => hw₂.kept (hw₁.kept (hc h))
  | returned hv => exact .pure (.returned hv)

end SimulatesWith

/-- The run that is cut off when its fuel is used up is the one that may be. -/
theorem simulatesWith {ahead fuel fuel' : Nat} (h : Pace left right ahead fuel fuel') :
    SimulatesWith left right fuel fuel' := by
  refine h.induct (fun hleft _ => .zeroLeft hleft) (fun hright _ => .zeroRight hright) ?_
  intro fuel fuel' _ ih
  exact {
    evaluate := ih.step_evaluate
    evaluateAll := ih.step_evaluateAll
    call := ih.step_call
    execute := ih.step_execute
    executeAll := ih.step_executeAll
    repeatWhile := ih.step_repeatWhile }

end Collapse

end Lox
