import LoxInterpreter.Proofs.Runtime.Respected
import LoxInterpreter.Proofs.Tree.Parts

/-!
Invariants of runs. An invariant says what is known of a machine, of the scopes that a run may be
in, of the functions that it may hold and of the ways in which it may halt. It speaks of a world,
which can only grow: what was known of a scope or of a function in one world is known in all later
ones.

An invariant that each action of the machine keeps is kept by all parts of runs. There is one rule
for each action, one for putting two parts together, and one step for each recursive function; the
induction is on the fuel.
-/

namespace Lox

def OperatorFault.halt (operator : Token) : OperatorFault → Halt
  | .unfit cause => .failed ⟨operator, cause⟩
  | .unsupported => .unsupported operator

/-- What can be wrong with a call, other than what goes wrong in the body of the function. -/
inductive RuntimeCause.OfCall : RuntimeCause → Prop
  | notCallable : OfCall .notCallable
  | wrongArity (expected got : Nat) : OfCall (.wrongArity expected got)
  | stackOverflow : OfCall .stackOverflow

/-- What is known while a run goes on, in worlds of type `W`. -/
structure Invariant (W : Type) where
  /-- The first world is the second one or an earlier one. -/
  grows : W → W → Prop
  machine : W → Machine → Prop
  /-- The scopes in which expressions may be evaluated. -/
  seen : W → ScopeId → Prop
  /-- The scopes in which names may be bound. -/
  owned : W → ScopeId → Prop
  closure : W → Closure → Prop
  /-- The expressions that a run may meet. -/
  node : Expr → Prop
  halt : Halt → Prop

namespace Invariant

variable {W : Type} {α β : Type}

def value (I : Invariant W) (w : W) (v : Value) : Prop := ∀ f, v = .function f → I.closure w f

def completion (I : Invariant W) (w : W) (c : Completion) : Prop :=
  ∀ v, c = .returned v → I.value w v

def statement (I : Invariant W) (s : Stmt) : Prop := s.Every I.node fun _ => True

structure Kept (I : Invariant W) : Prop where
  refl (w : W) : I.grows w w
  trans {w w' w'' : W} : I.grows w w' → I.grows w' w'' → I.grows w w''
  seen_mono {w w' : W} {c : ScopeId} : I.grows w w' → I.seen w c → I.seen w' c
  owned_mono {w w' : W} {c : ScopeId} : I.grows w w' → I.owned w c → I.owned w' c
  closure_mono {w w' : W} {f : Closure} : I.grows w w' → I.closure w f → I.closure w' f
  seen_of_owned {w : W} {c : ScopeId} : I.owned w c → I.seen w c
  seen_scope {w : W} {f : Closure} : I.closure w f → I.seen w f.scope
  body {w : W} {f : Closure} : I.closure w f → ∀ s ∈ f.body, I.statement s
  get {w : W} {m : Machine} {name : String} {f : Closure} : I.machine w m → I.seen w m.current →
    m.store.get? m.current name = some (.function f) → I.closure w f
  assign {w : W} {m : Machine} {name : String} {owner : ScopeId} {v : Value} : I.machine w m →
    I.seen w m.current → m.store.resolve name m.current = some owner → I.value w v →
    I.machine w { m with store := m.store.define owner name v }
  define {w : W} {m : Machine} {name : String} {v : Value} : I.machine w m →
    I.owned w m.current → I.value w v →
    I.machine w { m with store := m.store.define m.current name v }
  makeFunction {w : W} {m : Machine} {name : Token} {params : List Token} {body : List Stmt} :
    I.machine w m → I.owned w m.current → (∀ s ∈ body, I.statement s) →
    ∃ w', I.grows w w' ∧ I.machine w' { m with functions := m.functions + 1 } ∧
      I.closure w' ⟨m.functions, name, params, body, m.current⟩
  print {w : W} {m : Machine} {text : String} : I.machine w m →
    I.machine w { m with printed := m.printed.push text }
  readClock {w : W} {m : Machine} : I.machine w m →
    I.machine w { m with readings := m.readings + 1 }
  openScope {w : W} {m : Machine} {bindings : List (String × Value)} {enclosing : ScopeId} :
    I.machine w m → I.seen w enclosing → (∀ b ∈ bindings, I.value w b.2) →
    ∃ w', I.grows w w' ∧ I.owned w' m.store.scopes.size ∧ I.machine w' { m with
      store := (m.store.openScope bindings (some enclosing)).2
      current := m.store.scopes.size }
  leave {w : W} {m : Machine} {c : ScopeId} : I.machine w m → I.machine w { m with current := c }
  exhausted : I.halt .exhausted
  recursion : I.halt .recursion
  unbound {name : Token} : I.node (.variable name) →
    I.halt (.failed ⟨name, .undefinedVariable name.lexeme⟩)
  unboundTarget {name : Token} {e : Expr} : I.node (.assign name e) →
    I.halt (.failed ⟨name, .undefinedVariable name.lexeme⟩)
  unaryFault {op : Token} {e : Expr} {v : Value} {fault : OperatorFault} :
    I.node (.unary op e) → v.unary op.kind = .error fault → I.halt (fault.halt op)
  binaryFault {op : Token} {e e' : Expr} {v v' : Value} {fault : OperatorFault} :
    I.node (.binary e op e') → v.binary op.kind v' = .error fault → I.halt (fault.halt op)
  callFault {e : Expr} {paren : Token} {args : List Expr} {cause : RuntimeCause} :
    I.node (.call e paren args) → cause.OfCall → I.halt (.failed ⟨paren, cause⟩)

/-- From a machine in the world `w` that is in the scope `c`, a part of a run leads to a machine
in the same scope and in a later world, where its result satisfies `Q`, or it halts in a known
way. -/
def Keeps (I : Invariant W) (w : W) (c : ScopeId) (r : Run α) (Q : W → α → Prop) : Prop :=
  ∀ m, I.machine w m → m.current = c →
    match r m with
    | .ok a m' => m'.current = c ∧ ∃ w', I.grows w w' ∧ I.machine w' m' ∧ Q w' a
    | .error halt m' => (∃ w', I.grows w w' ∧ I.machine w' m') ∧ I.halt halt

variable {I : Invariant W} {w w' : W} {c : ScopeId}

namespace Keeps

variable {r : Run α} {Q : W → α → Prop} {m m' : Machine}

theorem after (h : I.Keeps w c r Q) (hm : I.machine w m) (hc : m.current = c) :
    ∃ w', I.grows w w' ∧ I.machine w' (r.after m) := by
  have hkeeps := h m hm hc
  unfold Run.after
  cases hrun : r m with
  | ok a m' =>
    rw [hrun] at hkeeps
    obtain ⟨-, w', hw, hm', -⟩ := hkeeps
    exact ⟨w', hw, hm'⟩
  | error halt m' =>
    rw [hrun] at hkeeps
    exact hkeeps.1

theorem ok (h : I.Keeps w c r Q) (hm : I.machine w m) (hc : m.current = c) {a : α}
    (hrun : r m = .ok a m') : ∃ w', I.grows w w' ∧ I.machine w' m' ∧ Q w' a := by
  have hkeeps := h m hm hc
  rw [hrun] at hkeeps
  exact hkeeps.2

theorem error (h : I.Keeps w c r Q) (hm : I.machine w m) (hc : m.current = c) {halt : Halt}
    (hrun : r m = .error halt m') : I.halt halt := by
  have hkeeps := h m hm hc
  rw [hrun] at hkeeps
  exact hkeeps.2

end Keeps

/-- Nothing needs to be known of a value that is not a function. -/
theorem value_of_ne {v : Value} (h : ∀ f, v ≠ .function f) : I.value w v :=
  fun f hf => absurd hf (h f)

@[simp] theorem completion_normal : I.completion w .normal := by
  rintro v ⟨⟩

@[simp] theorem completion_returned {v : Value} : I.completion w (.returned v) ↔ I.value w v := by
  constructor
  · exact fun h => h v rfl
  · rintro h _ ⟨⟩
    exact h

theorem value_result {completion : Completion} (h : I.completion w completion) :
    I.value w completion.result := by
  cases completion with
  | normal => exact value_of_ne (by simp [Completion.result])
  | returned v => exact completion_returned.1 h

namespace Kept

variable {r : Run α} {f : α → Run β} {Q Q' : W → α → Prop} {T : W → β → Prop}

theorem value_mono (hI : I.Kept) (h : I.grows w w') {v : Value} (hv : I.value w v) :
    I.value w' v :=
  fun f hf => hI.closure_mono h (hv f hf)

theorem keeps_pure (hI : I.Kept) {a : α} (h : Q w a) : I.Keeps w c (Pure.pure a) Q :=
  fun _ hm hc => ⟨hc, w, hI.refl w, hm, h⟩

theorem keeps_throw (hI : I.Kept) {halt : Halt} (h : I.halt halt) :
    I.Keeps w c (MonadExcept.throw halt) Q :=
  fun _ hm _ => ⟨⟨w, hI.refl w, hm⟩, h⟩

theorem keeps_fail (hI : I.Kept) {token : Token} {cause : RuntimeCause}
    (h : I.halt (.failed ⟨token, cause⟩)) : I.Keeps w c (Run.fail token cause) Q :=
  hI.keeps_throw h

theorem keeps_bind (hI : I.Kept) (hr : I.Keeps w c r Q)
    (hf : ∀ a w', I.grows w w' → Q w' a → I.Keeps w' c (f a) T) : I.Keeps w c (r >>= f) T := by
  intro m hm hc
  have hfirst := hr m hm hc
  rw [Step.bind_apply]
  cases hrun : r m with
  | ok a m' =>
    rw [hrun] at hfirst
    obtain ⟨hc', w', hw, hm', ha⟩ := hfirst
    have hsecond := hf a w' hw ha m' hm' hc'
    dsimp only
    cases hrun' : f a m' with
    | ok b m'' =>
      rw [hrun'] at hsecond
      obtain ⟨hc'', w'', hw', hm'', hb⟩ := hsecond
      exact ⟨hc'', w'', hI.trans hw hw', hm'', hb⟩
    | error halt m'' =>
      rw [hrun'] at hsecond
      obtain ⟨⟨w'', hw', hm''⟩, hhalt⟩ := hsecond
      exact ⟨⟨w'', hI.trans hw hw', hm''⟩, hhalt⟩
  | error halt m' =>
    rw [hrun] at hfirst
    exact hfirst

theorem keeps_get (hI : I.Kept) {name : Token} (hc : I.seen w c) (hname : I.node (.variable name)) :
    I.Keeps w c (Run.get name) I.value := by
  rintro m hm rfl
  unfold Run.get
  cases hget : m.store.get? m.current name.lexeme with
  | some v =>
    refine ⟨rfl, w, hI.refl w, hm, ?_⟩
    rintro f rfl
    exact hI.get hm hc hget
  | none => exact ⟨⟨w, hI.refl w, hm⟩, hI.unbound hname⟩

theorem keeps_assign (hI : I.Kept) {name : Token} {e : Expr} {v : Value} (hc : I.seen w c)
    (hname : I.node (.assign name e)) (hv : I.value w v) :
    I.Keeps w c (Run.assign name v) fun _ _ => True := by
  rintro m hm rfl
  unfold Run.assign
  cases hresolve : m.store.resolve name.lexeme m.current with
  | some owner => exact ⟨rfl, w, hI.refl w, hI.assign hm hc hresolve hv, trivial⟩
  | none => exact ⟨⟨w, hI.refl w, hm⟩, hI.unboundTarget hname⟩

theorem keeps_define (hI : I.Kept) {name : Token} {v : Value} (hc : I.owned w c)
    (hv : I.value w v) : I.Keeps w c (Run.define name v) fun _ _ => True := by
  rintro m hm rfl
  exact ⟨rfl, w, hI.refl w, hI.define hm hc hv, trivial⟩

theorem keeps_makeFunction (hI : I.Kept) {name : Token} {params : List Token} {body : List Stmt}
    (hc : I.owned w c) (hbody : ∀ s ∈ body, I.statement s) :
    I.Keeps w c (Run.makeFunction name params body) I.value := by
  rintro m hm rfl
  obtain ⟨w', hw, hm', hf⟩ : ∃ w', I.grows w w' ∧
      I.machine w' { m with functions := m.functions + 1 } ∧
      I.closure w' ⟨m.functions, name, params, body, m.current⟩ := hI.makeFunction hm hc hbody
  refine ⟨rfl, w', hw, hm', ?_⟩
  rintro f ⟨⟩
  exact hf

theorem keeps_print (hI : I.Kept) {text : String} : I.Keeps w c (Run.print text) fun _ _ => True :=
  fun _ hm hc => ⟨hc, w, hI.refl w, hI.print hm, trivial⟩

theorem keeps_readClock (hI : I.Kept) : I.Keeps w c Run.readClock I.value :=
  fun _ hm hc => ⟨hc, w, hI.refl w, hI.readClock hm, value_of_ne (by simp)⟩

theorem keeps_inScope (hI : I.Kept) {bindings : List (String × Value)} {enclosing : ScopeId}
    (henclosing : I.seen w enclosing) (hbindings : ∀ b ∈ bindings, I.value w b.2)
    (hr : ∀ w' id, I.grows w w' → I.owned w' id → I.Keeps w' id r Q) :
    I.Keeps w c (Run.inScope bindings enclosing r) Q := by
  rintro m hm rfl
  obtain ⟨w', hw, howned, hopened⟩ := hI.openScope hm henclosing hbindings
  have hbody := hr w' _ hw howned _ hopened rfl
  unfold Run.inScope
  dsimp only [Store.openScope] at hbody ⊢
  cases hrun : r { m with
      store := ⟨m.store.scopes.push ⟨bindings, some enclosing⟩⟩
      current := m.store.scopes.size } with
  | ok a m' =>
    rw [hrun] at hbody
    obtain ⟨-, w'', hw', hm', ha⟩ := hbody
    exact ⟨rfl, w'', hI.trans hw hw', hI.leave hm', ha⟩
  | error halt m' =>
    rw [hrun] at hbody
    obtain ⟨⟨w'', hw', hm'⟩, hhalt⟩ := hbody
    exact ⟨⟨w'', hI.trans hw hw', hI.leave hm'⟩, hhalt⟩

theorem keeps_inBlock (hI : I.Kept) (hc : I.seen w c)
    (hr : ∀ w' id, I.grows w w' → I.owned w' id → I.Keeps w' id r Q) :
    I.Keeps w c (Run.inBlock r) Q := by
  rintro m hm rfl
  exact hI.keeps_inScope hc (by simp) hr m hm rfl

theorem keeps_inFrames (hI : I.Kept) {room : Room} {count : Nat} {body : Room → Run α}
    (h : ∀ room, I.Keeps w c (body room) Q) : I.Keeps w c (Run.inFrames room count body) Q := by
  unfold Run.inFrames Room.nested
  split
  · exact h _
  · exact hI.keeps_throw hI.recursion

theorem keeps_overflowing {paren : Token} (hr : I.Keeps w c r Q)
    (hhalt : I.halt (.failed ⟨paren, .stackOverflow⟩)) :
    I.Keeps w c (Run.overflowing paren r) Q := by
  intro m hm hc
  have hbody := hr m hm hc
  unfold Run.overflowing
  cases hrun : r m with
  | ok a m' =>
    rw [hrun] at hbody
    exact hbody
  | error halt m' =>
    rw [hrun] at hbody
    cases halt with
    | recursion => exact ⟨hbody.1, hhalt⟩
    | failed e => exact hbody
    | unsupported op => exact hbody
    | exhausted => exact hbody

end Kept

end Invariant
end Lox
