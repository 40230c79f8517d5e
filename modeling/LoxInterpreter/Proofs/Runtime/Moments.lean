import LoxInterpreter.Proofs.Runtime.CurrentScope
import LoxInterpreter.Proofs.Runtime.Growth

/-!
The moments of a run that bear on what names mean: a declaration has bound a name, a declaration
has made a function, a call begins. A trace lists them in their order, each with the machine as it
is then. The trace of a part of a run is put together from the traces of its parts, and the machines
between them are those that the parts leave behind.

From one moment to the next, scopes are opened and values change, but the only name that a scope can
get is the one that is declared. Moments that are linked in this way say which names the scopes got
in between.
-/

namespace Lox

inductive Happening
  /-- A declaration has bound this name in the current scope. -/
  | declared (name : String)
  /-- A declaration has made this function. -/
  | made (f : Closure)
  /-- The body of this function begins, with the current scope as its own. -/
  | called (f : Closure)

/-- What happens, and the machine as it is then. -/
structure Moment where
  happening : Happening
  machine : Machine

/-- Whether a name is bound in a scope at this moment by a declaration. -/
def Moment.declares (k : Moment) (name : String) (id : ScopeId) : Bool :=
  match k.happening with
  | .declared declared => declared == name && k.machine.current == id
  | _ => false

abbrev Trace := Machine → List Moment

namespace Trace

variable {α β : Type}

def quiet : Trace := fun _ => []

def andThen (t : Trace) (r : Run α) (next : α → Trace) : Trace := fun m =>
  t m ++ match r m with
    | .ok a m' => next a m'
    | .error _ _ => []

theorem andThen_quiet (t : Trace) (r : Run α) : andThen t r (fun _ => quiet) = t := by
  funext m
  unfold andThen
  cases r m <;> exact List.append_nil _

def declaration (name : Token) (v : Value) : Trace := fun m =>
  [⟨.declared name.lexeme, (Run.define name v).after m⟩]

def functionDeclaration (name : Token) (params : List Token) (body : List Stmt) : Trace := fun m =>
  let f : Closure := ⟨m.functions, name, params, body, m.current⟩
  let m' := (Run.define name (.function f)).after { m with functions := m.functions + 1 }
  [⟨.declared name.lexeme, m'⟩, ⟨.made f, m'⟩]

def opened (bindings : List (String × Value)) (enclosing : ScopeId) (m : Machine) : Machine :=
  { m with
    store := (m.store.openScope bindings (some enclosing)).2
    current := (m.store.openScope bindings (some enclosing)).1 }

def inBlock (t : Trace) : Trace := fun m => t (opened [] m.current m)

def inCall (f : Closure) (args : List Value) (t : Trace) : Trace := fun m =>
  let m' := opened (parameterBindings f.params args) f.scope m
  ⟨.called f, m'⟩ :: t m'

def inFrames (room : Room) (count : Nat) (t : Room → Trace) : Trace := room.nested count quiet t

mutual

def evaluate : Nat → Room → Expr → Trace
  | 0, _, _ => quiet
  | fuel + 1, room, e => inFrames room 1 fun room =>
    match e with
    | .literal _ | .variable _ => quiet
    | .grouping inner => evaluate fuel room inner
    | .unary _ right => evaluate fuel room right
    | .binary left _ right =>
      andThen (evaluate fuel room left) (Run.evaluate fuel room left) fun _ =>
        evaluate fuel room right
    | .logical left op right =>
      andThen (evaluate fuel room left) (Run.evaluate fuel room left) fun v =>
        if v.decides op.kind then quiet else evaluate fuel room right
    | .assign _ value => evaluate fuel room value
    | .call callee _ arguments =>
      andThen (evaluate fuel room callee) (Run.evaluate fuel room callee) fun f =>
        andThen (evaluateAll fuel room arguments) (Run.evaluateAll fuel room arguments)
          fun args => call fuel room f args
termination_by structural fuel => fuel

def evaluateAll : Nat → Room → List Expr → Trace
  | 0, _, _ => quiet
  | _ + 1, _, [] => quiet
  | fuel + 1, room, e :: es =>
    andThen (evaluate fuel room e) (Run.evaluate fuel room e) fun _ => evaluateAll fuel room es
termination_by structural fuel => fuel

def call : Nat → Room → Value → List Value → Trace
  | 0, _, _, _ => quiet
  | fuel + 1, room, f, args => inFrames room 1 fun room =>
    match f with
    | .function f =>
      if args.length ≠ f.params.length then quiet
      else
        match room.depth with
        | 0 => quiet
        | depth + 1 => inFrames { room with depth } 2 fun room =>
          inCall f args (executeAll fuel room f.body)
    | _ => quiet
termination_by structural fuel => fuel

def execute : Nat → Room → Stmt → Trace
  | 0, _, _ => quiet
  | fuel + 1, room, s => inFrames room 1 fun room =>
    match s with
    | .expression e | .print e | .result _ (some e) => evaluate fuel room e
    | .var name none => declaration name .nil
    | .var name (some e) =>
      andThen (evaluate fuel room e) (Run.evaluate fuel room e) fun v => declaration name v
    | .block body => inFrames room 1 fun room => inBlock (executeAll fuel room body)
    | .conditional condition thenBranch elseBranch =>
      andThen (evaluate fuel room condition) (Run.evaluate fuel room condition) fun v =>
        if v.isTruthy then execute fuel room thenBranch
        else
          match elseBranch with
          | some s => execute fuel room s
          | none => quiet
    | .loop condition body => repeatWhile fuel room condition body
    | .function name params body => functionDeclaration name params body
    | .result _ none => quiet
termination_by structural fuel => fuel

def executeAll : Nat → Room → List Stmt → Trace
  | 0, _, _ => quiet
  | _ + 1, _, [] => quiet
  | fuel + 1, room, s :: ss =>
    andThen (execute fuel room s) (Run.execute fuel room s) fun completion =>
      match completion with
      | .normal => executeAll fuel room ss
      | .returned _ => quiet
termination_by structural fuel => fuel

def repeatWhile : Nat → Room → Expr → Stmt → Trace
  | 0, _, _, _ => quiet
  | fuel + 1, room, condition, body =>
    andThen (evaluate fuel room condition) (Run.evaluate fuel room condition) fun v =>
      if v.isTruthy then
        andThen (execute fuel room body) (Run.execute fuel room body) fun completion =>
          match completion with
          | .normal => repeatWhile fuel room condition body
          | .returned _ => quiet
      else quiet
termination_by structural fuel => fuel

end

def executeProgram (fuel : Nat) (room : Room) : List Stmt → Trace
  | [] => quiet
  | s :: ss =>
    andThen (execute fuel room s) (Run.execute fuel room s) fun _ => executeProgram fuel room ss

end Trace

/-- The moments while programs are run one after another, each with its limits, on the machine that
the one before leaves behind. -/
def Machine.moments : List (Limits × List Stmt) → Machine → List Moment
  | [], _ => []
  | (limits, program) :: programs, m =>
    Trace.executeProgram limits.fuel limits.calls program m ++
      moments programs (m.run limits program).2

/-- From the machine `m` to the next moment `k`, no other name is added to a scope than the one that
is declared, and the body of a function begins in a new scope inside the scope of the function,
with the parameters as its names. -/
structure Moment.Next (m : Machine) (k : Moment) : Prop where
  grown : m.store.Grown k.declares k.machine.store
  body {f : Closure} : k.happening = .called f → m.store.scopes.size ≤ k.machine.current ∧
    ∃ args, k.machine.store.scopes[k.machine.current]? =
      some ⟨parameterBindings f.params args, some f.scope⟩

theorem Moment.Next.after_quiet {m m' : Machine} {k : Moment}
    (h : m.store.Grown Store.noNames m'.store) (hk : Next m' k) : Next m k where
  grown := h.quiet_trans hk.grown
  body hf := ⟨Nat.le_trans h.size_le (hk.body hf).1, (hk.body hf).2⟩

def Linked : Machine → List Moment → Machine → Prop
  | m, [], m' => m.store.Grown Store.noNames m'.store
  | m, k :: ks, m' => Moment.Next m k ∧ Linked k.machine ks m'

namespace Linked

variable {m m' m'' : Machine} {ks ks' : List Moment}

theorem quiet_append (h : m.store.Grown Store.noNames m'.store) (hks : Linked m' ks m'') :
    Linked m ks m'' := by
  cases ks with
  | nil => exact h.quiet_trans hks
  | cons k ks => exact ⟨hks.1.after_quiet h, hks.2⟩

theorem append (h : Linked m ks m') (h' : Linked m' ks' m'') : Linked m (ks ++ ks') m'' := by
  induction ks generalizing m with
  | nil => exact h'.quiet_append h
  | cons k ks ih => exact ⟨h.1, ih h.2⟩

theorem append_quiet (h : Linked m ks m') (h' : m'.store.Grown Store.noNames m''.store) :
    Linked m ks m'' := by
  have happend : Linked m (ks ++ []) m'' := h.append h'
  rwa [List.append_nil] at happend

theorem of_append (h : Linked m (ks ++ ks') m'') : ∃ m', Linked m ks m' ∧ Linked m' ks' m'' := by
  induction ks generalizing m with
  | nil => exact ⟨m, .refl m.store, h⟩
  | cons k ks ih =>
    obtain ⟨m', hks, hks'⟩ := ih h.2
    exact ⟨m', ⟨h.1, hks⟩, hks'⟩

/-- All names that were added were declared at one of the moments. -/
theorem grown (h : Linked m ks m') :
    m.store.Grown (fun name id => ks.any (·.declares name id)) m'.store := by
  induction ks generalizing m with
  | nil => exact h
  | cons k ks ih => exact h.1.grown.trans (ih h.2)

end Linked

end Lox
