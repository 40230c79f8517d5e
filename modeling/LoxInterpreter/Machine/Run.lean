import LoxInterpreter.Machine.Operators

/-!
Running programs: the value of an expression, the effect of a statement. Every run is bounded
by its `fuel`, which all recursion uses up, and by the room for what stands inside something
else. Calls inside calls use up the calls that are allowed, and whatever is evaluated or executed
takes frames of the host. When a call has too little room, it fails with a stack overflow. Where
the frames run out outside of all calls, the host itself gives up.
-/

namespace Lox

/-- How a statement ends if nothing goes wrong. -/
inductive Completion
  | normal
  /-- A return statement is on its way to the call that it ends. -/
  | returned (v : Value)

def Completion.result : Completion → Value
  | normal => .nil
  | returned v => v

/-- The bindings that a call begins with: each parameter has its argument, and of two
parameters with one name the last counts. -/
def parameterBindings (params : List Token) (args : List Value) : List (String × Value) :=
  (params.zip args).foldl (fun bindings (p, v) => bind p.lexeme v bindings) []

/-- The room that is left inside of what a run does. -/
structure Room where
  /-- How many calls may be inside each other. -/
  depth : Nat
  /-- How many frames the host has for everything that is inside something else. -/
  frames : Nat
  deriving DecidableEq, Repr

/-- What comes of something that takes some frames, and of `full` if there are not so many. -/
def Room.nested {γ : Type} (room : Room) (count : Nat) (full : γ) (body : Room → γ) : γ :=
  if count ≤ room.frames then body { room with frames := room.frames - count } else full

/-- What holds of both that can come of something holds of what comes of it. -/
theorem Room.nested_induction {γ : Type} {P : γ → Prop} {room : Room} {count : Nat} {full : γ}
    {body : Room → γ} (hfull : P full) (hbody : ∀ room, P (body room)) :
    P (room.nested count full body) := by
  unfold nested
  split
  · exact hbody _
  · exact hfull

/-- In the same room, the same of two that can come of something comes of it. -/
theorem Room.nested_induction₂ {γ δ : Type} {P : γ → δ → Prop} {room : Room} {count : Nat}
    {full : γ} {full' : δ} {body : Room → γ} {body' : Room → δ} (hfull : P full full')
    (hbody : ∀ room, P (body room) (body' room)) :
    P (room.nested count full body) (room.nested count full' body') := by
  unfold nested
  split
  · exact hbody _
  · exact hfull

namespace Run

def inFrames {α : Type} (room : Room) (count : Nat) (body : Room → Run α) : Run α :=
  room.nested count (throw .recursion) body

theorem inFrames_of_le {α : Type} {room : Room} {count : Nat} (h : count ≤ room.frames)
    (body : Room → Run α) :
    inFrames room count body = body { room with frames := room.frames - count } := if_pos h

theorem inFrames_of_lt {α : Type} {room : Room} {count : Nat} (h : room.frames < count)
    (body : Room → Run α) : inFrames room count body = throw .recursion :=
  if_neg (Nat.not_le.2 h)

/-- Frames inside frames are taken together. -/
theorem inFrames_inFrames {α : Type} (room : Room) (count count' : Nat) (body : Room → Run α) :
    inFrames room count (fun room => inFrames room count' body) =
      inFrames room (count + count') body := by
  rcases Nat.lt_or_ge room.frames count with h | h
  · rw [inFrames_of_lt h, inFrames_of_lt (by omega)]
  rw [inFrames_of_le h]
  rcases Nat.lt_or_ge room.frames (count + count') with h' | h'
  · rw [inFrames_of_lt h', inFrames_of_lt]
    exact Nat.sub_lt_left_of_lt_add h h'
  · rw [inFrames_of_le h', inFrames_of_le, Nat.sub_sub]
    exact Nat.le_sub_of_add_le' h'

theorem inFrames_bind {α β : Type} (room : Room) (count : Nat) (body : Room → Run α)
    (f : α → Run β) :
    inFrames room count body >>= f = inFrames room count fun room => body room >>= f := by
  unfold inFrames Room.nested
  split <;> rfl

/-- Runs what a call consists of. If the host gives up meanwhile, the call fails. -/
def overflowing {α : Type} (paren : Token) (body : Run α) : Run α := fun m =>
  match body m with
  | .error .recursion m => .error (.failed ⟨paren, .stackOverflow⟩) m
  | result => result

theorem overflowing_of_ok {α : Type} {body : Run α} {m m' : Machine} {a : α}
    (h : body m = .ok a m') (paren : Token) : overflowing paren body m = .ok a m' := by
  rw [overflowing, h]

theorem overflowing_of_recursion {α : Type} {body : Run α} {m m' : Machine}
    (h : body m = .error .recursion m') (paren : Token) :
    overflowing paren body m = .error (.failed ⟨paren, .stackOverflow⟩) m' := by
  rw [overflowing, h]

theorem overflowing_of_error {α : Type} {body : Run α} {m m' : Machine} {halt : Halt}
    (h : body m = .error halt m') (hhalt : halt ≠ .recursion) (paren : Token) :
    overflowing paren body m = .error halt m' := by
  rw [overflowing, h]
  cases halt with
  | recursion => exact absurd rfl hhalt
  | failed e => rfl
  | unsupported op => rfl
  | exhausted => rfl

mutual

/-- The value of an expression. Operands and arguments are evaluated from left to right. -/
def evaluate : Nat → Room → Expr → Run Value
  | 0, _, _ => throw .exhausted
  | fuel + 1, room, e => inFrames room 1 fun room =>
    match e with
    | .literal v => pure (.ofLiteral v)
    | .grouping inner => evaluate fuel room inner
    | .unary op right => do
      let v ← evaluate fuel room right
      ofOperator op (v.unary op.kind)
    | .binary left op right => do
      let v ← evaluate fuel room left
      let w ← evaluate fuel room right
      ofOperator op (v.binary op.kind w)
    | .logical left op right => do
      let v ← evaluate fuel room left
      if v.decides op.kind then return v else evaluate fuel room right
    | .variable name => get name
    | .assign name value => do
      let v ← evaluate fuel room value
      assign name v
      return v
    | .call callee paren arguments => do
      let f ← evaluate fuel room callee
      let args ← evaluateAll fuel room arguments
      call fuel room f paren args
termination_by structural fuel => fuel

def evaluateAll : Nat → Room → List Expr → Run (List Value)
  | 0, _, _ => throw .exhausted
  | _ + 1, _, [] => return []
  | fuel + 1, room, e :: es => do
    let v ← evaluate fuel room e
    let vs ← evaluateAll fuel room es
    return v :: vs
termination_by structural fuel => fuel

/-- Calls a value with arguments. What is wrong with the call is located at its closing
parenthesis. -/
def call : Nat → Room → Value → Token → List Value → Run Value
  | 0, _, _, _, _ => throw .exhausted
  | fuel + 1, room, f, paren, args => inFrames room 1 fun room =>
    match f.arity? with
    | none => fail paren .notCallable
    | some n =>
      if args.length ≠ n then fail paren (.wrongArity n args.length)
      else
        match f with
        | .function f =>
          match room.depth with
          | 0 => fail paren .stackOverflow
          | depth + 1 => overflowing paren <| inFrames { room with depth } 2 fun room => do
            let completion ← inScope (parameterBindings f.params args) f.scope
              (executeAll fuel room f.body)
            return completion.result
        | _ => overflowing paren <| inFrames room 2 fun _ => readClock
termination_by structural fuel => fuel

def execute : Nat → Room → Stmt → Run Completion
  | 0, _, _ => throw .exhausted
  | fuel + 1, room, s => inFrames room 1 fun room =>
    match s with
    | .expression e => do
      let _ ← evaluate fuel room e
      return .normal
    | .print e => do
      let v ← evaluate fuel room e
      print v.text
      return .normal
    | .var name none => do
      define name .nil
      return .normal
    | .var name (some e) => do
      let v ← evaluate fuel room e
      define name v
      return .normal
    | .block body => inFrames room 1 fun room => inBlock (executeAll fuel room body)
    | .conditional condition thenBranch elseBranch => do
      let v ← evaluate fuel room condition
      if v.isTruthy then execute fuel room thenBranch
      else
        match elseBranch with
        | some s => execute fuel room s
        | none => return .normal
    | .loop condition body => repeatWhile fuel room condition body
    | .function name params body => do
      let f ← makeFunction name params body
      define name f
      return .normal
    | .result _ none => return .returned .nil
    | .result _ (some e) => do
      let v ← evaluate fuel room e
      return .returned v
termination_by structural fuel => fuel

/-- Executes statements in order, up to the first that returns. -/
def executeAll : Nat → Room → List Stmt → Run Completion
  | 0, _, _ => throw .exhausted
  | _ + 1, _, [] => return .normal
  | fuel + 1, room, s :: ss => do
    match ← execute fuel room s with
    | .normal => executeAll fuel room ss
    | .returned v => return .returned v
termination_by structural fuel => fuel

def repeatWhile : Nat → Room → Expr → Stmt → Run Completion
  | 0, _, _, _ => throw .exhausted
  | fuel + 1, room, condition, body => do
    let v ← evaluate fuel room condition
    if v.isTruthy then
      match ← execute fuel room body with
      | .normal => repeatWhile fuel room condition body
      | .returned v => return .returned v
    else
      return .normal
termination_by structural fuel => fuel

end

def executeProgram (fuel : Nat) (room : Room) : List Stmt → Run Unit
  | [] => return ()
  | s :: ss => do
    let _ ← execute fuel room s
    executeProgram fuel room ss

end Run

structure Limits where
  /-- How deep the recursion of a run may go, loops included. -/
  fuel : Nat
  /-- The room for calls and all else that is nested. -/
  calls : Room
  deriving DecidableEq, Repr

/-- No run that ends in a lifetime uses up this fuel, and nothing but the frames of the host bounds
how many calls are nested. -/
def Limits.standard : Limits := ⟨Nat.pow 2 60, Nat.pow 2 60, 10000⟩

/-- Runs a program. Gives the machine as it is left behind, and what stopped the program if
something did. -/
def Machine.run (limits : Limits) (program : List Stmt) (m : Machine) : Option Halt × Machine :=
  match Run.executeProgram limits.fuel limits.calls program m with
  | .ok _ m => (none, m)
  | .error halt m => (some halt, m)

end Lox
