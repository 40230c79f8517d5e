import LoxInterpreter.Proofs.Number.Equality
import LoxInterpreter.Proofs.Runtime.Frames
import LoxInterpreter.Proofs.Runtime.GlobalScope

/-!
Equality of values. It is symmetric and transitive, and all values but NaN are equal to themselves.
Functions are equal by identity. However often a function is passed on, it stays the one that was
made when its declaration was executed, and the next execution makes another one.
-/

namespace Lox

inductive ValueKind
  | nil
  | bool
  | number
  | string
  | clock
  | function
  deriving DecidableEq

namespace Value

def kind : Value → ValueKind
  | nil => .nil
  | bool _ => .bool
  | number _ => .number
  | string _ => .string
  | clock => .clock
  | function _ => .function

variable {u v w : Value}

theorem kind_eq_of_same (h : v.same w = true) : v.kind = w.kind := by
  unfold same at h
  split at h <;> first | rfl | cases h

theorem same_function_iff {f g : Closure} :
    (function f).same (function g) = true ↔ f.identity = g.identity := beq_iff_eq

theorem same_symm (h : v.same w = true) : w.same v = true := by
  have hkind := kind_eq_of_same h
  cases v <;> cases w <;> cases hkind
  case nil | clock => rfl
  case bool | string | function => exact beq_iff_eq.2 (beq_iff_eq.1 h).symm
  case number => exact beq_symm h

theorem same_trans (h : u.same v = true) (h' : v.same w = true) : u.same w = true := by
  have hkind := kind_eq_of_same h
  have hkind' := kind_eq_of_same h'
  cases u <;> cases v <;> cases hkind <;> cases w <;> cases hkind'
  case nil | clock => rfl
  case bool | string | function =>
    exact beq_iff_eq.2 ((beq_iff_eq.1 h).trans (beq_iff_eq.1 h'))
  case number => exact beq_trans h h'

theorem same_self_iff : v.same v = true ↔ ∀ x, v = .number x → x.isNaN = false := by
  cases v with
  | number x =>
    have hsame : (number x).same (number x) = (x == x) := rfl
    rw [hsame, beq_self_iff]
    refine ⟨?_, fun h => h x rfl⟩
    rintro h _ ⟨⟩
    exact h
  | nil | bool | string | clock | function => simp [same]

end Value

/-! ### Functions -/

namespace Situation

variable {p q : Situation} {f g : Closure} {i j : Nat}

/-- An act makes no function, or it makes one and counts it. -/
theorem Act.made (h : p.Act q) :
    q.made = p.made ∧ q.machine.functions = p.machine.functions ∨
      ∃ f : Closure, q.made = p.made ++ [f] ∧ f.identity = p.machine.functions ∧
        q.machine.functions = p.machine.functions + 1 := by
  cases h with
  | compute | read | assign | print | readClock | enterBlock | leave => exact Or.inl ⟨rfl, rfl⟩
  | declare | enterCall =>
    exact Or.inl ⟨List.filterMap_append.trans (List.append_nil _), rfl⟩
  | declareFunction => exact Or.inr ⟨_, List.filterMap_append, rfl, rfl⟩

theorem Act.made_prefix (h : p.Act q) : p.made <+: q.made := by
  rcases h.made with ⟨hmade, -⟩ | ⟨f, hmade, -⟩
  · exact ⟨[], (List.append_nil _).trans hmade.symm⟩
  · exact ⟨[f], hmade.symm⟩

theorem Leads.made_prefix (h : p.Leads q) : p.made <+: q.made := by
  induction h with
  | refl => exact List.prefix_rfl
  | tail _ hact ih => exact ih.trans hact.made_prefix

/-- The functions that were made are numbered in their order, and no others occur. -/
structure Numbered (p : Situation) : Prop where
  identities : p.made.map Closure.identity = List.range p.machine.functions
  occurs : ∀ f : Closure, p.Occurs (.function f) → f ∈ p.made

namespace Numbered

theorem start (clock : Nat → Float) : (start clock).Numbered :=
  ⟨rfl, fun _ hf => absurd hf (not_occurs_start clock)⟩

theorem act (hp : p.Numbered) (h : p.Act q) : q.Numbered where
  identities := by
    rcases h.made with ⟨hmade, hfunctions⟩ | ⟨f, hmade, hidentity, hfunctions⟩
    · rw [hmade, hfunctions, hp.identities]
    · rw [hmade, hfunctions, List.map_append, hp.identities, List.range_succ, List.map_singleton,
        hidentity]
  occurs f hf := by
    rcases h.occurs_function hf with hf | ⟨hmade, -⟩
    · exact h.made_prefix.subset (hp.occurs f hf)
    · rw [hmade]
      exact List.mem_append_right _ List.mem_cons_self

theorem identity_eq (hp : p.Numbered) (hf : p.made[i]? = some f) : f.identity = i := by
  have hi : (p.made.map Closure.identity)[i]? = some f.identity := by
    rw [List.getElem?_map, hf, Option.map_some]
  rw [hp.identities] at hi
  obtain ⟨_, heq⟩ := List.getElem?_eq_some_iff.1 hi
  exact heq.symm.trans (List.getElem_range _)

theorem identity_lt (hp : p.Numbered) (hf : p.Occurs (.function f)) :
    f.identity < p.machine.functions := by
  have hmem : f.identity ∈ p.made.map Closure.identity := List.mem_map_of_mem (hp.occurs f hf)
  rw [hp.identities] at hmem
  exact List.mem_range.1 hmem

/-- A function that is made next differs from all values that occur. -/
theorem same_next (hp : p.Numbered) {v : Value} (hv : p.Occurs v)
    (hf : f.identity = p.machine.functions) : v.same (.function f) = false := by
  cases hsame : v.same (.function f) with
  | false => rfl
  | true =>
    cases v with
    | function g =>
      have hlt := hp.identity_lt hv
      rw [Value.same_function_iff.1 hsame, hf] at hlt
      exact absurd hlt (Nat.lt_irrefl _)
    | nil | bool | number | string | clock => cases Value.kind_eq_of_same hsame

end Numbered

theorem Reachable.numbered (hp : p.Reachable) : p.Numbered :=
  hp.induction Numbered.start fun _ _ => Numbered.act

def next (p : Situation) (name : Token) (params : List Token) (body : List Stmt) : Closure :=
  ⟨p.machine.functions, name, params, body, p.machine.current⟩

/-- A declaration that is executed makes one function and binds its name to it. -/
theorem exists_execute_function (p : Situation) (fuel depth frames : Nat) (name : Token)
    (params : List Token) (body : List Stmt) : ∃ q : Situation, p.Leads q ∧
      Run.execute (fuel + 1) ⟨depth, frames + 1⟩ (.function name params body) p.machine =
        .ok .normal q.machine ∧
      q.made = p.made ++ [p.next name params body] ∧
      q.machine.store =
        p.machine.store.define p.machine.current name.lexeme
          (.function (p.next name params body)) ∧
      q.machine.current = p.machine.current := by
  refine ⟨_, .act (.declareFunction p name params body), ?_, List.filterMap_append, rfl, rfl⟩
  rw [Run.execute, Run.inFrames_of_le (Nat.le_add_left 1 frames)]
  rfl

end Situation

/-- Equality of values is symmetric and transitive, it relates values of one kind only, and all
values but NaN are equal to themselves. In all situations of a run, the functions that occur are
those that executions of declarations have made, and two of them are equal exactly if the same
execution has made them; what was made stays as it was. The next execution of any declaration makes
a function that differs from all values that occur. The values that an equality operator compares
occur in such a situation, and so does all that programs leave behind. -/
theorem functions_same_as_made :
    (∀ v w : Value, v.same w = true → w.same v = true) ∧
    (∀ u v w : Value, u.same v = true → v.same w = true → u.same w = true) ∧
    (∀ v w : Value, v.same w = true → v.kind = w.kind) ∧
    (∀ v : Value, v.same v = true ↔ ∀ x, v = .number x → x.isNaN = false) ∧
    (∀ p : Situation, p.Reachable →
      (∀ f, p.Occurs (.function f) → f ∈ p.made) ∧
      (∀ (i j : Nat) (f g : Closure), p.made[i]? = some f → p.made[j]? = some g →
        ((Value.function f).same (.function g) = true ↔ i = j)) ∧
      (∀ q, p.Leads q → p.made <+: q.made) ∧
      ∀ fuel depth frames name params body,
        let f := p.next name params body
        (∀ v, p.Occurs v → v.same (.function f) = false) ∧
        ∃ q : Situation, p.Leads q ∧
          Run.execute (fuel + 1) ⟨depth, frames + 1⟩ (.function name params body) p.machine =
            .ok .normal q.machine ∧
          q.made = p.made ++ [f] ∧
          q.machine.store.valueIn name.lexeme q.machine.current = some (.function f)) ∧
    (∀ m m₁ m₂ : Machine, m.Reached → ∀ fuel room left op right v w,
      Run.evaluate fuel room left m = .ok v m₁ → Run.evaluate fuel room right m₁ = .ok w m₂ →
        (op.kind = .equalEqual →
          Run.evaluate (fuel + 1) ⟨room.depth, room.frames + 1⟩ (.binary left op right) m =
            .ok (.bool (v.same w)) m₂) ∧
        ∃ p : Situation, p.Reachable ∧ p.machine = m₂ ∧ p.Occurs v ∧ p.Occurs w) ∧
    ∀ clock programs, ∃ p : Situation, p.Reachable ∧
      p.machine = (Machine.start clock).runAll programs ∧
      p.made = ((Machine.start clock).moments programs).filterMap Moment.made? := by
  refine ⟨fun v w => Value.same_symm, fun u v w => Value.same_trans,
    fun v w => Value.kind_eq_of_same, fun v => Value.same_self_iff, ?_, ?_, ?_⟩
  · intro p hp
    have hnumbered := hp.numbered
    refine ⟨hnumbered.occurs, ?_, fun q => Situation.Leads.made_prefix, ?_⟩
    · intro i j f g hf hg
      rw [Value.same_function_iff, hnumbered.identity_eq hf, hnumbered.identity_eq hg]
    · intro fuel depth frames name params body
      refine ⟨fun v hv => hnumbered.same_next hv rfl, ?_⟩
      obtain ⟨q, hq, hrun, hmade, hstore, hcurrent⟩ :=
        p.exists_execute_function fuel depth frames name params body
      refine ⟨q, hq, hrun, hmade, ?_⟩
      rw [hstore, hcurrent, Store.valueIn_define (hp.rooted.scopes _ List.mem_cons_self)]
      exact if_pos ⟨rfl, rfl⟩
  · intro m m₁ m₂ hm fuel room left op right v w hleft hright
    exact ⟨fun hop => Run.evaluate_equal hop (Nat.succ_pos _) hleft hright,
      hm.exists_of_operands hleft hright⟩
  · intro clock programs
    obtain ⟨q, hq, hmachine, hmoments, -⟩ := (Situation.start clock).exists_runAll programs
    exact ⟨q, ⟨clock, hq⟩, hmachine, congrArg (List.filterMap Moment.made?) hmoments⟩

/-- The function that was kept is copied through a call, and its declaration is executed again. -/
def copyingProgram : List Stmt :=
  escapingProgram ++
    [.function (escapingName "same") [escapingName "x"]
        [.result (escapingName "return") (some (.variable (escapingName "x")))],
      .var (escapingName "copy") (some (.call (.variable (escapingName "same")) (escapingName ")")
        [.variable (escapingName "kept")])),
      .var (escapingName "again")
        (some (.call (.variable (escapingName "outer")) (escapingName ")") []))]

def copyingMachine : Machine := (Machine.start fun _ => 0).runAll [(⟨9, 1, 99⟩, copyingProgram)]

def copyingFunction : Closure := ⟨3, escapingName "inner", [], [], 3⟩

/-- What this run binds and makes. -/
theorem run_copying :
    let made := ((Machine.start fun _ => 0).moments [(⟨9, 1, 99⟩, copyingProgram)]).filterMap
      Moment.made?
    (copyingMachine.store.get? Store.globals "kept" = some (.function escapingFunction) ∧
      copyingMachine.store.get? Store.globals "copy" = some (.function escapingFunction) ∧
      copyingMachine.store.get? Store.globals "again" = some (.function copyingFunction)) ∧
    made[1]? = some escapingFunction ∧ made[3]? = some copyingFunction := by
  simp [copyingMachine, copyingProgram, escapingProgram, escapingName, escapingFunction,
    copyingFunction, Machine.runAll, Machine.run, Machine.moments, Moment.made?,
    Trace.executeProgram, Trace.execute, Trace.executeAll, Trace.evaluate, Trace.evaluateAll,
    Trace.call, Trace.andThen, Trace.inCall, Trace.inFrames, Trace.declaration,
    Trace.functionDeclaration, Trace.opened, Trace.quiet, Run.executeProgram, Run.execute,
    Run.executeAll, Run.evaluate, Run.evaluateAll, Run.call, Run.after, Run.define, Run.get,
    Run.makeFunction, Run.inScope, Run.inFrames, Run.overflowing, Room.nested, Completion.result,
    Step.bind_apply, Step.map_apply, Machine.start, Store.initial, Store.globals, Store.define,
    Store.openScope, Store.get?, Store.resolve, Store.nearest, Scope.define, Scope.find?, bind,
    parameterBindings, List.lookup_cons, List.filterMap_cons, Value.arity?]

/-- The copy is equal to the function, and the function of the second execution differs from it,
although it has the same name, parameters and body. -/
theorem functions_same_as_made_copying :
    let f := Value.function escapingFunction
    let g := Value.function copyingFunction
    (copyingMachine.store.get? Store.globals "kept" = some f ∧
      copyingMachine.store.get? Store.globals "copy" = some f ∧
      copyingMachine.store.get? Store.globals "again" = some g) ∧
    f.same f = true ∧ f.same g = false := by
  intro f g
  obtain ⟨-, -, -, -, hsituations, -, hprograms⟩ := functions_same_as_made
  obtain ⟨p, hp, -, hmade⟩ := hprograms (fun _ => 0) [(⟨9, 1, 99⟩, copyingProgram)]
  obtain ⟨-, hsame, -⟩ := hsituations p hp
  have hfirst : p.made[1]? = some escapingFunction := by
    rw [hmade]
    exact run_copying.2.1
  have hsecond : p.made[3]? = some copyingFunction := by
    rw [hmade]
    exact run_copying.2.2
  refine ⟨run_copying.1, (hsame 1 1 _ _ hfirst hfirst).2 rfl, ?_⟩
  rw [← Bool.not_eq_true, hsame 1 3 _ _ hfirst hsecond]
  decide

end Lox
