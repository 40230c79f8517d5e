import LoxInterpreter.Proofs.Grammar.Trees
import LoxInterpreter.Proofs.Runtime.PerformedRuns

/-!
What the names in a function mean. No declaration is bound to its uses ahead of a run: whenever the
function is called, its names are looked for from the scope on that it was declared in. So a name
means at each call the scope that it meant when the function was declared, as long as it was not
declared since in a scope that is nearer to the function. If it was, it means the nearest such
scope.
-/

namespace Lox

/-- The parameters are the only names that a call begins with. -/
theorem lookup_parameterBindings {params : List Token} {name : String}
    (h : name ∉ params.map Token.lexeme) (args : List Value) :
    (parameterBindings params args).lookup name = none := by
  have hfold (pairs : List (Token × Value)) (hpairs : ∀ p ∈ pairs, name ≠ p.1.lexeme)
      (bindings : List (String × Value)) :
      (pairs.foldl (fun bindings p => bind p.1.lexeme p.2 bindings) bindings).lookup name =
        bindings.lookup name := by
    induction pairs generalizing bindings with
    | nil => rfl
    | cons p pairs ih =>
      rw [List.foldl_cons, ih fun p hp => hpairs p (List.mem_cons_of_mem _ hp)]
      exact lookup_bind_of_ne (hpairs p List.mem_cons_self) p.2 bindings
  refine hfold (params.zip args) (fun p hp heq => h ?_) []
  exact heq ▸ List.mem_map_of_mem (List.of_mem_zip hp).1

namespace Linked

variable {m₀ m : Machine} {k : Moment} {f : Closure} {between later : List Moment} {name : String}
  {owner : ScopeId}

/-- Up to a later moment, and with it, all names that were added were declared. -/
theorem grown_at (h : Linked m₀ (between ++ k :: later) m) : m₀.store.Grown
    (fun name id => between.any (·.declares name id) || k.declares name id) k.machine.store := by
  obtain ⟨m₁, hbetween, hk, -⟩ := h.of_append
  exact hbetween.grown.trans hk.grown

/-- The body of a function begins in a new scope, from which all other names than the parameters are
looked for in the scope of the function. -/
theorem resolve_body (h : Linked m₀ (between ++ k :: later) m) (hf : k.happening = .called f)
    (hparams : name ∉ f.params.map Token.lexeme)
    (hresolve : m₀.store.resolve name f.scope = some owner) :
    k.machine.store.resolve name k.machine.current =
      k.machine.store.resolve name f.scope := by
  obtain ⟨owner', howner'⟩ := h.grown_at.exists_resolve hresolve
  obtain ⟨m₁, hbetween, hk, -⟩ := h.of_append
  obtain ⟨hnew, args, hscope⟩ := hk.body hf
  have hlt : f.scope < k.machine.current := calc
    f.scope < m₀.store.scopes.size := Store.lt_size_of_resolve hresolve
    _ ≤ m₁.store.scopes.size := hbetween.grown.size_le
    _ ≤ k.machine.current := hnew
  rw [howner']
  exact Store.resolve_of_enclosing hscope (lookup_parameterBindings hparams args) rfl hlt howner'

end Linked

/-- A function that was made and is called later sees each name other than its parameters in the
nearest scope, from its own scope outwards, among the one that bound the name when the function was
declared and those in which the name was declared since. So it sees the same scope as then if since
then the name was not declared in a nearer one. -/
theorem closures_resolve_outwards (programs : List (Limits × List Stmt)) (m : Machine)
    {f : Closure} {m₀ m₁ : Machine} {earlier between later : List Moment}
    (hmoments : m.moments programs =
      earlier ++ ⟨.made f, m₀⟩ :: (between ++ ⟨.called f, m₁⟩ :: later))
    {name : String} (hparams : name ∉ f.params.map Token.lexeme) {owner : ScopeId}
    (howner : m₀.store.resolve name f.scope = some owner) :
    m₁.store.resolve name m₁.current = ((m₀.store.outwards f.scope).find? fun id =>
        id == owner || between.any (·.declares name id)) ∧
      ((∀ k ∈ between, ∀ id ∈ (m₀.store.outwards f.scope).takeWhile (· != owner),
          k.declares name id = false) →
        m₁.store.resolve name m₁.current = some owner) := by
  have hlinked := m.linked_moments programs
  rw [hmoments] at hlinked
  obtain ⟨-, -, -, hrest⟩ := hlinked.of_append
  have hgrown : m₀.store.Grown (fun name id => between.any (·.declares name id)) m₁.store := by
    simpa [Moment.declares] using hrest.grown_at
  rw [hrest.resolve_body rfl hparams howner]
  refine ⟨hgrown.resolve_eq howner, fun hnearer => ?_⟩
  refine hgrown.resolve_eq_of_none_nearer howner fun id hid => ?_
  rw [List.any_eq_false]
  exact fun k hk => Bool.eq_false_iff.1 (hnearer k hk id hid)

/-- A function is called twice. Before the first call its name is declared again in the scope that
it is called from, and before the second one in the scope that the function was declared in. -/
def redeclaringText : String :=
  "var a=\"out\";\x7bfun f()\x7bprint a;\x7d\x7bvar a;f();\x7dvar a=\"in\";f();\x7d"

def redeclaringName (name : String) (column : Nat) : Token :=
  ⟨.identifier, name, .nil, 1, some column⟩

def redeclaringTokens : List Token :=
  [⟨.keyword .varWord, "var", .nil, 1, some 0⟩, redeclaringName "a" 4,
    ⟨.equal, "=", .nil, 1, some 5⟩, ⟨.string, "\"out\"", .string "out", 1, some 6⟩,
    ⟨.semicolon, ";", .nil, 1, some 11⟩, ⟨.leftBrace, "\x7b", .nil, 1, some 12⟩,
    ⟨.keyword .funWord, "fun", .nil, 1, some 13⟩, redeclaringName "f" 17,
    ⟨.leftParen, "(", .nil, 1, some 18⟩, ⟨.rightParen, ")", .nil, 1, some 19⟩,
    ⟨.leftBrace, "\x7b", .nil, 1, some 20⟩, ⟨.keyword .printWord, "print", .nil, 1, some 21⟩,
    redeclaringName "a" 27, ⟨.semicolon, ";", .nil, 1, some 28⟩,
    ⟨.rightBrace, "\x7d", .nil, 1, some 29⟩, ⟨.leftBrace, "\x7b", .nil, 1, some 30⟩,
    ⟨.keyword .varWord, "var", .nil, 1, some 31⟩, redeclaringName "a" 35,
    ⟨.semicolon, ";", .nil, 1, some 36⟩, redeclaringName "f" 37,
    ⟨.leftParen, "(", .nil, 1, some 38⟩, ⟨.rightParen, ")", .nil, 1, some 39⟩,
    ⟨.semicolon, ";", .nil, 1, some 40⟩, ⟨.rightBrace, "\x7d", .nil, 1, some 41⟩,
    ⟨.keyword .varWord, "var", .nil, 1, some 42⟩, redeclaringName "a" 46,
    ⟨.equal, "=", .nil, 1, some 47⟩, ⟨.string, "\"in\"", .string "in", 1, some 48⟩,
    ⟨.semicolon, ";", .nil, 1, some 52⟩, redeclaringName "f" 53,
    ⟨.leftParen, "(", .nil, 1, some 54⟩, ⟨.rightParen, ")", .nil, 1, some 55⟩,
    ⟨.semicolon, ";", .nil, 1, some 56⟩, ⟨.rightBrace, "\x7d", .nil, 1, some 57⟩,
    ⟨.eof, "", .nil, 1, some 58⟩]

def redeclaringCall (column : Nat) : Stmt :=
  .expression (.call (.variable (redeclaringName "f" column))
    ⟨.rightParen, ")", .nil, 1, some (column + 2)⟩ [])

def redeclaringClosure : Closure :=
  ⟨0, redeclaringName "f" 17, [], [.print (.variable (redeclaringName "a" 27))], 1⟩

def redeclaringProgram : List Stmt :=
  [.var (redeclaringName "a" 4) (some (.literal (.string "out"))),
    .block [.function redeclaringClosure.name redeclaringClosure.params redeclaringClosure.body,
      .block [.var (redeclaringName "a" 35) none, redeclaringCall 37],
      .var (redeclaringName "a" 46) (some (.literal (.string "in"))), redeclaringCall 53]]

theorem scan_redeclaring : scan redeclaringText 1 = .ok redeclaringTokens := by
  cbv

def redeclaring : CleanSource :=
  ⟨redeclaringText, 1, redeclaringTokens, scan_redeclaring, by decide +kernel⟩

theorem program_redeclaring : redeclaring.program = redeclaringProgram := by
  cbv

/-- A machine while the program runs. The scope of the function has the names `around` besides the
function itself, and `inner` are the scopes that were opened in it. -/
def redeclaringMachine (current : ScopeId) (printed : Array String)
    (around : List (String × Value)) (inner : List Scope) : Machine where
  store := ⟨(⟨[("clock", .clock), ("a", .string "out")], none⟩ ::
    ⟨("f", .function redeclaringClosure) :: around, some 0⟩ :: inner).toArray⟩
  current := current
  printed := printed
  functions := 1
  clock := fun _ => 0
  readings := 0

def redeclaringMoments : List Moment :=
  let block : Scope := ⟨[("a", .nil)], some 1⟩
  let body : Scope := ⟨[], some 1⟩
  let start : Machine := .start fun _ => 0
  [⟨.declared "a", { start with store := start.store.define 0 "a" (.string "out") }⟩,
    ⟨.declared "f", redeclaringMachine 1 #[] [] []⟩,
    ⟨.made redeclaringClosure, redeclaringMachine 1 #[] [] []⟩,
    ⟨.declared "a", redeclaringMachine 2 #[] [] [block]⟩,
    ⟨.called redeclaringClosure, redeclaringMachine 3 #[] [] [block, body]⟩,
    ⟨.declared "a", redeclaringMachine 1 #["out"] [("a", .string "in")] [block, body]⟩,
    ⟨.called redeclaringClosure,
      redeclaringMachine 4 #["out"] [("a", .string "in")] [block, body, body]⟩]

theorem moments_redeclaring :
    (Machine.start fun _ => 0).moments [(.standard, redeclaring.program)] = redeclaringMoments := by
  rw [program_redeclaring]
  simp [redeclaringProgram, redeclaringCall, redeclaringName, redeclaringMoments,
    redeclaringMachine, redeclaringClosure, Machine.moments, Trace.executeProgram, Trace.execute,
    Trace.executeAll, Trace.evaluate, Trace.evaluateAll, Trace.call, Trace.andThen, Trace.inBlock,
    Trace.inCall, Trace.inFrames, Trace.declaration, Trace.functionDeclaration, Trace.opened,
    Trace.quiet, Run.execute, Run.executeAll, Run.evaluate, Run.evaluateAll, Run.call, Run.after,
    Run.define, Run.get, Run.print, Run.makeFunction, Run.inBlock, Run.inScope, Run.inFrames,
    Run.overflowing, Room.nested, Step.bind_apply, Step.map_apply, Machine.start, Limits.standard,
    Store.initial, Store.globals, Store.define, Store.openScope, Store.get?, Store.resolve,
    Store.nearest, Scope.define, Scope.find?, bind, parameterBindings, List.lookup_cons,
    Value.arity?, Value.ofLiteral, Value.text]

/-- Before the first call the name was declared again, but not around the function, so that the
function sees the scope that it saw. -/
theorem closures_resolve_outwards_redeclaring :
    ∃ (m₀ m₁ : Machine) (earlier between later : List Moment),
      (Machine.start fun _ => 0).moments [(.standard, redeclaring.program)] =
        earlier ++ ⟨.made redeclaringClosure, m₀⟩ ::
          (between ++ ⟨.called redeclaringClosure, m₁⟩ :: later) ∧
      between.map Moment.happening = [.declared "a"] ∧
      m₀.store.resolve "a" redeclaringClosure.scope = some 0 ∧
      m₁.store.resolve "a" m₁.current = some 0 := by
  have hmoments : (Machine.start fun _ => 0).moments [(.standard, redeclaring.program)] =
      [_, _] ++ ⟨.made redeclaringClosure, _⟩ ::
        ([_] ++ ⟨.called redeclaringClosure, _⟩ :: [_, _]) := moments_redeclaring
  refine ⟨_, _, _, _, _, hmoments, rfl, rfl, ?_⟩
  refine (closures_resolve_outwards _ _ hmoments (by decide) rfl).2 ?_
  decide

/-- A declaration can change which scope a function sees. The name `a` that the function uses is
bound in the global scope when the function is declared, and at its second call it means the scope
that the function was declared in, where it is bound since. -/
theorem declaration_changes_scope_seen :
    redeclaring.text =
        "var a=\"out\";\x7bfun f()\x7bprint a;\x7d\x7bvar a;f();\x7dvar a=\"in\";f();\x7d" ∧
      (Expr.variable (redeclaringName "a" 27)).In redeclaringClosure.body ∧
      redeclaringClosure.params = [] ∧
      ∃ (m₀ m₁ : Machine) (earlier between : List Moment),
        (Machine.start fun _ => 0).moments [(.standard, redeclaring.program)] =
          earlier ++ ⟨.made redeclaringClosure, m₀⟩ ::
            (between ++ [⟨.called redeclaringClosure, m₁⟩]) ∧
        m₀.store.resolve "a" redeclaringClosure.scope = some 0 ∧
        m₁.store.resolve "a" m₁.current = some 1 := by
  refine ⟨rfl, ?_, rfl, ?_⟩
  · exact ⟨_, List.mem_cons_self, _, .self, _, List.mem_cons_self, .self⟩
  · exact ⟨_, _, [_, _], [_, _, _], moments_redeclaring, rfl, rfl⟩

end Lox
