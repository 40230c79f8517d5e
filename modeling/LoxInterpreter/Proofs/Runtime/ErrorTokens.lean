import LoxInterpreter.Proofs.Grammar.Trees
import LoxInterpreter.Proofs.Runtime.CallLimit
import LoxInterpreter.Proofs.Runtime.CurrentScope
import LoxInterpreter.Proofs.Runtime.DeepTrees
import LoxInterpreter.Proofs.Runtime.RunsKeep
import LoxInterpreter.Proofs.Runtime.Scopes

/-!
The tokens of runtime errors. All that a machine runs is in the sources that it was given, also the
functions that it kept from earlier ones. The parser puts operators only where they have a meaning,
so that the one thing that can go wrong in a program is an error at a token of one of these sources:
at a name, at an operator, or at the parenthesis that closes a call. Apart from that, the host gives
up where a tree is too deep for its frames.
-/

namespace Lox

open Grammar

def numericOperators : List Kind :=
  [.greater, .greaterEqual, .less, .lessEqual, .minus, .slash, .star]

/-- The errors that an expression can make itself, each with the token that it is located at. -/
inductive Locates : Expr → RuntimeError → Prop
  | variable {name : Token} (hname : name.kind = .identifier) :
      Locates (.variable name) ⟨name, .undefinedVariable name.lexeme⟩
  | target {name : Token} {value : Expr} (hname : name.kind = .identifier) :
      Locates (.assign name value) ⟨name, .undefinedVariable name.lexeme⟩
  | sign {op : Token} {right : Expr} (hop : op.kind = .minus) :
      Locates (.unary op right) ⟨op, .operandNotNumber⟩
  | sum {left right : Expr} {op : Token} (hop : op.kind = .plus) :
      Locates (.binary left op right) ⟨op, .operandsNotAddable⟩
  | numeric {left right : Expr} {op : Token} (hop : op.kind ∈ numericOperators) :
      Locates (.binary left op right) ⟨op, .operandsNotNumbers⟩
  | call {callee : Expr} {paren : Token} {args : List Expr} {cause : RuntimeCause}
      (hparen : paren.kind = .rightParen) (hcause : cause.OfCall) :
      Locates (.call callee paren args) ⟨paren, cause⟩

theorem exists_unfit_of_unary {k : Kind} (hk : k ∈ unaryOperators) {v : Value}
    {fault : OperatorFault} (h : v.unary k = .error fault) :
    k = .minus ∧ fault = .unfit .operandNotNumber := by
  unfold Value.unary at h
  split at h
  · cases h
  next hbang =>
    split at h
    · cases h
    · cases h
      rcases List.mem_cons.1 hk with rfl | hk
      · exact absurd rfl hbang
      · exact ⟨List.mem_singleton.1 hk, rfl⟩

theorem arithmetic_ne_error {k : Kind} (hk : k ∈ numericOperators) {x y : Float}
    {fault : OperatorFault} : arithmetic k x y ≠ .error fault := by
  simp only [numericOperators, List.mem_cons, List.not_mem_nil, or_false] at hk
  rcases hk with rfl | rfl | rfl | rfl | rfl | rfl | rfl <;> simp [arithmetic]

theorem mem_numericOperators {k : Kind} (hk : k ∈ binaryOperators) (hequal : k ≠ .equalEqual)
    (hunequal : k ≠ .bangEqual) (hplus : k ≠ .plus) : k ∈ numericOperators := by
  simpa [binaryOperators, numericOperators, hequal, hunequal, hplus] using hk

theorem exists_unfit_of_binary {k : Kind} (hk : k ∈ binaryOperators) {v v' : Value}
    {fault : OperatorFault} (h : v.binary k v' = .error fault) :
    k = .plus ∧ fault = .unfit .operandsNotAddable ∨
      k ∈ numericOperators ∧ fault = .unfit .operandsNotNumbers := by
  unfold Value.binary at h
  split at h
  · cases h
  · cases h
  · unfold Value.add at h
    split at h <;> cases h
    exact Or.inl ⟨rfl, rfl⟩
  next hequal hunequal hplus =>
    have hnumeric : k ∈ numericOperators := mem_numericOperators hk hequal hunequal hplus
    split at h
    · exact absurd h (arithmetic_ne_error hnumeric)
    · cases h
      exact Or.inr ⟨hnumeric, rfl⟩

def OfSources (sources : List CleanSource) (e : Expr) : Prop :=
  ∃ source ∈ sources, e.In source.program

/-- The error is made by an expression of one of some sources, at a token of the same source. -/
def RuntimeError.LocatedIn (error : RuntimeError) (sources : List CleanSource) : Prop :=
  ∃ source ∈ sources, ∃ e : Expr, e.In source.program ∧ Locates e error ∧
    error.token ∈ source.tokens

/-- A run ends this way only because of an error at a token of one of some sources, or because of
its bounds, which are the fuel and the frames of the host. -/
def Explained (sources : List CleanSource) : Halt → Prop
  | .failed error => error.LocatedIn sources
  | .unsupported _ => False
  | .exhausted => True
  | .recursion => True

theorem CleanSource.madeOf (source : CleanSource) {e : Expr} (h : e.In source.program) :
    MadeOf source.tokens e :=
  (Stmt.every_in source.sound).1 e h

def Closure.OfSources (sources : List CleanSource) (f : Closure) : Prop :=
  ∀ s ∈ f.body, s.Every (Lox.OfSources sources) fun _ => True

def Store.OfSources (sources : List CleanSource) (s : Store) : Prop :=
  s.All fun _ scope => ∀ b ∈ scope.bindings, ∀ f, b.2 = .function f → f.OfSources sources

theorem Store.OfSources.define {sources : List CleanSource} {s : Store}
    (h : s.OfSources sources) {id : ScopeId} {name : String} {v : Value}
    (hv : ∀ f, v = .function f → f.OfSources sources) : (s.define id name v).OfSources sources := by
  refine Store.All.define h fun scope hscope b hb f hf => ?_
  rcases mem_of_mem_bind hb with rfl | hb
  · exact hv f hf
  · exact hscope b hb f hf

/-- What is known of runs of some sources: all code in the machine is theirs. -/
def provenance (sources : List CleanSource) : Invariant Unit where
  grows _ _ := True
  machine _ m := m.store.OfSources sources
  seen _ _ := True
  owned _ _ := True
  closure _ f := f.OfSources sources
  node := OfSources sources
  halt := Explained sources

theorem kept_provenance (sources : List CleanSource) : (provenance sources).Kept where
  refl _ := trivial
  trans _ _ := trivial
  seen_mono _ _ := trivial
  owned_mono _ _ := trivial
  closure_mono _ h := h
  seen_of_owned _ := trivial
  seen_scope _ := trivial
  body h := h
  get hm _ hget := by
    obtain ⟨owner, scope, -, hscope, hmem⟩ := Store.exists_of_get? hget
    exact hm owner scope hscope _ hmem _ rfl
  assign hm _ _ hv := hm.define hv
  define hm _ hv := hm.define hv
  makeFunction hm _ hbody := ⟨(), trivial, hm, hbody⟩
  print hm := hm
  readClock hm := hm
  openScope hm _ hbindings := ⟨(), trivial, trivial, Store.All.openScope hm hbindings⟩
  leave hm := hm
  exhausted := trivial
  recursion := trivial
  unbound := by
    rintro name ⟨source, hsource, he⟩
    obtain ⟨hmem, hkind⟩ := source.madeOf he
    exact ⟨source, hsource, _, he, .variable hkind, hmem⟩
  unboundTarget := by
    rintro name e ⟨source, hsource, he⟩
    obtain ⟨hmem, hkind⟩ := source.madeOf he
    exact ⟨source, hsource, _, he, .target hkind, hmem⟩
  unaryFault := by
    rintro op e v fault ⟨source, hsource, he⟩ hfault
    obtain ⟨hmem, hkind⟩ := source.madeOf he
    obtain ⟨hminus, rfl⟩ := exists_unfit_of_unary hkind hfault
    exact ⟨source, hsource, _, he, .sign hminus, hmem⟩
  binaryFault := by
    rintro op e e' v v' fault ⟨source, hsource, he⟩ hfault
    obtain ⟨hmem, hkind⟩ := source.madeOf he
    rcases exists_unfit_of_binary hkind hfault with ⟨hplus, rfl⟩ | ⟨hnumeric, rfl⟩
    · exact ⟨source, hsource, _, he, .sum hplus, hmem⟩
    · exact ⟨source, hsource, _, he, .numeric hnumeric, hmem⟩
  callFault := by
    rintro e paren args cause ⟨source, hsource, he⟩ hcause
    obtain ⟨hmem, hkind⟩ := source.madeOf he
    exact ⟨source, hsource, _, he, .call hkind hcause, hmem⟩

def Machine.runSources (m : Machine) (history : List (Limits × CleanSource)) : Machine :=
  m.runAll (history.map fun p => (p.1, p.2.program))

section

variable {sources : List CleanSource}

theorem Store.ofSources_initial : Store.initial.OfSources sources := by
  intro id scope hscope b hb f hf
  obtain ⟨h, rfl⟩ := Array.getElem?_eq_some_iff.1 hscope
  cases Nat.lt_one_iff.1 h
  cases List.mem_singleton.1 hb
  cases hf

theorem CleanSource.statement_provenance {source : CleanSource} (h : source ∈ sources) :
    ∀ s ∈ source.program, (provenance sources).statement s :=
  Stmt.every_of_in (fun _ he => ⟨source, h, he⟩) fun _ _ => trivial

theorem Machine.ofSources_run {m : Machine} (hm : m.store.OfSources sources) {source : CleanSource}
    (h : source ∈ sources) (limits : Limits) :
    (m.run limits source.program).2.store.OfSources sources ∧
      ∀ halt, (m.run limits source.program).1 = some halt → Explained sources halt := by
  obtain ⟨⟨_, -, hlater⟩, hhalt⟩ := (kept_provenance sources).run (w := ()) limits hm trivial
    (CleanSource.statement_provenance h)
  exact ⟨hlater, hhalt⟩

theorem Machine.ofSources_runSources {m : Machine} (hm : m.store.OfSources sources)
    {history : List (Limits × CleanSource)} (h : ∀ p ∈ history, p.2 ∈ sources) :
    (m.runSources history).store.OfSources sources := by
  induction history generalizing m with
  | nil => exact hm
  | cons p history ih =>
    obtain ⟨hp, hhistory⟩ := List.forall_mem_cons.1 h
    exact ih (Machine.ofSources_run hm hp p.1).1 hhistory

end

/-- Sources without errors are run one after another, the last of them in some room. It goes on for
ever, or it ends: as it should, with an error of the program, or because the host has too few frames
for one of its statements. In no case an operator is met that has no meaning. An error is located at
a token of one of the sources so far, and this token belongs to the expression that makes the error:
a name that is not defined, an operator that does not fit its operands, or the parenthesis that
closes a call which cannot be made. -/
theorem runtime_errors_located (clock : Nat → Float) (history : List (Limits × CleanSource))
    (room : Room) (source : CleanSource) :
    let m := (Machine.start clock).runSources history
    let sources := history.map Prod.snd ++ [source]
    (∀ e : Expr, e.In source.program → MadeOf source.tokens e) ∧
      (m.GoesOn room source.program ∨ ∃ halt m', m.EndsWith room source.program halt m' ∧
        (halt = none ∨ (∃ error, halt = some (.failed error) ∧ error.LocatedIn sources) ∨
          halt = some .recursion ∧ ∃ statement ∈ source.program, room.frames < statement.frames)) ∧
      ∀ fuel halt, (m.run ⟨fuel, room⟩ source.program).1 = some halt →
        (∀ op, halt ≠ .unsupported op) ∧
        (∀ error, halt = .failed error → error.LocatedIn sources) ∧
        (halt = .recursion → ∃ statement ∈ source.program, room.frames < statement.frames) := by
  intro m sources
  have hhistory : ∀ p ∈ history, p.2 ∈ sources := fun p hp =>
    List.mem_append_left _ (List.mem_map_of_mem hp)
  have hm : m.store.OfSources sources :=
    Machine.ofSources_runSources Store.ofSources_initial hhistory
  have hsource : source ∈ sources := List.mem_append_right _ List.mem_cons_self
  have hhalts (fuel : Nat) (halt : Halt)
      (hhalt : (m.run ⟨fuel, room⟩ source.program).1 = some halt) :
      (∀ op, halt ≠ .unsupported op) ∧
        (∀ error, halt = .failed error → error.LocatedIn sources) ∧
        (halt = .recursion → ∃ statement ∈ source.program, room.frames < statement.frames) := by
    have hexplained := (Machine.ofSources_run hm hsource ⟨fuel, room⟩).2 halt hhalt
    refine ⟨?_, ?_, ?_⟩
    · rintro op rfl
      exact hexplained
    · rintro error rfl
      exact hexplained
    · rintro rfl
      exact Machine.exists_of_run_recursion hhalt
  refine ⟨fun e he => source.madeOf he, ?_, hhalts⟩
  refine (m.goesOn_or_endsWith room source.program).imp_right ?_
  rintro ⟨halt, m', hends⟩
  refine ⟨halt, m', hends, ?_⟩
  obtain ⟨hexhausted, fuel, hrun⟩ := hends
  cases halt with
  | none => exact Or.inl rfl
  | some halt =>
    obtain ⟨hunsupported, hfailed, hrecursion⟩ :=
      hhalts fuel halt (congrArg Prod.fst (hrun fuel (Nat.le_refl fuel)))
    right
    cases halt with
    | failed error => exact Or.inl ⟨error, rfl, hfailed error rfl⟩
    | recursion => exact Or.inr ⟨rfl, hrecursion rfl⟩
    | unsupported op => exact absurd rfl (hunsupported op)
    | exhausted => exact absurd rfl hexhausted

def failingFunction : List Token :=
  [⟨.keyword .funWord, "fun", .nil, 1, some 0⟩, ⟨.identifier, "f", .nil, 1, some 4⟩,
    ⟨.leftParen, "(", .nil, 1, some 5⟩, ⟨.rightParen, ")", .nil, 1, some 6⟩,
    ⟨.leftBrace, "\x7b", .nil, 1, some 7⟩, ⟨.keyword .returnWord, "return", .nil, 1, some 8⟩,
    ⟨.minus, "-", .nil, 1, some 15⟩, ⟨.keyword .nilWord, "nil", .nil, 1, some 16⟩,
    ⟨.semicolon, ";", .nil, 1, some 19⟩, ⟨.rightBrace, "\x7d", .nil, 1, some 20⟩,
    ⟨.eof, "", .nil, 1, some 21⟩]

def failingCall : List Token :=
  [⟨.identifier, "f", .nil, 2, some 0⟩, ⟨.leftParen, "(", .nil, 2, some 1⟩,
    ⟨.rightParen, ")", .nil, 2, some 2⟩, ⟨.semicolon, ";", .nil, 2, some 3⟩,
    ⟨.eof, "", .nil, 2, some 4⟩]

/-- A function that was declared in one source fails in a later one, at a token of the first. -/
theorem runtime_errors_located_earlier :
    let error : RuntimeError := ⟨⟨.minus, "-", .nil, 1, some 15⟩, .operandNotNumber⟩
    let room : Room := ⟨1, 99⟩
    ∃ first second : CleanSource,
      first.text = "fun f()\x7breturn -nil;\x7d" ∧ second.text = "f();" ∧
      (((Machine.start fun _ => 0).runSources [(⟨9, room⟩, first)]).run ⟨9, room⟩
        second.program).1 = some (.failed error) ∧
      error.LocatedIn [first, second] := by
  intro error room
  have hscan : scan "fun f()\x7breturn -nil;\x7d" 1 = .ok failingFunction := by cbv
  have hscan' : scan "f();" 2 = .ok failingCall := by cbv
  have hrun : (((Machine.start fun _ => 0).runAll
      [(⟨9, room⟩, (parse failingFunction).statements)]).run ⟨9, room⟩
      (parse failingCall).statements).1 = some (.failed error) := rfl
  let first : CleanSource := ⟨_, 1, _, hscan, by decide +kernel⟩
  let second : CleanSource := ⟨_, 2, _, hscan', by decide +kernel⟩
  obtain ⟨-, -, hlocated⟩ :=
    runtime_errors_located (fun _ => 0) [(⟨9, room⟩, first)] room second
  exact ⟨first, second, rfl, rfl, hrun, (hlocated 9 _ hrun).2.1 error rfl⟩

/-- A chain of comparisons, in which nothing can go wrong, is too deep for the frames that a host
usually has. -/
theorem comparison_lacks_frames :
    ∃ source : CleanSource, source.text = comparing 12000 ∧
      ((Machine.start fun _ => 0).run .standard source.program).1 = some .recursion := by
  obtain ⟨tokens, ops, hscan, hparse, hlength, -⟩ := exists_comparison 12000
  refine ⟨⟨_, 1, tokens, hscan, by rw [hparse]⟩, rfl, ?_⟩
  rw [CleanSource.program, hparse,
    Machine.run_comparison_recursion (by rw [hlength]; decide) (by rw [hlength]; decide)]

end Lox
