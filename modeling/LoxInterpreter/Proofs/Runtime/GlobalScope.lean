import LoxInterpreter.Proofs.Runtime.Forest
import LoxInterpreter.Proofs.Runtime.PerformedRuns

/-!
The global scope is around all others. A scope is opened inside one that is there, and never moved.
So from each scope that a program is in, and from the scopes of all functions that it has, going
outwards ends in the global scope, and the names there are seen unless a nearer scope binds them.
-/

namespace Lox

namespace Store

variable {s : Store} {id outer : ScopeId} {name : String} {v : Value} {scopes : List ScopeId}

/-- Scopes are inside older ones, but for the global scope, which is inside no other. -/
structure Rooted (s : Store) : Prop where
  ordered : s.Ordered
  root : s.All fun id scope => scope.enclosing = none → id = globals

namespace Rooted

theorem initial : Store.initial.Rooted := by
  refine ⟨Layered.initial.enclosing, ?_⟩
  rintro (_ | id) scope hscope hnone
  · rfl
  · cases hscope

theorem define (h : s.Rooted) : (s.define id name v).Rooted :=
  ⟨h.ordered.define, h.root.define fun _ hscope => hscope⟩

theorem openScope (h : s.Rooted) {bindings : List (String × Value)}
    (houter : outer < s.scopes.size) : (s.openScope bindings (some outer)).2.Rooted := by
  refine ⟨h.ordered.openScope ?_, h.root.openScope nofun⟩
  rintro _ ⟨⟩
  exact houter

theorem enclosing_eq_none_iff (h : s.Rooted) {scope : Scope} (hscope : s.scopes[id]? = some scope) :
    scope.enclosing = none ↔ id = globals := by
  refine ⟨h.root id scope hscope, ?_⟩
  rintro rfl
  cases houter : scope.enclosing with
  | none => rfl
  | some outer => exact absurd (h.ordered _ scope hscope outer houter) (Nat.not_lt_zero outer)

theorem getLast?_eq (h : s.Rooted) (hchain : s.IsChain id scopes) :
    scopes.getLast? = some globals := by
  induction hchain with
  | last hscope houter => rw [List.getLast?_singleton, h.root _ _ hscope houter]
  | next _ _ _ ih => rw [List.getLast?_cons, ih, Option.getD_some]

end Rooted

/-- A name of the last scope is found if no scope before it binds the name. -/
theorem find?_binds_of_getLast? (hlast : scopes.getLast? = some id) (hid : s.binds name id = true)
    (hnearer : ∀ nearer ∈ scopes.dropLast, s.binds name nearer = false) :
    scopes.find? (s.binds name) = some id := by
  obtain ⟨before, rfl⟩ := List.getLast?_eq_some_iff.1 hlast
  rw [List.dropLast_concat] at hnearer
  have hbefore : before.find? (s.binds name) = none :=
    List.find?_eq_none.2 fun nearer hmem => Bool.eq_false_iff.1 (hnearer nearer hmem)
  rw [List.find?_append, hbefore, Option.none_or, List.find?_cons_of_pos hid]

/-- Going outwards from a scope, one comes through these scopes to the global one. So a name is
looked for in no more than these, however many steps are allowed, and a global name that none of the
nearer ones binds is found. -/
structure LeadsToGlobals (s : Store) (id : ScopeId) (scopes : List ScopeId) : Prop where
  chain : s.IsChain id scopes
  last : scopes.getLast? = some globals
  length_le : scopes.length ≤ id + 1
  resolve (name : String) : s.resolve name id = scopes.find? (s.binds name)
  nearest (name : String) (steps : Nat) : scopes.length ≤ steps →
    s.nearest name steps id = s.resolve name id
  visible (name : String) (v : Value) : s.valueIn name globals = some v →
    (∀ nearer ∈ scopes.dropLast, s.binds name nearer = false) →
    s.resolve name id = some globals ∧ s.get? id name = some v

theorem Rooted.leadsToGlobals (h : s.Rooted) (hid : id < s.scopes.size) :
    ∃ scopes, s.LeadsToGlobals id scopes := by
  obtain ⟨scopes, hchain⟩ := h.ordered.exists_isChain hid
  have hlast := h.getLast?_eq hchain
  refine ⟨scopes, hchain, hlast, hchain.length_le h.ordered,
    fun name => hchain.resolve_eq h.ordered, ?_, ?_⟩
  · intro name steps hsteps
    rw [hchain.nearest_eq hsteps, hchain.resolve_eq h.ordered]
  · intro name v hv hnearer
    have hbinds : s.binds name globals = true := by rw [binds, hv, Option.isSome_some]
    have hresolve : s.resolve name id = some globals :=
      (hchain.resolve_eq h.ordered).trans (find?_binds_of_getLast? hlast hbinds hnearer)
    have hget : s.get? id name = (s.resolve name id).bind (s.valueIn name) := rfl
    exact ⟨hresolve, by rw [hget, hresolve, Option.bind_some, hv]⟩

end Store

namespace Situation

open Store

variable {p q : Situation}

/-- No act moves a scope into another one. -/
theorem Act.sameLinks (h : p.Act q) : p.machine.store.SameLinks q.machine.store := by
  cases h with
  | compute | read | print | readClock | leave => exact .refl p.machine.store
  | assign | declare | declareFunction => exact (Grown.define p.machine.store _ _ _).sameLinks
  | enterBlock | enterCall => exact (Grown.openScope p.machine.store _ _).sameLinks

theorem Leads.sameLinks (h : p.Leads q) : p.machine.store.SameLinks q.machine.store := by
  induction h with
  | refl => exact .refl p.machine.store
  | tail _ hact ih => exact ih.trans hact.sameLinks

/-- The scopes of a situation, and those of its functions, are in the store, which is rooted. -/
structure Rooted (p : Situation) : Prop where
  store : p.machine.store.Rooted
  scopes : ∀ id ∈ p.machine.current :: p.outer, id < p.machine.store.scopes.size
  functions : ∀ f, p.Occurs (.function f) → f.scope < p.machine.store.scopes.size

namespace Rooted

theorem start (clock : Nat → Float) : (start clock).Rooted where
  store := .initial
  scopes id hid := by
    rw [List.mem_singleton.1 hid]
    exact Nat.zero_lt_one
  functions _ hf := absurd hf (not_occurs_start clock)

theorem act_store (hp : p.Rooted) (h : p.Act q) : q.machine.store.Rooted := by
  cases h with
  | compute | read | print | readClock | leave => exact hp.store
  | assign | declare | declareFunction => exact hp.store.define
  | enterBlock => exact hp.store.openScope (hp.scopes _ List.mem_cons_self)
  | enterCall hf => exact hp.store.openScope (hp.functions _ (Or.inl hf))

theorem act_scopes (hp : p.Rooted) (h : p.Act q) :
    ∀ id ∈ q.machine.current :: q.outer, id < q.machine.store.scopes.size := by
  intro id hid
  have hold (hid : id ∈ p.machine.current :: p.outer) : id < q.machine.store.scopes.size :=
    Nat.lt_of_lt_of_le (hp.scopes id hid) h.sameLinks.size_le
  cases h with
  | compute | read | assign | declare | declareFunction | print | readClock => exact hold hid
  | enterBlock | enterCall =>
    rcases List.mem_cons.1 hid with rfl | hid
    · exact (size_openScope p.machine.store _ _).symm ▸ Nat.lt_succ_self _
    · exact hold hid
  | leave houter => exact hold (List.mem_cons_of_mem _ (houter ▸ hid))

theorem act (hp : p.Rooted) (h : p.Act q) : q.Rooted where
  store := hp.act_store h
  scopes := hp.act_scopes h
  functions f hf := by
    rcases h.occurs_function hf with hf | ⟨-, -, hscope⟩
    · exact Nat.lt_of_lt_of_le (hp.functions f hf) h.sameLinks.size_le
    · rw [hscope]
      exact Nat.lt_of_lt_of_le (hp.scopes _ List.mem_cons_self) h.sameLinks.size_le

end Rooted

theorem Reachable.rooted (hp : p.Reachable) : p.Rooted :=
  hp.induction Rooted.start fun _ _ => Rooted.act

end Situation

open Store

/-- In all situations of a run, each scope is where it was opened and stays there, inside one that
was opened before, but for the global scope, which is inside no other. Going outwards from the
current scope, or from the scope of any function that is at hand or bound somewhere, one comes to
the global scope, so that looking for a name ends, and all global names are seen that no scope
before it binds. The machines between the parts of runs are all in such situations, and so are those
that programs leave behind, from which acts lead to those that later programs leave behind. -/
theorem scopes_lead_to_globals :
    (∀ p : Situation, p.Reachable →
      (∀ q, p.Leads q → p.machine.store.SameLinks q.machine.store) ∧
      (∀ id scope, p.machine.store.scopes[id]? = some scope →
        (scope.enclosing = none ↔ id = globals) ∧
        ∀ outer, scope.enclosing = some outer → outer < id) ∧
      (∃ scopes, p.machine.store.LeadsToGlobals p.machine.current scopes) ∧
      ∀ f, p.Occurs (.function f) → ∃ scopes, p.machine.store.LeadsToGlobals f.scope scopes) ∧
    (∀ m : Machine, m.Reached → ∃ p : Situation, p.Reachable ∧ p.machine = m) ∧
    ∀ clock programs later, ∃ p q : Situation, p.Reachable ∧
      p.machine = (Machine.start clock).runAll programs ∧
      p.Leads q ∧ q.machine = p.machine.runAll later := by
  refine ⟨fun p hp => ⟨fun q => Situation.Leads.sameLinks, ?_, ?_, ?_⟩, fun m hm => ?_, ?_⟩
  · exact fun id scope hscope => ⟨hp.rooted.store.enclosing_eq_none_iff hscope,
      hp.rooted.store.ordered id scope hscope⟩
  · exact hp.rooted.store.leadsToGlobals (hp.rooted.scopes _ List.mem_cons_self)
  · exact fun f hf => hp.rooted.store.leadsToGlobals (hp.rooted.functions f hf)
  · exact hm.exists_situation
  · intro clock programs later
    obtain ⟨p, hp, hmachine, -⟩ := (Situation.start clock).exists_runAll programs
    obtain ⟨q, hq, hmachine', -⟩ := p.exists_runAll later
    exact ⟨p, q, ⟨clock, hp⟩, hmachine, hq, hmachine'⟩

def escapingName (name : String) : Token := ⟨.identifier, name, .nil, 1, none⟩

/-- A function declares another one and returns it, and the program keeps that. -/
def escapingProgram : List Stmt :=
  [.function (escapingName "outer") []
      [.function (escapingName "inner") [] [],
        .result (escapingName "return") (some (.variable (escapingName "inner")))],
    .var (escapingName "kept")
      (some (.call (.variable (escapingName "outer")) (escapingName ")") []))]

def escapingFunction : Closure := ⟨1, escapingName "inner", [], [], 1⟩

def escapingMachine : Machine := (Machine.start fun _ => 0).runAll [(⟨9, 1, 99⟩, escapingProgram)]

theorem get?_escaping :
    escapingMachine.store.get? globals "kept" = some (.function escapingFunction) := rfl

/-- The scope of the call is inside the global scope as long as the function is kept. -/
theorem scopes_lead_to_globals_escaping :
    escapingMachine.store.get? globals "kept" = some (.function escapingFunction) ∧
      (∃ p : Situation, p.Reachable ∧ p.machine = escapingMachine) ∧
      ∃ scopes, escapingMachine.store.LeadsToGlobals escapingFunction.scope scopes := by
  obtain ⟨hsituations, -, hprograms⟩ := scopes_lead_to_globals
  obtain ⟨p, -, hp, hmachine, -⟩ := hprograms (fun _ => 0) [(⟨9, 1, 99⟩, escapingProgram)] []
  have hmachine : p.machine = escapingMachine := hmachine
  obtain ⟨-, -, -, hfunctions⟩ := hsituations p hp
  rw [hmachine] at hfunctions
  have hoccurs : p.Occurs (.function escapingFunction) := by
    refine Or.inr ?_
    rw [hmachine]
    exact holds_of_get? get?_escaping
  exact ⟨get?_escaping, ⟨p, hp, hmachine⟩, hfunctions _ hoccurs⟩

end Lox
