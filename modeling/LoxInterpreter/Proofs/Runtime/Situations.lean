import LoxInterpreter.Proofs.Runtime.Moments
import LoxInterpreter.Proofs.Runtime.RunsKeep
import Mathlib.Logic.Relation

/-!
The situations of a run, and the acts that lead from one to the next. An act is a single thing that
a machine does: it comes by a value, binds a name, makes a function, prints, reads the clock, enters
a block or the body of a function, or leaves it. What holds of new machines and is kept by each act
holds in all situations that acts lead to, in the midst of runs as well as between them.
-/

namespace Lox

namespace Store

variable {s : Store} {id : ScopeId} {name : String} {v w : Value}

def Holds (s : Store) (v : Value) : Prop :=
  ∃ (id : ScopeId) (scope : Scope), s.scopes[id]? = some scope ∧ ∃ b ∈ scope.bindings, b.2 = v

theorem holds_of_get? (h : s.get? id name = some v) : s.Holds v := by
  obtain ⟨owner, scope, -, hscope, hmem⟩ := exists_of_get? h
  exact ⟨owner, scope, hscope, _, hmem, rfl⟩

theorem Holds.of_define (h : (s.define id name v).Holds w) : w = v ∨ s.Holds w := by
  obtain ⟨place, scope, hscope, b, hb, rfl⟩ := h
  rw [getElem?_define] at hscope
  split at hscope
  · obtain ⟨old, hold, rfl⟩ := Option.map_eq_some_iff.1 hscope
    exact (mem_of_mem_bind hb).imp (congrArg Prod.snd) fun hb => ⟨_, old, hold, b, hb, rfl⟩
  · exact Or.inr ⟨place, scope, hscope, b, hb, rfl⟩

theorem Holds.of_openScope {bindings : List (String × Value)} {enclosing : Option ScopeId}
    (h : (s.openScope bindings enclosing).2.Holds w) : (∃ b ∈ bindings, b.2 = w) ∨ s.Holds w := by
  obtain ⟨place, scope, hscope, hb⟩ := h
  rw [getElem?_openScope] at hscope
  split at hscope
  · cases hscope
    exact Or.inl hb
  · exact Or.inr ⟨place, scope, hscope, hb⟩

end Store

def Moment.made? (k : Moment) : Option Closure :=
  match k.happening with
  | .made f => some f
  | _ => none

/-- Where a run stands: the machine, what has happened so far, the values that were come by, and the
scopes to return to, the innermost one first. -/
structure Situation where
  machine : Machine
  moments : List Moment
  hand : List Value
  outer : List ScopeId

namespace Situation

def start (clock : Nat → Float) : Situation := ⟨.start clock, [], [], []⟩

def made (p : Situation) : List Closure := p.moments.filterMap Moment.made?

/-- The value is at hand or bound in a scope. -/
def Occurs (p : Situation) (v : Value) : Prop := v ∈ p.hand ∨ p.machine.store.Holds v

inductive Act : Situation → Situation → Prop
  /-- A literal or an operator has a value. -/
  | compute (p : Situation) {v : Value} (hv : ∀ f, v ≠ .function f) :
      Act p { p with hand := v :: p.hand }
  | read (p : Situation) {name : String} {v : Value}
      (hv : p.machine.store.get? p.machine.current name = some v) :
      Act p { p with hand := v :: p.hand }
  | assign (p : Situation) {name : String} {owner : ScopeId} {v : Value} (hv : v ∈ p.hand)
      (howner : p.machine.store.resolve name p.machine.current = some owner) :
      Act p { p with
        machine := { p.machine with store := p.machine.store.define owner name v } }
  | declare (p : Situation) (name : Token) {v : Value} (hv : v ∈ p.hand) :
      Act p { p with
        machine := (Run.define name v).after p.machine
        moments := p.moments ++ Trace.declaration name v p.machine }
  | declareFunction (p : Situation) (name : Token) (params : List Token) (body : List Stmt) :
      Act p { p with
        machine := (Run.makeFunction name params body >>= Run.define name).after p.machine
        moments := p.moments ++ Trace.functionDeclaration name params body p.machine }
  | print (p : Situation) (text : String) :
      Act p { p with machine := (Run.print text).after p.machine }
  | readClock (p : Situation) : Act p { p with machine := Run.readClock.after p.machine }
  | enterBlock (p : Situation) :
      Act p { p with
        machine := Trace.opened [] p.machine.current p.machine
        outer := p.machine.current :: p.outer }
  | enterCall (p : Situation) {f : Closure} {args : List Value} (hf : .function f ∈ p.hand)
      (hargs : args ⊆ p.hand) :
      Act p { p with
        machine := Trace.opened (parameterBindings f.params args) f.scope p.machine
        moments := p.moments ++
          [⟨.called f, Trace.opened (parameterBindings f.params args) f.scope p.machine⟩]
        outer := p.machine.current :: p.outer }
  | leave (p : Situation) {id : ScopeId} {outer : List ScopeId} (houter : p.outer = id :: outer) :
      Act p { p with machine := { p.machine with current := id }, outer := outer }

def Leads : Situation → Situation → Prop := Relation.ReflTransGen Act

variable {p q : Situation}

theorem Leads.refl (p : Situation) : p.Leads p := Relation.ReflTransGen.refl

theorem Leads.trans {p q r : Situation} (h : p.Leads q) (h' : q.Leads r) : p.Leads r :=
  Relation.ReflTransGen.trans h h'

theorem Leads.act (h : p.Act q) : p.Leads q := Relation.ReflTransGen.single h

/-- What all acts keep is kept. -/
theorem Leads.keeps {P : Situation → Prop} (hact : ∀ p q, P p → Act p q → P q) (h : p.Leads q)
    (hp : P p) : P q := by
  induction h with
  | refl => exact hp
  | tail _ hq ih => exact hact _ _ ih hq

/-- The situations that runs get into, also before they end. -/
def Reachable (p : Situation) : Prop := ∃ clock, (start clock).Leads p

theorem Reachable.start (clock : Nat → Float) : (start clock).Reachable := ⟨clock, .refl _⟩

theorem Reachable.leads (hp : p.Reachable) (h : p.Leads q) : q.Reachable := by
  obtain ⟨clock, hclock⟩ := hp
  exact ⟨clock, hclock.trans h⟩

/-- What new machines have and all acts keep, all situations have. -/
theorem Reachable.induction {P : Situation → Prop} (hstart : ∀ clock, P (.start clock))
    (hact : ∀ p q, P p → p.Act q → P q) (hp : p.Reachable) : P p := by
  obtain ⟨clock, hclock⟩ := hp
  exact hclock.keeps hact (hstart clock)

/-- An act adds no name to a scope unless a moment tells of it. -/
theorem Act.linked {m : Machine} (h : p.Act q) (hp : Linked m p.moments p.machine) :
    Linked m q.moments q.machine := by
  cases h with
  | compute | read => exact hp
  | print | readClock | leave => exact hp.append_quiet (.refl p.machine.store)
  | assign _ howner => exact hp.append_quiet (.define_of_resolve howner _)
  | enterBlock => exact hp.append_quiet (.openScope p.machine.store [] _)
  | declare name =>
    refine hp.append ⟨⟨?_, ?_⟩, .refl _⟩
    · exact .define p.machine.store p.machine.current name.lexeme _
    · rintro f ⟨⟩
  | declareFunction name params body =>
    refine hp.append ⟨⟨?_, ?_⟩, ⟨?_, ?_⟩, .refl _⟩
    · exact .define p.machine.store p.machine.current name.lexeme _
    · rintro f ⟨⟩
    · exact .refl _
    · rintro f ⟨⟩
  | @enterCall f args =>
    refine hp.append ⟨⟨.openScope p.machine.store _ _, ?_⟩, .refl _⟩
    rintro g ⟨⟩
    exact ⟨Nat.le_refl _, args, (Store.getElem?_openScope p.machine.store _ _ _).trans (if_pos rfl)⟩

theorem Leads.linked {m : Machine} (h : p.Leads q) (hp : Linked m p.moments p.machine) :
    Linked m q.moments q.machine := by
  induction h with
  | refl => exact hp
  | tail _ hact ih => exact hact.linked ih

/-- A new machine has no functions of its own. -/
theorem not_occurs_start (clock : Nat → Float) {f : Closure} :
    ¬ (Situation.start clock).Occurs (.function f) := by
  rintro (hf | ⟨_ | id, scope, hscope, b, hb, hf⟩)
  · cases hf
  · cases hscope
    rw [List.mem_singleton.1 hb] at hf
    cases hf
  · cases hscope

/-- An act can make one function. All other functions that occur then occurred before. -/
theorem Act.occurs_function {f : Closure} (h : p.Act q) (hf : q.Occurs (.function f)) :
    p.Occurs (.function f) ∨ q.made = p.made ++ [f] ∧ f.identity = p.machine.functions ∧
      f.scope = p.machine.current := by
  cases h with
  | compute hv =>
    rcases hf with hf | hf
    · rcases List.mem_cons.1 hf with heq | hf
      · exact absurd heq.symm (hv f)
      · exact Or.inl (Or.inl hf)
    · exact Or.inl (Or.inr hf)
  | read hv =>
    rcases hf with hf | hf
    · rcases List.mem_cons.1 hf with rfl | hf
      · exact Or.inl (Or.inr (Store.holds_of_get? hv))
      · exact Or.inl (Or.inl hf)
    · exact Or.inl (Or.inr hf)
  | assign hv howner | declare name hv =>
    refine Or.inl (hf.elim Or.inl fun hf => ?_)
    rcases Store.Holds.of_define hf with rfl | hf
    · exact Or.inl hv
    · exact Or.inr hf
  | declareFunction name params body =>
    rcases hf with hf | hf
    · exact Or.inl (Or.inl hf)
    · rcases Store.Holds.of_define hf with heq | hf
      · cases heq
        exact Or.inr ⟨List.filterMap_append, rfl, rfl⟩
      · exact Or.inl (Or.inr hf)
  | print | readClock | leave => exact Or.inl hf
  | enterBlock =>
    refine Or.inl (hf.elim Or.inl fun hf => ?_)
    rcases Store.Holds.of_openScope hf with ⟨b, hb, -⟩ | hf
    · cases hb
    · exact Or.inr hf
  | enterCall hg hargs =>
    refine Or.inl (hf.elim Or.inl fun hf => ?_)
    rcases Store.Holds.of_openScope hf with ⟨b, hb, heq⟩ | hf
    · exact Or.inl (hargs (heq ▸ mem_args_of_mem_parameterBindings hb))
    · exact Or.inr hf

end Situation

end Lox
