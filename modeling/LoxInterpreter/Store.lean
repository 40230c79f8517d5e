import LoxInterpreter.Value

/-!
The store: every scope that a program has opened so far, each with the names bound in it and
the scope around it. Any number of scopes and functions may share one scope, and all of them
see what is assigned there.
-/

namespace Lox

/-- One scope. Its names stand in the order of their first definition. -/
structure Scope where
  bindings : List (String × Value)
  enclosing : Option ScopeId

/-- Binds a name in a list of bindings, in its old place if it has one and at the end if not. -/
def bind (name : String) (v : Value) : List (String × Value) → List (String × Value)
  | [] => [(name, v)]
  | (n, old) :: rest => if n = name then (n, v) :: rest else (n, old) :: bind name v rest

theorem lookup_bind_self (name : String) (v : Value) (bindings : List (String × Value)) :
    (bind name v bindings).lookup name = some v := by
  induction bindings with
  | nil => simp [bind]
  | cons b rest ih =>
    obtain ⟨n, old⟩ := b
    by_cases h : n = name
    · simp [bind, h]
    · have h' : (name == n) = false := beq_eq_false_iff_ne.2 (Ne.symm h)
      simp [bind, h, List.lookup_cons, h', ih]

theorem lookup_bind_of_ne {name other : String} (h : other ≠ name) (v : Value)
    (bindings : List (String × Value)) :
    (bind name v bindings).lookup other = bindings.lookup other := by
  induction bindings with
  | nil => simp [bind, List.lookup_cons, beq_eq_false_iff_ne.2 h]
  | cons b rest ih =>
    obtain ⟨n, old⟩ := b
    by_cases hn : n = name
    · have h' : (other == n) = false := beq_eq_false_iff_ne.2 (hn ▸ h)
      have h'' : (other == name) = false := beq_eq_false_iff_ne.2 h
      simp [bind, hn, List.lookup_cons, h'']
    · simp [bind, hn, List.lookup_cons, ih]

theorem map_fst_bind (name : String) (v : Value) (bindings : List (String × Value)) :
    (bind name v bindings).map Prod.fst =
      if name ∈ bindings.map Prod.fst then bindings.map Prod.fst
      else bindings.map Prod.fst ++ [name] := by
  induction bindings with
  | nil => simp [bind]
  | cons b rest ih =>
    obtain ⟨n, old⟩ := b
    by_cases hn : n = name
    · simp [bind, hn]
    · have hn' : name ≠ n := Ne.symm hn
      simp only [bind, hn, if_false, List.map_cons, ih, List.mem_cons, hn', false_or]
      split <;> rfl

theorem mem_of_mem_bind {name : String} {v : Value} {bindings : List (String × Value)}
    {b : String × Value} (h : b ∈ bind name v bindings) : b = (name, v) ∨ b ∈ bindings := by
  induction bindings with
  | nil => exact Or.inl (List.mem_singleton.1 h)
  | cons c rest ih =>
    obtain ⟨n, old⟩ := c
    by_cases hn : n = name
    · rw [bind, if_pos hn] at h
      rcases List.mem_cons.1 h with rfl | h
      · exact Or.inl (by rw [hn])
      · exact Or.inr (List.mem_cons_of_mem _ h)
    · rw [bind, if_neg hn] at h
      rcases List.mem_cons.1 h with rfl | h
      · exact Or.inr List.mem_cons_self
      · exact (ih h).imp_right (List.mem_cons_of_mem _)

namespace Scope

def find? (s : Scope) (name : String) : Option Value := s.bindings.lookup name

def define (s : Scope) (name : String) (v : Value) : Scope :=
  { s with bindings := bind name v s.bindings }

def names (s : Scope) : List String := s.bindings.map Prod.fst

@[simp] theorem enclosing_define (s : Scope) (name : String) (v : Value) :
    (s.define name v).enclosing = s.enclosing := rfl

@[simp] theorem find?_define_self (s : Scope) (name : String) (v : Value) :
    (s.define name v).find? name = some v :=
  lookup_bind_self name v s.bindings

@[simp] theorem find?_define_of_ne {name other : String} (h : other ≠ name) (s : Scope)
    (v : Value) : (s.define name v).find? other = s.find? other :=
  lookup_bind_of_ne h v s.bindings

theorem names_define (s : Scope) (name : String) (v : Value) :
    (s.define name v).names = if name ∈ s.names then s.names else s.names ++ [name] :=
  map_fst_bind name v s.bindings

end Scope

/-- The scopes of a program, the oldest first. A scope is known by its position. -/
structure Store where
  scopes : Array Scope

namespace Store

/-- The scope that belongs to no other, whose names are visible everywhere. -/
def globals : ScopeId := 0

/-- The store of a program that has not begun: the clock is the only name. -/
def initial : Store := ⟨#[⟨[("clock", .clock)], none⟩]⟩

def openScope (s : Store) (bindings : List (String × Value)) (enclosing : Option ScopeId) :
    ScopeId × Store :=
  (s.scopes.size, ⟨s.scopes.push ⟨bindings, enclosing⟩⟩)

/-- The nearest scope that binds a name, among `steps` scopes from `id` outwards. -/
def nearest (s : Store) (name : String) : Nat → ScopeId → Option ScopeId
  | 0, _ => none
  | steps + 1, id =>
    match s.scopes[id]? with
    | none => none
    | some scope =>
      if (scope.find? name).isSome then some id
      else
        match scope.enclosing with
        | none => none
        | some outer => s.nearest name steps outer

/-- The nearest scope that binds a name, from `id` outwards. Scopes are opened inside older
ones, so there are at most `id + 1` to look at. -/
def resolve (s : Store) (name : String) (id : ScopeId) : Option ScopeId :=
  s.nearest name (id + 1) id

def get? (s : Store) (id : ScopeId) (name : String) : Option Value := do
  let owner ← s.resolve name id
  let scope ← s.scopes[owner]?
  scope.find? name

/-- Binds a name in one scope, whatever is bound around it. -/
def define (s : Store) (id : ScopeId) (name : String) (v : Value) : Store :=
  ⟨s.scopes.modify id (·.define name v)⟩

@[simp] theorem size_define (s : Store) (id : ScopeId) (name : String) (v : Value) :
    (s.define id name v).scopes.size = s.scopes.size := by
  simp [define]

def assign? (s : Store) (id : ScopeId) (name : String) (v : Value) : Option Store :=
  match s.resolve name id with
  | some owner => some (s.define owner name v)
  | none => none

end Store

end Lox
