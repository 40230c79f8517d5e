import LoxInterpreter.Store

/-!
The scopes of a store. A definition changes one scope only, a new scope leaves the old ones as they
are, and a name is resolved to a scope that binds it, on the way outwards.
-/

namespace Lox

theorem Scope.mem_bindings_of_find? {s : Scope} {name : String} {v : Value}
    (h : s.find? name = some v) : (name, v) ∈ s.bindings := by
  obtain ⟨before, after, heq, -⟩ := List.lookup_eq_some_iff.1 h
  rw [heq]
  exact List.mem_append_right _ List.mem_cons_self

theorem Scope.mem_names_of_find? {s : Scope} {name : String} (h : (s.find? name).isSome) :
    name ∈ s.names := by
  obtain ⟨v, hv⟩ := Option.isSome_iff_exists.1 h
  exact List.mem_map_of_mem (mem_bindings_of_find? hv)

theorem Scope.isSome_find?_iff {s : Scope} {name : String} :
    (s.find? name).isSome ↔ name ∈ s.names := by
  rw [find?, names, List.lookup_isSome_iff, List.mem_map]
  simp only [beq_iff_eq, eq_comm (a := name)]

namespace Store

variable {s : Store} {id owner : ScopeId} {name : String} {v : Value}

theorem getElem?_define (s : Store) (id other : ScopeId) (name : String) (v : Value) :
    (s.define id name v).scopes[other]? =
      if id = other then s.scopes[other]?.map (·.define name v) else s.scopes[other]? :=
  Array.getElem?_modify

theorem getElem?_openScope (s : Store) (bindings : List (String × Value))
    (enclosing : Option ScopeId) (other : ScopeId) :
    (s.openScope bindings enclosing).2.scopes[other]? =
      if other = s.scopes.size then some ⟨bindings, enclosing⟩ else s.scopes[other]? :=
  Array.getElem?_push

@[simp] theorem size_openScope (s : Store) (bindings : List (String × Value))
    (enclosing : Option ScopeId) :
    (s.openScope bindings enclosing).2.scopes.size = s.scopes.size + 1 :=
  Array.size_push _

def All (P : ScopeId → Scope → Prop) (s : Store) : Prop :=
  ∀ id scope, s.scopes[id]? = some scope → P id scope

theorem All.define {P : ScopeId → Scope → Prop} (h : s.All P)
    (hP : ∀ scope, P id scope → P id (scope.define name v)) : (s.define id name v).All P := by
  intro other scope hscope
  rw [getElem?_define] at hscope
  split at hscope
  next heq =>
    subst heq
    obtain ⟨old, hold, rfl⟩ := Option.map_eq_some_iff.1 hscope
    exact hP old (h _ old hold)
  next => exact h other scope hscope

theorem All.openScope {P : ScopeId → Scope → Prop} (h : s.All P)
    {bindings : List (String × Value)} {enclosing : Option ScopeId}
    (hP : P s.scopes.size ⟨bindings, enclosing⟩) : (s.openScope bindings enclosing).2.All P := by
  intro other scope hscope
  rw [getElem?_openScope] at hscope
  split at hscope
  next heq =>
    cases hscope
    exact heq ▸ hP
  next => exact h other scope hscope

/-- Names are resolved within any scopes that are closed under going outwards. -/
theorem mem_of_nearest {A : ScopeId → Prop}
    (hA : s.All fun id scope => A id → ∀ outer, scope.enclosing = some outer → A outer)
    {steps : Nat} (hid : A id) (h : s.nearest name steps id = some owner) : A owner := by
  induction steps generalizing id with
  | zero => cases h
  | succ steps ih =>
    unfold nearest at h
    split at h
    · cases h
    next scope hscope =>
      split at h
      · cases h
        exact hid
      · split at h
        · cases h
        next outer houter => exact ih (hA id scope hscope hid outer houter) h

/-- A name is resolved to a scope that binds it. -/
theorem exists_of_nearest {steps : Nat} (h : s.nearest name steps id = some owner) :
    ∃ scope, s.scopes[owner]? = some scope ∧ (scope.find? name).isSome := by
  induction steps generalizing id with
  | zero => cases h
  | succ steps ih =>
    unfold nearest at h
    split at h
    · cases h
    next scope hscope =>
      split at h
      next hfind =>
        cases h
        exact ⟨scope, hscope, hfind⟩
      · split at h
        · cases h
        next outer houter => exact ih h

theorem exists_of_get? (h : s.get? id name = some v) : ∃ owner scope,
    s.resolve name id = some owner ∧ s.scopes[owner]? = some scope ∧
      (name, v) ∈ scope.bindings := by
  obtain ⟨owner, howner, h⟩ := Option.bind_eq_some_iff.1 h
  obtain ⟨scope, hscope, h⟩ := Option.bind_eq_some_iff.1 h
  exact ⟨owner, scope, howner, hscope, Scope.mem_bindings_of_find? h⟩

end Store

end Lox
