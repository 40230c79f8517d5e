import LoxInterpreter.Proofs.Runtime.Scopes

/-!
Stores that grow. New names may be bound in the scopes that are there, and new scopes may be opened,
but no scope loses a name or is moved into another one. What a name means in a store that has grown
is therefore known from what it meant before and from the names that were added: it is the nearest
scope among the old one and those that got the name since.
-/

namespace Lox

namespace Store

def chain (s : Store) : Nat → ScopeId → List ScopeId
  | 0, _ => []
  | steps + 1, id =>
    match s.scopes[id]? with
    | none => []
    | some scope =>
      match scope.enclosing with
      | none => [id]
      | some outer => id :: s.chain steps outer

/-- The scopes that a name is looked for in from `id` on, the nearest one first. -/
def outwards (s : Store) (id : ScopeId) : List ScopeId := s.chain (id + 1) id

variable {s s' s'' : Store} {id outer owner : ScopeId} {name : String} {steps : Nat}

theorem mem_chain_of_nearest (h : s.nearest name steps id = some owner) :
    owner ∈ s.chain steps id := by
  induction steps generalizing id with
  | zero => cases h
  | succ steps ih =>
    unfold nearest at h
    unfold chain
    cases hscope : s.scopes[id]? with
    | none =>
      rw [hscope] at h
      cases h
    | some scope =>
      simp only [hscope] at h ⊢
      cases houter : scope.enclosing with
      | none =>
        split at h
        · cases h
          exact List.mem_singleton_self _
        · rw [houter] at h
          cases h
      | some outer =>
        split at h
        · cases h
          exact List.mem_cons_self
        · rw [houter] at h
          exact List.mem_cons_of_mem _ (ih h)

/-- More steps are not needed once a scope is found. -/
theorem nearest_of_le {more : Nat} (hle : steps ≤ more) (h : s.nearest name steps id = some owner) :
    s.nearest name more id = some owner := by
  induction steps generalizing id more with
  | zero => cases h
  | succ steps ih =>
    obtain ⟨more, rfl⟩ := Nat.exists_eq_add_of_le' (Nat.le_of_add_left_le hle)
    unfold nearest at h ⊢
    cases hscope : s.scopes[id]? with
    | none =>
      rw [hscope] at h
      cases h
    | some scope =>
      simp only [hscope] at h ⊢
      split at h
      next hfind => rw [if_pos hfind, h]
      next hfind =>
        rw [if_neg hfind]
        cases houter : scope.enclosing with
        | none =>
          rw [houter] at h
          cases h
        | some outer =>
          rw [houter] at h
          exact ih (Nat.le_of_succ_le_succ hle) h

/-- A name that a scope does not bind means there what it means in the scope around it. -/
theorem resolve_of_enclosing {scope : Scope} (hscope : s.scopes[id]? = some scope)
    (hname : scope.find? name = none) (houter : scope.enclosing = some outer) (hlt : outer < id)
    (h : s.resolve name outer = some owner) : s.resolve name id = some owner := by
  unfold resolve
  rw [nearest, hscope]
  simp only [hname, Option.isSome_none, Bool.false_eq_true, if_false, houter]
  exact nearest_of_le hlt h

theorem lt_size_of_resolve (h : s.resolve name id = some owner) : id < s.scopes.size := by
  cases hscope : s.scopes[id]? with
  | none =>
    rw [resolve, nearest, hscope] at h
    cases h
  | some scope => exact (Array.getElem?_eq_some_iff.1 hscope).1

def SameLinks (s s' : Store) : Prop :=
  ∀ (id : ScopeId) (scope : Scope), s.scopes[id]? = some scope →
    ∃ scope' : Scope, s'.scopes[id]? = some scope' ∧ scope'.enclosing = scope.enclosing

namespace SameLinks

theorem refl (s : Store) : s.SameLinks s := fun _ scope hscope => ⟨scope, hscope, rfl⟩

theorem trans (h : s.SameLinks s') (h' : s'.SameLinks s'') : s.SameLinks s'' := by
  intro id scope hscope
  obtain ⟨scope', hscope', henclosing⟩ := h id scope hscope
  obtain ⟨scope'', hscope'', henclosing'⟩ := h' id scope' hscope'
  exact ⟨scope'', hscope'', henclosing'.trans henclosing⟩

theorem size_le (h : s.SameLinks s') : s.scopes.size ≤ s'.scopes.size := by
  refine Nat.le_of_not_lt fun hlt => ?_
  obtain ⟨scope', hscope', -⟩ := h _ _ (Array.getElem?_eq_getElem hlt)
  exact Nat.lt_irrefl _ (Array.getElem?_eq_some_iff.1 hscope').1

end SameLinks

/-- The second store has the scopes of the first one in the same places, each with its old names and
those that were added to it. It may have more scopes. -/
def Grown (added : String → ScopeId → Bool) (s s' : Store) : Prop :=
  ∀ id scope, s.scopes[id]? = some scope → ∃ scope', s'.scopes[id]? = some scope' ∧
    scope'.enclosing = scope.enclosing ∧
    ∀ name, (scope'.find? name).isSome = ((scope.find? name).isSome || added name id)

def noNames : String → ScopeId → Bool := fun _ _ => false

namespace Grown

variable {added added' : String → ScopeId → Bool}

theorem refl (s : Store) : Grown noNames s s :=
  fun _ scope h => ⟨scope, h, rfl, fun _ => (Bool.or_false _).symm⟩

theorem trans (h : Grown added s s') (h' : Grown added' s' s'') :
    Grown (fun name id => added name id || added' name id) s s'' := by
  intro id scope hscope
  obtain ⟨scope', hscope', henclosing, hnames⟩ := h id scope hscope
  obtain ⟨scope'', hscope'', henclosing', hnames'⟩ := h' id scope' hscope'
  exact ⟨scope'', hscope'', henclosing'.trans henclosing, fun name => by
    rw [hnames', hnames, Bool.or_assoc]⟩

theorem quiet_trans (h : Grown noNames s s') (h' : Grown added s' s'') : Grown added s s'' :=
  h.trans h'

theorem sameLinks (h : Grown added s s') : s.SameLinks s' := by
  intro id scope hscope
  obtain ⟨scope', hscope', henclosing, -⟩ := h id scope hscope
  exact ⟨scope', hscope', henclosing⟩

theorem size_le (h : Grown added s s') : s.scopes.size ≤ s'.scopes.size := h.sameLinks.size_le

theorem define (s : Store) (id : ScopeId) (name : String) (v : Value) :
    Grown (fun other place => name == other && id == place) s (s.define id name v) := by
  intro place scope hscope
  rw [getElem?_define, hscope]
  by_cases hplace : id = place
  · refine ⟨scope.define name v, by simp [hplace], rfl, fun other => ?_⟩
    by_cases hother : other = name
    · simp [hother, hplace]
    · simp [Scope.find?_define_of_ne hother, Ne.symm hother]
  · exact ⟨scope, by simp [hplace], rfl, fun other => by simp [hplace]⟩

/-- A new value for a name adds no name to the scope that the name is resolved to. -/
theorem define_of_resolve (h : s.resolve name id = some owner) (v : Value) :
    Grown noNames s (s.define owner name v) := by
  intro place scope hscope
  obtain ⟨scope', hscope', henclosing, hnames⟩ := Grown.define s owner name v place scope hscope
  refine ⟨scope', hscope', henclosing, fun other => (hnames other).trans ?_⟩
  by_cases hsame : name = other ∧ owner = place
  · obtain ⟨rfl, rfl⟩ := hsame
    obtain ⟨bound, hbound, hfind⟩ := exists_of_nearest h
    rw [hscope] at hbound
    cases hbound
    simp [hfind]
  · congr 1
    simpa [noNames] using hsame

theorem openScope (s : Store) (bindings : List (String × Value)) (enclosing : Option ScopeId) :
    Grown noNames s (s.openScope bindings enclosing).2 := by
  intro id scope hscope
  have hlt : id < s.scopes.size := (Array.getElem?_eq_some_iff.1 hscope).1
  refine ⟨scope, ?_, rfl, fun name => (Bool.or_false _).symm⟩
  rw [getElem?_openScope, if_neg (Nat.ne_of_lt hlt), hscope]

/-- In a store that has grown, a name means the nearest scope among the one that it meant before and
those that it was added to. -/
theorem nearest_eq (h : Grown added s s') (hnearest : s.nearest name steps id = some owner) :
    s'.nearest name steps id =
      (s.chain steps id).find? fun other => other == owner || added name other := by
  induction steps generalizing id with
  | zero => cases hnearest
  | succ steps ih =>
    have hfound := exists_of_nearest hnearest
    unfold nearest at hnearest
    cases hscope : s.scopes[id]? with
    | none =>
      rw [hscope] at hnearest
      cases hnearest
    | some scope =>
      obtain ⟨scope', hscope', henclosing, hnames⟩ := h id scope hscope
      simp only [nearest, chain, hscope, hscope', henclosing, hnames] at hnearest ⊢
      cases hfind : (scope.find? name).isSome with
      | true =>
        -- The scope had the name before.
        rw [hfind, if_pos rfl] at hnearest
        cases hnearest
        cases scope.enclosing <;> simp
      | false =>
        have hne : (id == owner) = false := by
          refine beq_eq_false_iff_ne.2 ?_
          rintro rfl
          obtain ⟨bound, hbound, hbinds⟩ := hfound
          rw [hscope] at hbound
          cases hbound
          rw [hfind] at hbinds
          cases hbinds
        rw [hfind, if_neg Bool.false_ne_true] at hnearest
        cases houter : scope.enclosing with
        | none =>
          rw [houter] at hnearest
          cases hnearest
        | some outer =>
          rw [houter] at hnearest
          -- The scope has the name now exactly if it was added.
          cases hadded : added name id with
          | true => simp [hadded]
          | false => simp [hadded, hne, ih hnearest]

theorem resolve_eq (h : Grown added s s') (hresolve : s.resolve name id = some owner) :
    s'.resolve name id =
      (s.outwards id).find? fun other => other == owner || added name other :=
  h.nearest_eq hresolve

theorem exists_resolve (h : Grown added s s') (hresolve : s.resolve name id = some owner) :
    ∃ owner', s'.resolve name id = some owner' := by
  rw [h.resolve_eq hresolve]
  refine Option.isSome_iff_exists.1 (List.find?_isSome.2 ⟨owner, mem_chain_of_nearest hresolve, ?_⟩)
  simp

/-- A name keeps its meaning if it was added to no scope nearer than the one that it meant. -/
theorem resolve_eq_of_none_nearer (h : Grown added s s') (hresolve : s.resolve name id = some owner)
    (hnearer : ∀ other ∈ (s.outwards id).takeWhile (· != owner), added name other = false) :
    s'.resolve name id = some owner := by
  rw [h.resolve_eq hresolve]
  have hmem : owner ∈ s.outwards id := mem_chain_of_nearest hresolve
  generalize s.outwards id = scopes at hnearer hmem
  induction scopes with
  | nil => cases hmem
  | cons other scopes ih =>
    by_cases hother : other = owner
    · simp [hother]
    · have hne : (other != owner) = true := bne_iff_ne.2 hother
      simp only [List.takeWhile_cons, hne, if_true] at hnearer
      rw [List.find?_cons_of_neg (by simp [hother, hnearer other List.mem_cons_self])]
      exact ih (fun x hx => hnearer x (List.mem_cons_of_mem _ hx))
        ((List.mem_cons.1 hmem).resolve_left (Ne.symm hother))

end Grown

end Store

end Lox
