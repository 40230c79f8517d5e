import LoxInterpreter.Proofs.Runtime.FunctionMaps
import LoxInterpreter.Proofs.Runtime.Layers

/-!
Stores without some of their empty scopes. A scope in which no name is bound says nothing about
what names mean. A collapse leaves such scopes out: what was inside an empty scope is now inside the
scope around it, and functions that closed over an empty scope close over that scope as well. The
other scopes stay apart from each other, though they may have other numbers.
-/

namespace Lox

def Closure.moved (image : ScopeId → ScopeId) (f : Closure) : Closure :=
  { f with scope := image f.scope }

theorem Closure.faithful_moved (image : ScopeId → ScopeId) : Faithful (moved image) :=
  ⟨fun _ => rfl, fun _ => rfl, fun _ => rfl⟩

abbrev Value.moved (image : ScopeId → ScopeId) : Value → Value :=
  Value.mapFunction (Closure.moved image)

def Scope.moved (image : ScopeId → ScopeId) (s : Scope) : Scope :=
  ⟨mapBindings (Closure.moved image) s.bindings, s.enclosing.map image⟩

/-- Which scopes of a store are left out, and where the others are found without them. -/
structure Collapse where
  /-- How many scopes of the store the collapse speaks of. -/
  size : Nat
  /-- The scope that stands for a scope. For one that is left out it is the one that stands for the
  scope around it. -/
  image : ScopeId → ScopeId
  /-- The scopes that are left out. -/
  dropped : ScopeId → Prop

section

variable {image image' : ScopeId → ScopeId} {size : Nat}

theorem Value.moved_congr {v : Value} (hv : v.ScopeBelow size)
    (h : ∀ id < size, image' id = image id) : v.moved image' = v.moved image := by
  cases v with
  | function f => simp only [moved, mapFunction, Closure.moved, h f.scope (hv f rfl)]
  | _ => rfl

theorem Value.moved_self (v : Value) : v.moved (fun id => id) = v := by
  cases v <;> rfl

theorem Scope.moved_self (scope : Scope) : scope.moved (fun id => id) = scope := by
  have hbindings : mapBindings (Closure.moved fun id => id) scope.bindings = scope.bindings :=
    List.map_id'' (fun b => congrArg (b.1, ·) b.2.moved_self) scope.bindings
  rw [moved, hbindings, Option.map_id']

theorem Value.ScopeBelow.mono {v : Value} {size' : Nat} (hv : v.ScopeBelow size)
    (h : size ≤ size') : v.ScopeBelow size' :=
  fun f hf => Nat.lt_of_lt_of_le (hv f hf) h

/-- What values are moved to has scopes among the images. -/
theorem Value.ScopeBelow.moved {v : Value} {size' : Nat} (hv : v.ScopeBelow size)
    (h : ∀ id < size, image id < size') : (v.moved image).ScopeBelow size' := by
  cases v with
  | function f =>
    rintro _ ⟨⟩
    exact h f.scope (hv f rfl)
  | _ =>
    rintro f ⟨⟩

theorem mapBindings_moved_congr {bindings : List (String × Value)}
    (hbindings : ∀ b ∈ bindings, b.2.ScopeBelow size) (h : ∀ id < size, image' id = image id) :
    mapBindings (Closure.moved image') bindings = mapBindings (Closure.moved image) bindings :=
  List.map_congr_left fun b hb => congrArg (b.1, ·) (Value.moved_congr (hbindings b hb) h)

theorem Scope.moved_congr {scope : Scope}
    (hbindings : ∀ b ∈ scope.bindings, b.2.ScopeBelow size)
    (henclosing : ∀ outer, scope.enclosing = some outer → outer < size)
    (h : ∀ id < size, image' id = image id) : scope.moved image' = scope.moved image := by
  rw [moved, moved, mapBindings_moved_congr hbindings h]
  cases houter : scope.enclosing with
  | none => rfl
  | some outer => rw [Option.map_some, Option.map_some, h outer (henclosing outer houter)]

@[simp] theorem Scope.find?_moved (scope : Scope) (name : String) :
    (scope.moved image).find? name = (scope.find? name).map (Value.moved image) :=
  lookup_mapBindings _ name scope.bindings

theorem Scope.define_moved (scope : Scope) (name : String) (v : Value) :
    (scope.moved image).define name (v.moved image) = (scope.define name v).moved image := by
  rw [moved, moved, define, define, bind_mapBindings]

end

namespace Collapse

variable {w w' w'' : Collapse} {s s' : Store} {id owner : ScopeId} {name : String} {v : Value}

def Kept (w : Collapse) (id : ScopeId) : Prop := id < w.size ∧ ¬ w.dropped id

structure Grows (w w' : Collapse) : Prop where
  size : w.size ≤ w'.size
  image : ∀ id < w.size, w'.image id = w.image id
  dropped : ∀ id < w.size, (w'.dropped id ↔ w.dropped id)

namespace Grows

theorem refl (w : Collapse) : w.Grows w := ⟨Nat.le_refl _, fun _ _ => rfl, fun _ _ => Iff.rfl⟩

theorem trans (h : w.Grows w') (h' : w'.Grows w'') : w.Grows w'' where
  size := Nat.le_trans h.size h'.size
  image id hid := (h'.image id (Nat.lt_of_lt_of_le hid h.size)).trans (h.image id hid)
  dropped id hid := (h'.dropped id (Nat.lt_of_lt_of_le hid h.size)).trans (h.dropped id hid)

theorem kept (h : w.Grows w') (hid : w.Kept id) : w'.Kept id :=
  ⟨Nat.lt_of_lt_of_le hid.1 h.size, fun hdropped => hid.2 ((h.dropped id hid.1).1 hdropped)⟩

end Grows

/-- The second store is the first one without the scopes that are left out. -/
structure OfStores (w : Collapse) (s s' : Store) : Prop where
  size : s.scopes.size = w.size
  layered : s.Layered
  layered' : s'.Layered
  /-- The scopes that are not left out stand in the second store, in any order. -/
  kept {id : ScopeId} {scope : Scope} : ¬ w.dropped id → s.scopes[id]? = some scope →
    s'.scopes[w.image id]? = some (scope.moved w.image)
  injective {id id' : ScopeId} : w.Kept id → w.Kept id' → w.image id = w.image id' → id = id'
  surjective {id' : ScopeId} : id' < s'.scopes.size → ∃ id, w.Kept id ∧ w.image id = id'
  /-- Only empty scopes inside others are left out. -/
  dropped {id : ScopeId} {scope : Scope} : w.dropped id → s.scopes[id]? = some scope →
    scope.bindings = [] ∧ ∃ outer, scope.enclosing = some outer ∧ w.image id = w.image outer

namespace OfStores

theorem lt_size {scope : Scope} (h : w.OfStores s s') (hscope : s.scopes[id]? = some scope) :
    id < w.size :=
  h.size ▸ Store.lt_size_of_getElem? hscope

theorem exists_scope (h : w.OfStores s s') (hid : id < w.size) :
    ∃ scope, s.scopes[id]? = some scope :=
  Store.exists_scope (h.size.symm ▸ hid)

/-- Each scope is stood for by one of the second store. -/
theorem image_lt (h : w.OfStores s s') (hid : id < w.size) : w.image id < s'.scopes.size := by
  induction id using Nat.strongRecOn with
  | ind id ih =>
    obtain ⟨scope, hscope⟩ := h.exists_scope hid
    by_cases hdropped : w.dropped id
    · obtain ⟨-, outer, houter, himage⟩ := h.dropped hdropped hscope
      have hlt : outer < id := h.layered.enclosing id scope hscope outer houter
      rw [himage]
      exact ih outer hlt (Nat.lt_trans hlt hid)
    · exact Store.lt_size_of_getElem? (h.kept hdropped hscope)

/-- A name means in the second store what stands for what it means in the first one. -/
theorem resolve (h : w.OfStores s s') (hid : id < w.size) :
    s'.resolve name (w.image id) = (s.resolve name id).map w.image := by
  induction id using Nat.strongRecOn with
  | ind id ih =>
    obtain ⟨scope, hscope⟩ := h.exists_scope hid
    rw [h.layered.resolve_eq hscope]
    by_cases hdropped : w.dropped id
    · obtain ⟨hempty, outer, houter, himage⟩ := h.dropped hdropped hscope
      have hlt : outer < id := h.layered.enclosing id scope hscope outer houter
      have hnone : scope.find? name = none := by rw [Scope.find?, hempty, List.lookup_nil]
      rw [himage, ih outer hlt (Nat.lt_trans hlt hid), hnone, houter]
      rfl
    · rw [h.layered'.resolve_eq (h.kept hdropped hscope), Scope.find?_moved, Option.isSome_map]
      split
      · rfl
      · rw [Scope.moved]
        cases houter : scope.enclosing with
        | none => rfl
        | some outer =>
          have hlt : outer < id := h.layered.enclosing id scope hscope outer houter
          exact ih outer hlt (Nat.lt_trans hlt hid)

/-- A scope that binds a name is not left out. -/
theorem kept_of_resolve (h : w.OfStores s s') (hresolve : s.resolve name id = some owner) :
    w.Kept owner := by
  obtain ⟨scope, hscope, hfind⟩ := Store.exists_of_nearest hresolve
  refine ⟨h.lt_size hscope, fun hdropped => ?_⟩
  rw [Scope.find?, (h.dropped hdropped hscope).1, List.lookup_nil] at hfind
  cases hfind

theorem get? (h : w.OfStores s s') (hid : id < w.size) :
    s'.get? (w.image id) name = (s.get? id name).map (Value.moved w.image) := by
  unfold Store.get?
  rw [h.resolve hid]
  cases hresolve : s.resolve name id with
  | none => rfl
  | some owner =>
    obtain ⟨hlt, hkept⟩ := h.kept_of_resolve hresolve
    obtain ⟨scope, hscope⟩ := h.exists_scope hlt
    simp only [Option.map_some, Option.bind_eq_bind, Option.bind_some, hscope, h.kept hkept hscope]
    exact scope.find?_moved name

theorem scopeBelow_of_get? (h : w.OfStores s s') (hget : s.get? id name = some v) :
    v.ScopeBelow w.size := by
  obtain ⟨owner, scope, -, hscope, hmem⟩ := Store.exists_of_get? hget
  exact h.size ▸ h.layered.functions owner scope hscope _ hmem

/-- Names are bound in the scopes that are not left out, and in what stands for them. -/
theorem define (h : w.OfStores s s') (hid : w.Kept id) (hv : v.ScopeBelow w.size) :
    w.OfStores (s.define id name v) (s'.define (w.image id) name (v.moved w.image)) where
  size := (Store.size_define _ _ _ _).trans h.size
  layered := h.layered.define (h.size.symm ▸ hv)
  layered' := h.layered'.define (hv.moved fun _ hlt => h.image_lt hlt)
  kept {other scope} hother hscope := by
    rw [Store.getElem?_define] at hscope ⊢
    by_cases heq : id = other
    · subst heq
      rw [if_pos rfl] at hscope ⊢
      obtain ⟨old, hold, rfl⟩ := Option.map_eq_some_iff.1 hscope
      rw [h.kept hid.2 hold, Option.map_some, Scope.define_moved]
    · rw [if_neg heq] at hscope
      have hne : w.image id ≠ w.image other := fun himage =>
        heq (h.injective hid ⟨h.lt_size hscope, hother⟩ himage)
      rw [if_neg hne, h.kept hother hscope]
  injective := h.injective
  surjective hid' := h.surjective (by rwa [Store.size_define] at hid')
  dropped {other scope} hother hscope := by
    have hne : id ≠ other := fun heq => hid.2 (heq ▸ hother)
    rw [Store.getElem?_define, if_neg hne] at hscope
    exact h.dropped hother hscope

end OfStores

/-- One more scope, which stands at `target` in the second store. -/
def keep (w : Collapse) (target : ScopeId) : Collapse where
  size := w.size + 1
  image id := if id = w.size then target else w.image id
  dropped id := id ≠ w.size ∧ w.dropped id

/-- One more scope, which is left out because it is empty, inside the scope `outer`. -/
def drop (w : Collapse) (outer : ScopeId) : Collapse where
  size := w.size + 1
  image id := if id = w.size then w.image outer else w.image id
  dropped id := id = w.size ∨ w.dropped id

theorem grows_keep (w : Collapse) (target : ScopeId) : w.Grows (w.keep target) where
  size := Nat.le_succ _
  image _ hid := if_neg (Nat.ne_of_lt hid)
  dropped _ hid := and_iff_right (Nat.ne_of_lt hid)

theorem grows_drop (w : Collapse) (outer : ScopeId) : w.Grows (w.drop outer) where
  size := Nat.le_succ _
  image _ hid := if_neg (Nat.ne_of_lt hid)
  dropped _ hid := or_iff_right (Nat.ne_of_lt hid)

theorem kept_keep (w : Collapse) (target : ScopeId) : (w.keep target).Kept w.size :=
  ⟨Nat.lt_succ_self _, fun h => h.1 rfl⟩

/-- An old scope is moved as before when there is one more. -/
theorem moved_of_grows (h : w.OfStores s s') (hw : w.Grows w') {scope : Scope}
    (hscope : s.scopes[id]? = some scope) : scope.moved w'.image = scope.moved w.image := by
  refine Scope.moved_congr ?_ ?_ hw.image
  · exact h.size ▸ h.layered.functions id scope hscope
  · exact fun outer houter => Nat.lt_trans (h.layered.enclosing id scope hscope outer houter)
      (h.lt_size hscope)

namespace OfStores

/-- A scope that is opened in both stores. -/
theorem openScope (h : w.OfStores s s') {bindings : List (String × Value)} {enclosing : ScopeId}
    (henclosing : enclosing < w.size) (hbindings : ∀ b ∈ bindings, b.2.ScopeBelow w.size) :
    (w.keep s'.scopes.size).OfStores (s.openScope bindings (some enclosing)).2
      (s'.openScope (mapBindings (Closure.moved w.image) bindings)
        (some (w.image enclosing))).2 where
  size := by rw [Store.size_openScope, h.size, keep]
  layered := h.layered.openScope (h.size.symm ▸ henclosing) (h.size.symm ▸ hbindings)
  layered' := by
    refine h.layered'.openScope (h.image_lt henclosing) fun b hb => ?_
    obtain ⟨b, hmem, rfl⟩ := List.mem_map.1 hb
    exact (hbindings b hmem).moved fun _ hlt => h.image_lt hlt
  kept {id scope} hid hscope := by
    have hgrows := w.grows_keep s'.scopes.size
    rw [Store.getElem?_openScope, h.size] at hscope
    rw [Store.getElem?_openScope]
    by_cases heq : id = w.size
    · rw [if_pos heq] at hscope
      cases hscope
      have hmoved : Scope.moved (w.keep s'.scopes.size).image ⟨bindings, some enclosing⟩ =
          Scope.moved w.image ⟨bindings, some enclosing⟩ := by
        refine Scope.moved_congr hbindings ?_ hgrows.image
        rintro _ ⟨⟩
        exact henclosing
      have himage : (w.keep s'.scopes.size).image id = s'.scopes.size := if_pos heq
      rw [if_pos himage, hmoved]
      rfl
    · rw [if_neg heq] at hscope
      have hlt : id < w.size := h.lt_size hscope
      have hne : w.image id ≠ s'.scopes.size := Nat.ne_of_lt (h.image_lt hlt)
      rw [hgrows.image id hlt, if_neg hne, moved_of_grows h hgrows hscope]
      exact h.kept (fun hdropped => hid ⟨heq, hdropped⟩) hscope
  injective {id id'} hid hid' himage := by
    have hold : ∀ {id}, (w.keep s'.scopes.size).Kept id → id ≠ w.size → w.Kept id :=
      fun hid hne => ⟨Nat.lt_of_le_of_ne (Nat.le_of_lt_succ hid.1) hne,
        fun hdropped => hid.2 ⟨hne, hdropped⟩⟩
    simp only [keep] at himage
    by_cases heq : id = w.size
    · by_cases heq' : id' = w.size
      · rw [heq, heq']
      · rw [if_pos heq, if_neg heq'] at himage
        exact absurd himage.symm (Nat.ne_of_lt (h.image_lt (hold hid' heq').1))
    · by_cases heq' : id' = w.size
      · rw [if_neg heq, if_pos heq'] at himage
        exact absurd himage (Nat.ne_of_lt (h.image_lt (hold hid heq).1))
      · rw [if_neg heq, if_neg heq'] at himage
        exact h.injective (hold hid heq) (hold hid' heq') himage
  surjective {id'} hid' := by
    have hgrows := w.grows_keep s'.scopes.size
    rw [Store.size_openScope] at hid'
    by_cases heq : id' = s'.scopes.size
    · exact ⟨w.size, w.kept_keep _, (if_pos rfl).trans heq.symm⟩
    · obtain ⟨id, hkept, himage⟩ :=
        h.surjective (Nat.lt_of_le_of_ne (Nat.le_of_lt_succ hid') heq)
      exact ⟨id, hgrows.kept hkept, (hgrows.image id hkept.1).trans himage⟩
  dropped {id scope} hid hscope := by
    have hgrows := w.grows_keep s'.scopes.size
    rw [Store.getElem?_openScope, h.size, if_neg hid.1] at hscope
    obtain ⟨hempty, outer, houter, himage⟩ := h.dropped hid.2 hscope
    have hlt : id < w.size := h.lt_size hscope
    have hlt' : outer < w.size :=
      Nat.lt_trans (h.layered.enclosing id scope hscope outer houter) hlt
    exact ⟨hempty, outer, houter,
      (hgrows.image id hlt).trans (himage.trans (hgrows.image outer hlt').symm)⟩

/-- An empty scope that is opened in the first store only. -/
theorem openEmpty (h : w.OfStores s s') {outer : ScopeId} (houter : outer < w.size) :
    (w.drop outer).OfStores (s.openScope [] (some outer)).2 s' where
  size := by rw [Store.size_openScope, h.size, drop]
  layered := h.layered.openScope (h.size.symm ▸ houter) (by simp)
  layered' := h.layered'
  kept {id scope} hid hscope := by
    have hgrows := w.grows_drop outer
    have hne : id ≠ w.size := fun heq => hid (Or.inl heq)
    rw [Store.getElem?_openScope, h.size, if_neg hne] at hscope
    rw [hgrows.image id (h.lt_size hscope), moved_of_grows h hgrows hscope]
    exact h.kept (fun hdropped => hid (Or.inr hdropped)) hscope
  injective {id id'} hid hid' himage := by
    have hold : ∀ {id}, (w.drop outer).Kept id → w.Kept id := fun hid =>
      ⟨Nat.lt_of_le_of_ne (Nat.le_of_lt_succ hid.1) fun heq => hid.2 (Or.inl heq),
        fun hdropped => hid.2 (Or.inr hdropped)⟩
    have hgrows := w.grows_drop outer
    rw [hgrows.image id (hold hid).1, hgrows.image id' (hold hid').1] at himage
    exact h.injective (hold hid) (hold hid') himage
  surjective hid' := by
    obtain ⟨id, hkept, himage⟩ := h.surjective hid'
    have hgrows := w.grows_drop outer
    exact ⟨id, hgrows.kept hkept, (hgrows.image id hkept.1).trans himage⟩
  dropped {id scope} hid hscope := by
    have hgrows := w.grows_drop outer
    rw [Store.getElem?_openScope, h.size] at hscope
    by_cases heq : id = w.size
    · rw [if_pos heq] at hscope
      cases hscope
      exact ⟨rfl, outer, rfl, (if_pos heq).trans (hgrows.image outer houter).symm⟩
    · rw [if_neg heq] at hscope
      obtain ⟨hempty, around, haround, himage⟩ := h.dropped (hid.resolve_left heq) hscope
      have hlt : id < w.size := h.lt_size hscope
      have hlt' : around < w.size :=
        Nat.lt_trans (h.layered.enclosing id scope hscope around haround) hlt
      exact ⟨hempty, around, haround,
        (hgrows.image id hlt).trans (himage.trans (hgrows.image around hlt').symm)⟩

end OfStores

def whole (size : Nat) : Collapse := ⟨size, fun id => id, fun _ => False⟩

theorem ofStores_whole (h : s.Layered) : (whole s.scopes.size).OfStores s s where
  size := rfl
  layered := h
  layered' := h
  kept {id scope} _ hscope := by rw [whole, Scope.moved_self, hscope]
  injective _ _ himage := himage
  surjective {id'} hid' := ⟨id', ⟨hid', fun h => h⟩, rfl⟩
  dropped hid := hid.elim

end Collapse

end Lox
