import LoxInterpreter.Proofs.Runtime.Moments
import LoxInterpreter.Proofs.Runtime.RunsKeep

/-!
The layers of a store. In all states that runs reach, a scope was opened inside an older one, and
functions close over scopes that are there. So going outwards ends, and what a name means in a
scope is said by that scope and by what the name means in the scope around it.
-/

namespace Lox

def Value.ScopeBelow (size : Nat) (v : Value) : Prop := ∀ f, v = .function f → f.scope < size

namespace Store

/-- Scopes are inside older ones, and the functions in them close over scopes that are there. -/
structure Layered (s : Store) : Prop where
  enclosing : s.All fun id scope => ∀ outer, scope.enclosing = some outer → outer < id
  functions : s.All fun _ scope => ∀ b ∈ scope.bindings, b.2.ScopeBelow s.scopes.size

variable {s s' : Store} {id : ScopeId} {name : String} {v : Value}

theorem lt_size_of_getElem? {scope : Scope} (h : s.scopes[id]? = some scope) :
    id < s.scopes.size :=
  (Array.getElem?_eq_some_iff.1 h).1

theorem exists_scope (h : id < s.scopes.size) : ∃ scope, s.scopes[id]? = some scope :=
  ⟨_, Array.getElem?_eq_getElem h⟩

namespace Layered

theorem initial : Store.initial.Layered := by
  constructor
  · rintro (_ | id) scope hscope outer houter
    · cases hscope
      cases houter
    · cases hscope
  · rintro (_ | id) scope hscope b hb f hf
    · cases hscope
      rw [List.mem_singleton.1 hb] at hf
      cases hf
    · cases hscope

theorem define (h : s.Layered) (hv : v.ScopeBelow s.scopes.size) :
    (s.define id name v).Layered := by
  refine ⟨h.enclosing.define fun scope hscope => hscope, ?_⟩
  rw [size_define]
  refine h.functions.define fun scope hscope b hb => ?_
  rcases mem_of_mem_bind hb with rfl | hb
  · exact hv
  · exact hscope b hb

theorem openScope (h : s.Layered) {bindings : List (String × Value)} {enclosing : ScopeId}
    (henclosing : enclosing < s.scopes.size)
    (hbindings : ∀ b ∈ bindings, b.2.ScopeBelow s.scopes.size) :
    (s.openScope bindings (some enclosing)).2.Layered := by
  have hmore : ∀ v : Value, v.ScopeBelow s.scopes.size → v.ScopeBelow (s.scopes.size + 1) :=
    fun v hv f hf => Nat.lt_succ_of_lt (hv f hf)
  constructor
  · refine h.enclosing.openScope ?_
    rintro outer ⟨⟩
    exact henclosing
  · rw [size_openScope]
    have hold : s.All fun _ scope => ∀ b ∈ scope.bindings, b.2.ScopeBelow (s.scopes.size + 1) :=
      fun id scope hscope b hb => hmore b.2 (h.functions id scope hscope b hb)
    exact hold.openScope fun b hb => hmore b.2 (hbindings b hb)

theorem nearest_eq (h : s.Layered) {steps steps' : Nat} (hsteps : id < steps)
    (hsteps' : id < steps') : s.nearest name steps id = s.nearest name steps' id := by
  induction steps generalizing id steps' with
  | zero => exact absurd hsteps (Nat.not_lt_zero id)
  | succ steps ih =>
    obtain ⟨steps', rfl⟩ := Nat.exists_eq_succ_of_ne_zero (Nat.ne_zero_of_lt hsteps')
    rw [nearest, nearest]
    cases hscope : s.scopes[id]? with
    | none => rfl
    | some scope =>
      cases houter : scope.enclosing with
      | none => simp only [houter]
      | some outer =>
        have hlt : outer < id := h.enclosing id scope hscope outer houter
        simp only [houter]
        rw [ih (Nat.lt_of_lt_of_le hlt (Nat.le_of_lt_succ hsteps))
          (Nat.lt_of_lt_of_le hlt (Nat.le_of_lt_succ hsteps'))]

/-- A name means the scope itself if that binds it, and else what it means around it. -/
theorem resolve_eq (h : s.Layered) {scope : Scope} (hscope : s.scopes[id]? = some scope) :
    s.resolve name id = if (scope.find? name).isSome then some id
      else scope.enclosing.bind (s.resolve name) := by
  rw [resolve, nearest, hscope]
  dsimp only
  congr 1
  cases houter : scope.enclosing with
  | none => rfl
  | some outer =>
    have hlt : outer < id := h.enclosing id scope hscope outer houter
    exact h.nearest_eq hlt (Nat.lt_succ_self outer)

/-- What names mean is said by the names and by the links of the scopes. -/
theorem resolve_congr (h : s.Layered) (h' : s'.Layered)
    (hsame : ∀ (id : ScopeId) (scope : Scope), s.scopes[id]? = some scope →
      ∃ scope' : Scope, s'.scopes[id]? = some scope' ∧ scope'.enclosing = scope.enclosing ∧
        (scope'.find? name).isSome = (scope.find? name).isSome)
    (hid : id < s.scopes.size) : s'.resolve name id = s.resolve name id := by
  induction id using Nat.strongRecOn with
  | ind id ih =>
    obtain ⟨scope, hscope⟩ := exists_scope hid
    obtain ⟨scope', hscope', henclosing, hfind⟩ := hsame id scope hscope
    rw [h.resolve_eq hscope, h'.resolve_eq hscope', hfind, henclosing]
    cases houter : scope.enclosing with
    | none => rfl
    | some outer =>
      have hlt : outer < id := h.enclosing id scope hscope outer houter
      simp only [Option.bind_some, ih outer hlt (Nat.lt_trans hlt hid)]

end Layered

end Store

namespace Machine

/-- The machine is in a scope of its store, which has layers. -/
structure Layered (m : Machine) : Prop where
  store : m.store.Layered
  current : m.current < m.store.scopes.size

def layering : Invariant Nat where
  grows n n' := n ≤ n'
  machine n m := m.store.scopes.size = n ∧ m.store.Layered
  seen n c := c < n
  owned n c := c < n
  closure n f := f.scope < n
  node _ := True
  halt _ := True

theorem kept_layering : layering.Kept where
  refl := Nat.le_refl
  trans := Nat.le_trans
  seen_mono hle h := Nat.lt_of_lt_of_le h hle
  owned_mono hle h := Nat.lt_of_lt_of_le h hle
  closure_mono hle h := Nat.lt_of_lt_of_le h hle
  seen_of_owned h := h
  seen_scope h := h
  body _ _ _ _ _ := ⟨trivial, fun _ _ _ _ => trivial⟩
  get := by
    rintro n m name f ⟨rfl, hm⟩ - hget
    obtain ⟨owner, scope, -, hscope, hmem⟩ := Store.exists_of_get? hget
    exact hm.functions owner scope hscope _ hmem f rfl
  assign := by
    rintro n m name owner v ⟨rfl, hm⟩ - - hv
    exact ⟨Store.size_define _ _ _ _, hm.define hv⟩
  define := by
    rintro n m name v ⟨rfl, hm⟩ - hv
    exact ⟨Store.size_define _ _ _ _, hm.define hv⟩
  makeFunction hm hc _ := ⟨_, Nat.le_refl _, hm, hc⟩
  print hm := hm
  readClock hm := hm
  openScope := by
    rintro n m bindings enclosing ⟨rfl, hm⟩ henclosing hbindings
    exact ⟨m.store.scopes.size + 1, Nat.le_succ _, Nat.lt_succ_self _,
      Store.size_openScope _ _ _, hm.openScope henclosing hbindings⟩
  leave hm := hm
  exhausted := trivial
  recursion := trivial
  unbound _ := trivial
  unboundTarget _ := trivial
  unaryFault _ _ := trivial
  binaryFault _ _ := trivial
  callFault _ _ := trivial

namespace Layered

variable {α : Type} {r : Run α} {m m' : Machine} {Q : Nat → α → Prop}

theorem start (clock : Nat → Float) : (Machine.start clock).Layered :=
  ⟨.initial, Nat.zero_lt_one⟩

theorem opened (hm : m.Layered) {bindings : List (String × Value)} {enclosing : ScopeId}
    (henclosing : enclosing < m.store.scopes.size)
    (hbindings : ∀ b ∈ bindings, b.2.ScopeBelow m.store.scopes.size) :
    (Trace.opened bindings enclosing m).Layered := by
  refine ⟨hm.store.openScope henclosing hbindings, ?_⟩
  rw [Trace.opened, Store.size_openScope]
  exact Nat.lt_succ_self _

/-- A part of a run that keeps to the layers leaves a machine with layers. -/
theorem of_keeps (hm : m.Layered) (h : layering.Keeps m.store.scopes.size m.current r Q)
    (hcurrent : (r.after m).current = m.current) : (r.after m).Layered := by
  obtain ⟨n, hle, hsize, hstore⟩ := h.after ⟨rfl, hm.store⟩ rfl
  refine ⟨hstore, ?_⟩
  rw [hcurrent, hsize]
  exact Nat.lt_of_lt_of_le hm.current hle

theorem after_evaluate (hm : m.Layered) (fuel : Nat) (room : Room) (e : Expr) :
    ((Run.evaluate fuel room e).after m).Layered :=
  hm.of_keeps ((kept_layering.keptWith fuel).evaluate room hm.current fun _ _ => trivial)
    ((Run.respectedWith Run.respected_current fuel).evaluate room e m)

theorem after_execute (hm : m.Layered) (fuel : Nat) (room : Room) (s : Stmt) :
    ((Run.execute fuel room s).after m).Layered :=
  hm.of_keeps ((kept_layering.keptWith fuel).execute room hm.current (fun _ => hm.current)
      fun _ _ => ⟨trivial, fun _ _ _ _ => trivial⟩)
    ((Run.respectedWith Run.respected_current fuel).execute room s m)

/-- A function that is called and its arguments have scopes of the store. -/
theorem opened_of_call (hm : m.Layered) {fuel : Nat} {room : Room} {callee : Expr}
    {arguments : List Expr} {f : Closure} {args : List Value} {m₁ m₂ : Machine}
    (hcallee : Run.evaluate fuel room callee m = .ok (.function f) m₁)
    (hargs : Run.evaluateAll fuel room arguments m₁ = .ok args m₂) :
    (Trace.opened (parameterBindings f.params args) f.scope m₂).Layered := by
  have hkept := kept_layering.keptWith fuel
  obtain ⟨n₁, hle₁, ⟨hsize₁, hstore₁⟩, hf⟩ :=
    (hkept.evaluate room hm.current fun _ _ => trivial).ok ⟨rfl, hm.store⟩ rfl hcallee
  have hcurrent₁ : m₁.current = m.current := by
    have hafter := (Run.respectedWith Run.respected_current fuel).evaluate room callee m
    rwa [Run.after, hcallee] at hafter
  have hseen : layering.seen n₁ m₁.current := by
    rw [hcurrent₁]
    exact Nat.lt_of_lt_of_le hm.current hle₁
  obtain ⟨n₂, hle₂, ⟨hsize₂, hstore₂⟩, hvs⟩ :=
    (hkept.evaluateAll room hseen fun _ _ _ _ => trivial).ok ⟨hsize₁, hstore₁⟩ rfl hargs
  have hcurrent₂ : m₂.current = m₁.current := by
    have hafter := (Run.respectedWith Run.respected_current fuel).evaluateAll room arguments m₁
    rwa [Run.after, hargs] at hafter
  have hlayered : m₂.Layered := by
    refine ⟨hstore₂, ?_⟩
    rw [hcurrent₂, hsize₂]
    exact Nat.lt_of_lt_of_le hseen hle₂
  refine hlayered.opened ?_ fun b hb => ?_
  · rw [hsize₂]
    exact Nat.lt_of_lt_of_le (hf f rfl) hle₂
  · rw [hsize₂]
    exact hvs b.2 (mem_args_of_mem_parameterBindings hb)

end Layered

/-- The states of machines in which an expression or a statement may be met: what programs,
statements and expressions lead to, however they end, the inside of a block, and the beginning of
the body of a function. -/
inductive Reached : Machine → Prop
  | start (clock : Nat → Float) : Reached (.start clock)
  | evaluated {m : Machine} (hm : Reached m) (fuel : Nat) (room : Room) (e : Expr) :
      Reached ((Run.evaluate fuel room e).after m)
  | executed {m : Machine} (hm : Reached m) (fuel : Nat) (room : Room) (s : Stmt) :
      Reached ((Run.execute fuel room s).after m)
  | block {m : Machine} (hm : Reached m) : Reached (Trace.opened [] m.current m)
  | called {m m₁ m₂ : Machine} (hm : Reached m) {fuel : Nat} {room : Room} {callee : Expr}
      {arguments : List Expr} {f : Closure} {args : List Value}
      (hcallee : Run.evaluate fuel room callee m = .ok (.function f) m₁)
      (hargs : Run.evaluateAll fuel room arguments m₁ = .ok args m₂) :
      Reached (Trace.opened (parameterBindings f.params args) f.scope m₂)

/-- All states that runs reach have layers. -/
theorem Reached.layered {m : Machine} (hm : m.Reached) : m.Layered := by
  induction hm with
  | start clock => exact .start clock
  | evaluated _ fuel room e ih => exact ih.after_evaluate fuel room e
  | executed _ fuel room s ih => exact ih.after_execute fuel room s
  | block _ ih => exact ih.opened ih.current (by simp)
  | called _ hcallee hargs ih => exact ih.opened_of_call hcallee hargs

end Machine

namespace Run

theorem respected_links : Respected fun m m' => m.store.SameLinks m'.store where
  refl m := .refl m.store
  trans h h' := h.trans h'
  define m id name v := (Store.Grown.define m.store id name v).sameLinks
  makeFunction m := .refl m.store
  print m _ := .refl m.store
  readClock m := .refl m.store
  inScope m bindings enclosing _ h :=
    (Store.Grown.openScope m.store bindings enclosing).sameLinks.trans h

end Run

end Lox
