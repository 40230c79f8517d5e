import LoxInterpreter.Proofs.Runtime.RunsKeep
import LoxInterpreter.Proofs.Runtime.Scopes

/-!
Reachable scopes. From a scope one gets to the scope around it and to the scopes of the functions
that are bound in it. A part of a run that begins in some scopes, with some functions in its hands,
stays within the scopes that can be reached from there and those that it opens itself. It leaves
all other scopes as they are.
-/

namespace Lox

def Value.scope? : Value → Option ScopeId
  | .function f => some f.scope
  | _ => none

/-- The scopes that a scope leads to: the one around it, and those of the functions bound in it. -/
def Scope.links (s : Scope) : List ScopeId :=
  s.enclosing.toList ++ s.bindings.filterMap fun b => b.2.scope?

inductive Store.Reachable (s : Store) (roots : List ScopeId) : ScopeId → Prop
  | root {id : ScopeId} (h : id ∈ roots) : Reachable s roots id
  | link {id next : ScopeId} {scope : Scope} (h : Reachable s roots id)
      (hscope : s.scopes[id]? = some scope) (hnext : next ∈ scope.links) : Reachable s roots next

theorem Scope.mem_links_define {s : Scope} {name : String} {v : Value} {next : ScopeId}
    (h : next ∈ (s.define name v).links) : v.scope? = some next ∨ next ∈ s.links := by
  rcases List.mem_append.1 h with h | h
  · exact Or.inr (List.mem_append_left _ h)
  · obtain ⟨b, hb, hnext⟩ := List.mem_filterMap.1 h
    rcases mem_of_mem_bind hb with rfl | hb
    · exact Or.inl hnext
    · exact Or.inr (List.mem_append_right _ (List.mem_filterMap.2 ⟨b, hb, hnext⟩))

theorem Scope.mem_links_of_mem_bindings {s : Scope} {name : String} {f : Closure}
    (h : (name, .function f) ∈ s.bindings) : f.scope ∈ s.links :=
  List.mem_append_right _ (List.mem_filterMap.2 ⟨_, h, rfl⟩)

namespace Machine

/-- A scope can be reached in the store of `m₀`, or is one of those opened since then, when there
are `n` scopes. -/
def Accessible (m₀ : Machine) (roots : List ScopeId) (n : Nat) (id : ScopeId) : Prop :=
  m₀.store.Reachable roots id ∨ m₀.store.scopes.size ≤ id ∧ id < n

theorem Accessible.mono {m₀ : Machine} {roots : List ScopeId} {n n' : Nat} {id : ScopeId}
    (hn : n ≤ n') (h : m₀.Accessible roots n id) : m₀.Accessible roots n' id :=
  h.imp_right fun h => ⟨h.1, Nat.lt_of_lt_of_le h.2 hn⟩

structure Confined (m₀ : Machine) (roots : List ScopeId) (n : Nat) (m : Machine) : Prop where
  size : m.store.scopes.size = n
  le_size : m₀.store.scopes.size ≤ n
  links : m.store.All fun id scope => m₀.Accessible roots n id →
    ∀ next ∈ scope.links, m₀.Accessible roots n next
  others : ∀ id, id < m₀.store.scopes.size → ¬ m₀.store.Reachable roots id →
    m.store.scopes[id]? = m₀.store.scopes[id]?

namespace Confined

variable {m₀ m : Machine} {roots : List ScopeId} {n : Nat} {id : ScopeId} {name : String}
  {v : Value}

theorem start (m₀ : Machine) (roots : List ScopeId) :
    Confined m₀ roots m₀.store.scopes.size m₀ where
  size := rfl
  le_size := Nat.le_refl _
  links := by
    intro id scope hscope haccessible next hnext
    rcases haccessible with hreachable | ⟨hle, hlt⟩
    · exact Or.inl (hreachable.link hscope hnext)
    · exact absurd hlt (Nat.not_lt.2 hle)
  others _ _ _ := rfl

theorem resolve (h : Confined m₀ roots n m) (hid : m₀.Accessible roots n id) {owner : ScopeId}
    (howner : m.store.resolve name id = some owner) : m₀.Accessible roots n owner := by
  refine Store.mem_of_nearest ?_ hid howner
  intro id scope hscope hid outer houter
  exact h.links id scope hscope hid outer (List.mem_append_left _ (by simp [houter]))

theorem get (h : Confined m₀ roots n m) (hid : m₀.Accessible roots n id) {f : Closure}
    (hget : m.store.get? id name = some (.function f)) : m₀.Accessible roots n f.scope := by
  obtain ⟨owner, scope, howner, hscope, hmem⟩ := Store.exists_of_get? hget
  exact h.links owner scope hscope (h.resolve hid howner) f.scope
    (Scope.mem_links_of_mem_bindings hmem)

theorem define (h : Confined m₀ roots n m) (hid : m₀.Accessible roots n id)
    (hv : ∀ f, v = .function f → m₀.Accessible roots n f.scope) :
    Confined m₀ roots n { m with store := m.store.define id name v } where
  size := by
    rw [Store.size_define]
    exact h.size
  le_size := h.le_size
  links := by
    refine h.links.define ?_
    intro scope hlinks hid next hnext
    rcases Scope.mem_links_define hnext with hscope | hnext
    · cases v <;> cases hscope
      exact hv _ rfl
    · exact hlinks hid next hnext
  others := by
    intro other hlt hother
    have hne : id ≠ other := by
      rintro rfl
      rcases hid with hreachable | ⟨hle, -⟩
      · exact hother hreachable
      · omega
    rw [Store.getElem?_define, if_neg hne]
    exact h.others other hlt hother

theorem openScope (h : Confined m₀ roots n m) (hid : m₀.Accessible roots n id)
    {bindings : List (String × Value)}
    (hbindings : ∀ b ∈ bindings, ∀ f, b.2 = .function f → m₀.Accessible roots n f.scope) :
    Confined m₀ roots (n + 1) { m with
      store := (m.store.openScope bindings (some id)).2
      current := m.store.scopes.size } where
  size := by
    rw [Store.size_openScope, h.size]
  le_size := Nat.le_succ_of_le h.le_size
  links := by
    refine Store.All.openScope ?_ ?_
    · intro other scope hscope hother next hnext
      -- The number of a scope that is there already is not that of the new one.
      have hlt : other < m.store.scopes.size := (Array.getElem?_eq_some_iff.1 hscope).1
      have hold : m₀.Accessible roots n other := hother.imp_right fun hr => ⟨hr.1, h.size ▸ hlt⟩
      exact (h.links other scope hscope hold next hnext).mono (Nat.le_succ n)
    · intro _ next hnext
      refine Accessible.mono (Nat.le_succ n) ?_
      rcases List.mem_append.1 hnext with hnext | hnext
      · cases Option.mem_toList.1 hnext
        exact hid
      · obtain ⟨⟨b, v⟩, hb, hscope⟩ := List.mem_filterMap.1 hnext
        cases v <;> cases hscope
        exact hbindings _ hb _ rfl
  others := by
    intro other hlt hother
    have hne : other ≠ m.store.scopes.size := by
      rw [h.size]
      exact Nat.ne_of_lt (Nat.lt_of_lt_of_le hlt h.le_size)
    rw [Store.getElem?_openScope, if_neg hne]
    exact h.others other hlt hother

end Confined

/-- What is known of a run that began with the machine `m₀` and with some scopes at hand. The world
is the number of scopes. -/
def confinement (m₀ : Machine) (roots : List ScopeId) : Invariant Nat where
  grows n n' := n ≤ n'
  machine := Confined m₀ roots
  seen := m₀.Accessible roots
  owned := m₀.Accessible roots
  closure n f := m₀.Accessible roots n f.scope
  node _ := True
  halt _ := True

theorem kept_confinement (m₀ : Machine) (roots : List ScopeId) :
    (confinement m₀ roots).Kept where
  refl := Nat.le_refl
  trans := Nat.le_trans
  seen_mono := Accessible.mono
  owned_mono := Accessible.mono
  closure_mono := Accessible.mono
  seen_of_owned h := h
  seen_scope h := h
  body _ _ _ _ _ := ⟨trivial, fun _ _ _ _ => trivial⟩
  get hm hc hget := hm.get hc hget
  assign hm hc hresolve hv := hm.define (hm.resolve hc hresolve) hv
  define hm hc hv := hm.define hc hv
  makeFunction hm hc _ := ⟨_, Nat.le_refl _, ⟨hm.size, hm.le_size, hm.links, hm.others⟩, hc⟩
  print hm := ⟨hm.size, hm.le_size, hm.links, hm.others⟩
  readClock hm := ⟨hm.size, hm.le_size, hm.links, hm.others⟩
  openScope {n m bindings enclosing} hm hseen hbindings := by
    refine ⟨n + 1, Nat.le_succ n, Or.inr ⟨?_, ?_⟩, hm.openScope hseen hbindings⟩
    · exact hm.size ▸ hm.le_size
    · exact hm.size ▸ Nat.lt_succ_self _
  leave hm := ⟨hm.size, hm.le_size, hm.links, hm.others⟩
  exhausted := trivial
  recursion := trivial
  unbound _ := trivial
  unboundTarget _ := trivial
  unaryFault _ _ := trivial
  binaryFault _ _ := trivial
  callFault _ _ := trivial

/-- A part of a run that keeps the confinement to some scopes leaves the others as they are. -/
theorem getElem?_after_of_keeps {α : Type} {r : Run α} {Q : Nat → α → Prop} {m : Machine}
    {roots : List ScopeId}
    (h : (confinement m roots).Keeps m.store.scopes.size m.current r Q) {id : ScopeId}
    (hid : id < m.store.scopes.size) (hunreachable : ¬ m.store.Reachable roots id) :
    (r.after m).store.scopes[id]? = m.store.scopes[id]? := by
  obtain ⟨n, -, hconfined⟩ := h.after (Confined.start m roots) rfl
  exact hconfined.others id hid hunreachable

/-- What such a part of a run gives belongs to the scopes that are there in the end. -/
theorem accessible_of_keeps {α : Type} {r : Run α} {Q : Nat → α → Prop} {m m' : Machine}
    {roots : List ScopeId}
    (h : (confinement m roots).Keeps m.store.scopes.size m.current r Q) {a : α}
    (hrun : r m = .ok a m') : Q m'.store.scopes.size a := by
  obtain ⟨n, -, hconfined, ha⟩ := h.ok (Confined.start m roots) rfl hrun
  exact hconfined.size ▸ ha

variable (fuel : Nat) (room : Room) (m : Machine)

theorem execute_confined (s : Stmt) :
    (confinement m [m.current]).Keeps m.store.scopes.size m.current (Run.execute fuel room s)
      (confinement m [m.current]).completion := by
  have hcurrent : m.Accessible [m.current] m.store.scopes.size m.current :=
    Or.inl (.root List.mem_cons_self)
  exact ((kept_confinement m [m.current]).keptWith fuel).execute room hcurrent (fun _ => hcurrent)
    fun _ _ => ⟨trivial, fun _ _ _ _ => trivial⟩

theorem evaluate_confined (e : Expr) :
    (confinement m [m.current]).Keeps m.store.scopes.size m.current (Run.evaluate fuel room e)
      (confinement m [m.current]).value := by
  have hcurrent : m.Accessible [m.current] m.store.scopes.size m.current :=
    Or.inl (.root List.mem_cons_self)
  exact ((kept_confinement m [m.current]).keptWith fuel).evaluate room hcurrent
    fun _ _ => trivial

theorem call_confined (f : Value) (paren : Token) (args : List Value) :
    (confinement m ((f :: args).filterMap Value.scope?)).Keeps m.store.scopes.size m.current
      (Run.call fuel room f paren args)
      (confinement m ((f :: args).filterMap Value.scope?)).value := by
  have hvalues : ∀ v ∈ f :: args,
      (confinement m ((f :: args).filterMap Value.scope?)).value m.store.scopes.size v := by
    rintro _ hv g rfl
    exact Or.inl (.root (List.mem_filterMap.2 ⟨_, hv, rfl⟩))
  exact ((kept_confinement m _).keptWith fuel).call room (hvalues f List.mem_cons_self)
    (fun v hv => hvalues v (List.mem_cons_of_mem f hv)) fun _ _ => trivial

end Machine

open Machine

/-- A scope that cannot be reached from the current one is left as it is by whatever is executed or
evaluated, and by a call if it cannot be reached from the function and its arguments. A function
that results has a scope that could be reached or was opened on the way. -/
theorem unreachable_scopes_untouched :
    (∀ fuel room s m id, id < m.store.scopes.size → ¬ m.store.Reachable [m.current] id →
      ((Run.execute fuel room s).after m).store.scopes[id]? = m.store.scopes[id]?) ∧
    (∀ fuel room e m id, id < m.store.scopes.size → ¬ m.store.Reachable [m.current] id →
      ((Run.evaluate fuel room e).after m).store.scopes[id]? = m.store.scopes[id]?) ∧
    (∀ fuel room f paren args m id, id < m.store.scopes.size →
      ¬ m.store.Reachable ((f :: args).filterMap Value.scope?) id →
      ((Run.call fuel room f paren args).after m).store.scopes[id]? = m.store.scopes[id]?) ∧
    (∀ fuel room s m m' f,
      Run.execute fuel room s m = .ok (.returned (.function f)) m' →
      m.store.Reachable [m.current] f.scope ∨
        m.store.scopes.size ≤ f.scope ∧ f.scope < m'.store.scopes.size) ∧
    (∀ fuel room e m m' f, Run.evaluate fuel room e m = .ok (.function f) m' →
      m.store.Reachable [m.current] f.scope ∨
        m.store.scopes.size ≤ f.scope ∧ f.scope < m'.store.scopes.size) ∧
    (∀ fuel room g paren args m m' f,
      Run.call fuel room g paren args m = .ok (.function f) m' →
      m.store.Reachable ((g :: args).filterMap Value.scope?) f.scope ∨
        m.store.scopes.size ≤ f.scope ∧ f.scope < m'.store.scopes.size) := by
  refine ⟨?_, ?_, ?_, ?_, ?_, ?_⟩
  · exact fun fuel room s m id => getElem?_after_of_keeps (execute_confined fuel room m s)
  · exact fun fuel room e m id => getElem?_after_of_keeps (evaluate_confined fuel room m e)
  · exact fun fuel room f paren args m id =>
      getElem?_after_of_keeps (call_confined fuel room m f paren args)
  · exact fun fuel room s m m' f hrun =>
      accessible_of_keeps (execute_confined fuel room m s) hrun _ rfl f rfl
  · exact fun fuel room e m m' f hrun =>
      accessible_of_keeps (evaluate_confined fuel room m e) hrun f rfl
  · exact fun fuel room g paren args m m' f hrun =>
      accessible_of_keeps (call_confined fuel room m g paren args) hrun f rfl

/-- Of two scopes inside the global one, a function with the first of them changes what is bound
there, and leaves the second one as it is. -/
theorem unreachable_scopes_untouched_pair :
    let name : Token := ⟨.identifier, "n", .nil, 1, none⟩
    let f : Closure := ⟨0, name, [], [.expression (.assign name (.literal .nil))], 1⟩
    let scope : Scope := ⟨[("n", .bool true)], some 0⟩
    let m : Machine :=
      { Machine.start fun _ => 0 with store := ⟨#[⟨[], none⟩, scope, scope]⟩ }
    let m' := (Run.call 9 ⟨1, 9⟩ (.function f) name []).after m
    2 < m.store.scopes.size ∧ ¬ m.store.Reachable [1] 2 ∧
      m'.store.scopes[2]? = some scope ∧
      m'.store.scopes[1]? = some ⟨[("n", .nil)], some 0⟩ := by
  intro name f scope m m'
  have hsize : 2 < m.store.scopes.size := by decide
  have hreachable : ∀ id, m.store.Reachable [1] id → id < 2 := by
    intro id h
    induction h with
    | root h =>
      cases List.mem_singleton.1 h
      decide
    | @link id next s _ hscope hnext ih =>
      rcases Nat.le_one_iff_eq_zero_or_eq_one.1 (Nat.lt_succ_iff.1 ih) with rfl | rfl
      · cases hscope
        cases hnext
      · cases hscope
        cases List.mem_singleton.1 hnext
        decide
  have hunreachable : ¬ m.store.Reachable [1] 2 := fun h => absurd (hreachable 2 h) (by decide)
  refine ⟨hsize, hunreachable, ?_, rfl⟩
  exact unreachable_scopes_untouched.2.2.1 9 ⟨1, 9⟩ (.function f) name [] m 2 hsize hunreachable

end Lox
