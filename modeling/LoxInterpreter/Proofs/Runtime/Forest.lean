import LoxInterpreter.Proofs.Runtime.Names

/-!
Forests of scopes. Scopes are created inside older ones or inside none, and names are defined,
looked up and assigned in any of them. The chain of a scope consists of the scopes from it outwards.
What a name means in a scope is what it means in the nearest scope of the chain that binds it, and
since chains share scopes, what is written in one scope is seen from all scopes whose chains come to
it before they come to another one that binds the name.
-/

namespace Lox

namespace Store

variable {s s' : Store} {id outer owner f : ScopeId} {name other : String} {v : Value}
  {scopes : List ScopeId}

def valueIn (s : Store) (name : String) (id : ScopeId) : Option Value :=
  s.scopes[id]?.bind (·.find? name)

def binds (s : Store) (name : String) (id : ScopeId) : Bool := (s.valueIn name id).isSome

/-- The scopes from one scope outwards, up to one that is inside no other. -/
inductive IsChain (s : Store) : ScopeId → List ScopeId → Prop
  | last {id : ScopeId} {scope : Scope} (hscope : s.scopes[id]? = some scope)
      (houter : scope.enclosing = none) : IsChain s id [id]
  | next {id outer : ScopeId} {scope : Scope} {scopes : List ScopeId}
      (hscope : s.scopes[id]? = some scope) (houter : scope.enclosing = some outer)
      (h : IsChain s outer scopes) : IsChain s id (id :: scopes)

def namesIn (s : Store) (id : ScopeId) : List String := (s.names? id).getD []

def Ordered (s : Store) : Prop :=
  s.All fun id scope => ∀ outer, scope.enclosing = some outer → outer < id

/-! ### Chains -/

theorem binds_eq {scope : Scope} (hscope : s.scopes[id]? = some scope) :
    s.binds name id = (scope.find? name).isSome := by
  rw [binds, valueIn, hscope, Option.bind_some]

theorem Ordered.define (h : s.Ordered) : (s.define id name v).Ordered :=
  All.define h fun _ hscope => hscope

theorem Ordered.openScope (h : s.Ordered) {bindings : List (String × Value)}
    {enclosing : Option ScopeId} (henclosing : ∀ outer ∈ enclosing, outer < s.scopes.size) :
    (s.openScope bindings enclosing).2.Ordered :=
  All.openScope h henclosing

/-- Going outwards comes to an end. -/
theorem Ordered.exists_isChain (h : s.Ordered) (hid : id < s.scopes.size) :
    ∃ scopes, s.IsChain id scopes := by
  induction id using Nat.strongRecOn with
  | ind id ih =>
    have hscope : s.scopes[id]? = some s.scopes[id] := Array.getElem?_eq_getElem hid
    cases houter : s.scopes[id].enclosing with
    | none => exact ⟨_, .last hscope houter⟩
    | some outer =>
      have hlt : outer < id := h id _ hscope outer houter
      obtain ⟨scopes, hscopes⟩ := ih outer hlt (Nat.lt_trans hlt hid)
      exact ⟨_, .next hscope houter hscopes⟩

namespace IsChain

theorem length_le (h : s.IsChain id scopes) (hordered : s.Ordered) : scopes.length ≤ id + 1 := by
  induction h with
  | last => exact Nat.le_add_left 1 _
  | @next id outer _ _ hscope houter _ ih =>
    have hlt : outer < id := hordered id _ hscope outer houter
    exact Nat.succ_le_succ (Nat.le_trans ih hlt)

/-- With steps for the whole chain, a name is found in the nearest scope that binds it. -/
theorem nearest_eq (h : s.IsChain id scopes) {steps : Nat} (hsteps : scopes.length ≤ steps) :
    s.nearest name steps id = scopes.find? (s.binds name) := by
  induction h generalizing steps with
  | @last id scope hscope houter =>
    obtain ⟨steps, rfl⟩ := Nat.exists_eq_succ_of_ne_zero (Nat.ne_zero_of_lt hsteps)
    simp only [nearest, hscope, houter, List.find?_cons, List.find?_nil, binds_eq hscope]
    cases (scope.find? name).isSome <;> rfl
  | @next id outer scope scopes hscope houter _ ih =>
    obtain ⟨steps, rfl⟩ := Nat.exists_eq_add_of_le' (Nat.le_of_add_left_le hsteps)
    simp only [nearest, hscope, houter, List.find?_cons, binds_eq hscope,
      ih (Nat.le_of_succ_le_succ hsteps)]
    cases (scope.find? name).isSome <;> rfl

theorem resolve_eq (h : s.IsChain id scopes) (hordered : s.Ordered) :
    s.resolve name id = scopes.find? (s.binds name) :=
  h.nearest_eq (h.length_le hordered)

theorem get?_eq (h : s.IsChain id scopes) (hordered : s.Ordered) (name : String) :
    s.get? id name = scopes.findSome? (s.valueIn name) := by
  have hget : s.get? id name = (s.resolve name id).bind (s.valueIn name) := rfl
  rw [hget, h.resolve_eq hordered]
  clear h hget
  induction scopes with
  | nil => rfl
  | cons id scopes ih =>
    cases hvalue : s.valueIn name id with
    | none => simp [binds, hvalue, ← ih]
    | some v => simp [binds, hvalue]

/-- Definitions do not move scopes. -/
theorem define (h : s.IsChain id scopes) (other : ScopeId) (name : String) (v : Value) :
    (s.define other name v).IsChain id scopes := by
  have hmoved {id : ScopeId} {scope : Scope} (hscope : s.scopes[id]? = some scope) :
      ∃ scope', (s.define other name v).scopes[id]? = some scope' ∧
        scope'.enclosing = scope.enclosing := by
    rw [getElem?_define, hscope]
    split
    · exact ⟨_, rfl, rfl⟩
    · exact ⟨_, rfl, rfl⟩
  induction h with
  | last hscope houter =>
    obtain ⟨scope', hscope', heq⟩ := hmoved hscope
    exact .last hscope' (heq.trans houter)
  | next hscope houter _ ih =>
    obtain ⟨scope', hscope', heq⟩ := hmoved hscope
    exact .next hscope' (heq.trans houter) ih

end IsChain

/-! ### Writing -/

theorem valueIn_define (hid : id < s.scopes.size) (place : ScopeId) :
    (s.define id name v).valueIn other place =
      if other = name ∧ place = id then some v else s.valueIn other place := by
  unfold valueIn
  rw [getElem?_define]
  by_cases hplace : place = id
  · subst hplace
    rw [if_pos rfl, Array.getElem?_eq_getElem hid]
    by_cases hname : other = name
    · simp [hname]
    · simp [hname, Scope.find?_define_of_ne hname]
  · rw [if_neg (Ne.symm hplace), if_neg fun h => hplace h.2]

/-- The scope is in the chain, and none of those before it binds the name. -/
def Reaches (s : Store) (name : String) (scopes : List ScopeId) (id : ScopeId) : Prop :=
  id ∈ scopes ∧ ∀ nearer ∈ scopes.takeWhile (· ≠ id), s.binds name nearer = false

instance (s : Store) (name : String) (scopes : List ScopeId) :
    DecidablePred (s.Reaches name scopes) := fun _ => inferInstanceAs (Decidable (_ ∧ _))

theorem reaches_cons_self : s.Reaches name (id :: scopes) id := by simp [Reaches]

theorem reaches_cons_of_ne {place : ScopeId} (h : place ≠ id) :
    s.Reaches name (place :: scopes) id ↔
      s.binds name place = false ∧ s.Reaches name scopes id := by
  simp [Reaches, h, Ne.symm h, and_left_comm]

/-- A scope that binds the name is reached exactly if the name means what it means there. -/
theorem reaches_iff_find? (hid : s.binds name id = true) :
    s.Reaches name scopes id ↔ scopes.find? (s.binds name) = some id := by
  induction scopes with
  | nil => simp [Reaches]
  | cons place scopes ih =>
    by_cases hplace : place = id
    · subst hplace
      simp [reaches_cons_self, hid]
    · rw [reaches_cons_of_ne hplace, ih, List.find?_cons]
      cases s.binds name place <;> simp [hplace]

theorem findSome?_valueIn_define (hid : id < s.scopes.size) (scopes : List ScopeId) :
    scopes.findSome? ((s.define id name v).valueIn other) =
      if other = name ∧ s.Reaches name scopes id then some v
      else scopes.findSome? (s.valueIn other) := by
  by_cases hname : other = name
  · subst hname
    induction scopes with
    | nil => simp [Reaches]
    | cons place scopes ih =>
      by_cases hplace : place = id
      · subst hplace
        simp [valueIn_define hid, reaches_cons_self]
      · rw [List.findSome?_cons, List.findSome?_cons, ih, valueIn_define hid,
          if_neg fun h => hplace h.2]
        simp only [reaches_cons_of_ne hplace]
        cases hvalue : s.valueIn other place <;> simp [binds, hvalue]
  · rw [if_neg fun h => hname h.1]
    refine congrArg (scopes.findSome? ·) (funext fun place => ?_)
    rw [valueIn_define hid, if_neg fun h => hname h.1]

/-- A definition is seen from the scopes whose chains reach its scope. -/
theorem get?_define (hordered : s.Ordered) (hid : id < s.scopes.size) (hf : s.IsChain f scopes) :
    (s.define id name v).get? f other =
      if other = name ∧ s.Reaches name scopes id then some v else s.get? f other := by
  rw [(hf.define id name v).get?_eq hordered.define, hf.get?_eq hordered,
    findSome?_valueIn_define hid]

theorem resolve_eq_none_of_size_le (h : s.scopes.size ≤ id) : s.resolve name id = none := by
  rw [resolve, nearest, Array.getElem?_eq_none h]

theorem binds_of_resolve (h : s.resolve name id = some owner) : s.binds name owner = true := by
  obtain ⟨scope, hscope, hfind⟩ := exists_of_nearest h
  rw [binds, valueIn, hscope]
  exact hfind

theorem isSome_get? (s : Store) (id : ScopeId) (name : String) :
    (s.get? id name).isSome = (s.resolve name id).isSome := by
  have hget : s.get? id name = (s.resolve name id).bind (s.valueIn name) := rfl
  rw [hget]
  cases hresolve : s.resolve name id with
  | none => rfl
  | some owner => exact binds_of_resolve hresolve

theorem isSome_assign? (s : Store) (id : ScopeId) (name : String) (v : Value) :
    (s.assign? id name v).isSome = (s.get? id name).isSome := by
  rw [isSome_get?, assign?]
  cases s.resolve name id <;> rfl

theorem exists_of_assign? (h : s.assign? id name v = some s') :
    ∃ owner, s.resolve name id = some owner ∧ s' = s.define owner name v := by
  unfold assign? at h
  split at h
  next owner howner => exact ⟨owner, howner, (Option.some.inj h).symm⟩
  next => cases h

/-- An assignment is seen from the scopes in which the name means the same. -/
theorem get?_of_assign? (hordered : s.Ordered) (h : s.assign? id name v = some s') (f : ScopeId)
    (other : String) : s'.get? f other =
      if other = name ∧ s.resolve name f = s.resolve name id then some v else s.get? f other := by
  obtain ⟨owner, howner, rfl⟩ := exists_of_assign? h
  have hbinds := binds_of_resolve howner
  have hsize : owner < s.scopes.size := by
    obtain ⟨scope, hscope, -⟩ := exists_of_nearest howner
    exact (Array.getElem?_eq_some_iff.1 hscope).1
  rcases Nat.lt_or_ge f s.scopes.size with hf | hf
  · obtain ⟨scopes, hscopes⟩ := hordered.exists_isChain hf
    rw [get?_define hordered hsize hscopes, howner, hscopes.resolve_eq hordered]
    exact if_congr (and_congr_right fun _ => reaches_iff_find? hbinds) rfl rfl
  · have hnone {t : Store} (ht : t.scopes.size = s.scopes.size) : t.get? f other = none := by
      have hresolve : t.resolve other f = none := resolve_eq_none_of_size_le (ht ▸ hf)
      rw [get?, hresolve]
      rfl
    rw [hnone (size_define s owner name v), hnone rfl, resolve_eq_none_of_size_le hf, howner]
    simp

/-! ### Operations -/

inductive Operation
  | create (enclosing : Option ScopeId)
  | define (id : ScopeId) (name : String) (v : Value)
  | get (id : ScopeId) (name : String)
  | assign (id : ScopeId) (name : String) (v : Value)

namespace Operation

def Fits (s : Store) : Operation → Prop
  | create enclosing => ∀ outer ∈ enclosing, outer < s.scopes.size
  | define id _ _ => id < s.scopes.size
  | get id _ => id < s.scopes.size
  | assign id _ _ => id < s.scopes.size

instance (s : Store) : DecidablePred (Fits s)
  | create enclosing => inferInstanceAs (Decidable (∀ outer ∈ enclosing, outer < s.scopes.size))
  | define id _ _ => inferInstanceAs (Decidable (id < s.scopes.size))
  | get id _ => inferInstanceAs (Decidable (id < s.scopes.size))
  | assign id _ _ => inferInstanceAs (Decidable (id < s.scopes.size))

/-- What an operation leaves behind. Where a name is not bound, an assignment changes nothing. -/
def perform (s : Store) : Operation → Store
  | create enclosing => (s.openScope [] enclosing).2
  | define id name v => s.define id name v
  | get _ _ => s
  | assign id name v => (s.assign? id name v).getD s

def defined? (id : ScopeId) : Operation → Option String
  | define place name _ => if place = id then some name else none
  | _ => none

variable {op : Operation}

theorem perform_assign (s : Store) (id : ScopeId) (name : String) (v : Value) :
    (assign id name v).perform s = s ∨ ∃ owner, s.resolve name id = some owner ∧
      (assign id name v).perform s = s.define owner name v := by
  cases hassign : s.assign? id name v with
  | none => exact Or.inl (by rw [perform, hassign, Option.getD_none])
  | some s' =>
    obtain ⟨owner, howner, rfl⟩ := exists_of_assign? hassign
    exact Or.inr ⟨owner, howner, by rw [perform, hassign, Option.getD_some]⟩

theorem ordered_perform (h : s.Ordered) (hop : op.Fits s) : (op.perform s).Ordered := by
  cases op with
  | create enclosing => exact h.openScope hop
  | define => exact h.define
  | get => exact h
  | assign id name v =>
    rcases perform_assign s id name v with heq | ⟨owner, -, heq⟩
    · rwa [heq]
    · rw [heq]
      exact h.define

/-- A scope gets a name only where the name is defined in it. -/
theorem namesIn_perform (hop : op.Fits s) (id : ScopeId) :
    (op.perform s).namesIn id = (op.defined? id).elim (s.namesIn id) (addName (s.namesIn id)) := by
  cases op with
  | create enclosing =>
    unfold namesIn names?
    rw [perform, getElem?_openScope]
    split
    next heq =>
      rw [heq, Array.getElem?_eq_none (Nat.le_refl _)]
      rfl
    next => rfl
  | define place name v =>
    have hplace : s.scopes[place]? = some s.scopes[place] := Array.getElem?_eq_getElem hop
    unfold namesIn
    rw [perform, names?_define, defined?]
    split
    next heq =>
      rw [← heq, names?, hplace]
      rfl
    next => rfl
  | get => rfl
  | assign place name v =>
    rcases perform_assign s place name v with heq | ⟨owner, howner, heq⟩
    · rw [heq]
      rfl
    · rw [heq, namesIn, names?_define_of_resolve howner]
      rfl

end Operation

/-- What operations make of nothing, one after the other. -/
inductive Forest : List Operation → Store → Prop
  | empty : Forest [] ⟨#[]⟩
  | step {history : List Operation} {s : Store} (h : Forest history s) (op : Operation)
      (hop : op.Fits s) : Forest (history ++ [op]) (op.perform s)

namespace Forest

variable {history : List Operation}

theorem ordered (h : Forest history s) : s.Ordered := by
  induction h with
  | empty => simp [Ordered, All]
  | step _ _ hop ih => exact Operation.ordered_perform ih hop

/-- The names of a scope are those that were defined in it, in the order of their first
definition. -/
theorem namesIn_eq (h : Forest history s) (id : ScopeId) :
    s.namesIn id = (history.filterMap (·.defined? id)).eraseDups := by
  suffices hfold : s.namesIn id = (history.filterMap (·.defined? id)).foldl addName [] by
    have hall : (history.filterMap (·.defined? id)).filter (· ∉ ([] : List String)) =
        history.filterMap (·.defined? id) := List.filter_eq_self.2 (by simp)
    rw [hfold, foldl_addName, List.nil_append, hall]
  induction h with
  | empty => rfl
  | @step history s _ op hop ih =>
    rw [op.namesIn_perform hop, ih, List.filterMap_append, List.foldl_append]
    cases hdefined : op.defined? id with
    | none => rw [List.filterMap_cons_none hdefined]; rfl
    | some name => rw [List.filterMap_cons_some hdefined]; rfl

end Forest

end Store

/-! ### Names in runs -/

namespace Run

variable {m : Machine} {token : Token}

/-- A name that is not bound is an error at its token, and the machine stays as it is. -/
theorem of_unbound (h : m.store.get? m.current token.lexeme = none) (v : Value) :
    get token m = .error (.failed ⟨token, .undefinedVariable token.lexeme⟩) m ∧
      assign token v m = .error (.failed ⟨token, .undefinedVariable token.lexeme⟩) m := by
  have hresolve : m.store.resolve token.lexeme m.current = none := by
    rw [← Option.not_isSome_iff_eq_none, ← Store.isSome_get?, h]
    exact Bool.false_ne_true
  constructor
  · rw [get, h]
  · rw [assign, hresolve]

theorem of_bound {w : Value} (h : m.store.get? m.current token.lexeme = some w) (v : Value) :
    get token m = .ok w m ∧ ∃ s', m.store.assign? m.current token.lexeme v = some s' ∧
      assign token v m = .ok () { m with store := s' } := by
  constructor
  · rw [get, h]
  · cases hresolve : m.store.resolve token.lexeme m.current with
    | none =>
      have hnone := Store.isSome_get? m.store m.current token.lexeme
      rw [h, hresolve] at hnone
      cases hnone
    | some owner =>
      refine ⟨m.store.define owner token.lexeme v, ?_, ?_⟩
      · rw [Store.assign?, hresolve]
      · rw [assign, hresolve]

end Run

open Store

/-- In a forest of scopes, a name has the value that it has in the nearest scope of the chain that
binds it. If there is none, reading and assigning it fail and change nothing. An assignment changes
the value of its name in just the scopes where the name is resolved to the same scope, and a
definition in those whose chains reach the scope of the definition before another one that binds the
name. Names are added by definitions only, and stay in the order in which they were first
defined. -/
theorem forest_bindings {history : List Operation} {s : Store} (h : Forest history s) :
    (∀ e, e < s.scopes.size → ∃ scopes, s.IsChain e scopes) ∧
    (∀ e scopes name, s.IsChain e scopes →
      s.get? e name = scopes.findSome? (s.valueIn name) ∧
      s.resolve name e = scopes.find? (s.binds name) ∧
      (s.get? e name = none ↔ ∀ scope ∈ scopes, s.binds name scope = false) ∧
      ∀ (v : Value) (m : Machine) (token : Token),
        m.store = s → m.current = e → token.lexeme = name →
          (s.get? e name = none →
            Run.get token m = .error (.failed ⟨token, .undefinedVariable name⟩) m ∧
            Run.assign token v m = .error (.failed ⟨token, .undefinedVariable name⟩) m) ∧
          ∀ w, s.get? e name = some w → Run.get token m = .ok w m ∧
            ∃ s', s.assign? e name v = some s' ∧
              Run.assign token v m = .ok () { m with store := s' }) ∧
    (∀ e name v, (s.assign? e name v).isSome = (s.get? e name).isSome ∧
      ∀ s', s.assign? e name v = some s' → ∀ f other, s'.get? f other =
        if other = name ∧ s.resolve name f = s.resolve name e then some v else s.get? f other) ∧
    (∀ e name v, e < s.scopes.size → ∀ f scopes other, s.IsChain f scopes →
      (s.define e name v).get? f other =
        if other = name ∧ s.Reaches name scopes e then some v else s.get? f other) ∧
    (∀ op : Operation, op.Fits s → ∀ id,
      (op.perform s).namesIn id =
        (op.defined? id).elim (s.namesIn id) (addName (s.namesIn id))) ∧
    ∀ id, s.namesIn id = (history.filterMap (·.defined? id)).eraseDups := by
  have hordered := h.ordered
  refine ⟨fun e he => hordered.exists_isChain he, ?_, ?_, ?_, ?_, h.namesIn_eq⟩
  · intro e scopes name hchain
    have hget := hchain.get?_eq hordered name
    refine ⟨hget, hchain.resolve_eq hordered, ?_, ?_⟩
    · rw [hget, List.findSome?_eq_none_iff]
      simp [binds]
    · rintro v m token rfl rfl rfl
      exact ⟨fun hnone => Run.of_unbound hnone v, fun w hw => Run.of_bound hw v⟩
  · exact fun e name v => ⟨isSome_assign? s e name v, fun s' hs' => get?_of_assign? hordered hs'⟩
  · exact fun e name v he f scopes other hf => get?_define hordered he hf
  · exact fun op hop => op.namesIn_perform hop

/-- Scopes 1 and 2 are inside scope 0, which binds `a`, and scope 2 binds it again. An assignment
from scope 1 is seen from scope 3 inside it, but not from scope 2. -/
theorem forest_bindings_shared :
    let history : List Operation := [.create none, .define 0 "a" .nil, .create (some 0),
      .create (some 0), .define 2 "a" (.bool true), .create (some 1)]
    let s : Store := ⟨#[⟨[("a", .nil)], none⟩, ⟨[], some 0⟩, ⟨[("a", .bool true)], some 0⟩,
      ⟨[], some 1⟩]⟩
    Forest history s ∧ s.IsChain 3 [3, 1, 0] ∧ s.get? 3 "a" = some .nil ∧
      (∃ s', s.assign? 1 "a" (.bool false) = some s' ∧ s'.get? 3 "a" = some (.bool false) ∧
        s'.get? 2 "a" = some (.bool true)) ∧
      (s.define 1 "a" (.bool false)).get? 3 "a" = some (.bool false) ∧
      (s.define 2 "a" (.bool false)).get? 3 "a" = some .nil ∧ s.namesIn 2 = ["a"] := by
  intro history s
  have hforest : Forest history s :=
    (((((Forest.empty.step (.create none) (by decide)).step
      (.define 0 "a" .nil) (by decide)).step
      (.create (some 0)) (by decide)).step
      (.create (some 0)) (by decide)).step
      (.define 2 "a" (.bool true)) (by decide)).step
      (.create (some 1)) (by decide)
  have hchain : s.IsChain 3 [3, 1, 0] := .next rfl rfl (.next rfl rfl (.last rfl rfl))
  obtain ⟨-, hchains, hassign, hdefine, -, hnames⟩ := forest_bindings hforest
  obtain ⟨hget, -⟩ := hchains 3 _ "a" hchain
  have hseen := (hassign 1 "a" (.bool false)).2 _ rfl
  refine ⟨hforest, hchain, hget.trans rfl, ⟨_, rfl, ?_, ?_⟩, ?_, ?_, hnames 2⟩
  · exact (hseen 3 "a").trans (if_pos (by decide))
  · exact (hseen 2 "a").trans ((if_neg (by decide)).trans rfl)
  · exact (hdefine 1 "a" _ (by decide) 3 _ "a" hchain).trans (if_pos (by decide))
  · exact (hdefine 2 "a" _ (by decide) 3 _ "a" hchain).trans ((if_neg (by decide)).trans hget)

end Lox
