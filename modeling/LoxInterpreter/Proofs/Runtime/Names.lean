import LoxInterpreter.Proofs.Grammar.Trees
import LoxInterpreter.Proofs.Runtime.CurrentScope
import LoxInterpreter.Proofs.Runtime.RunsKeep
import LoxInterpreter.Proofs.Runtime.Scopes

/-!
The names of scopes. In a program without errors names are bound by declarations only: what is
evaluated or called, and all other statements, change the values of names in the scopes that are
there but not the names themselves. So the global names are at last those of before and those that
were declared at the top level, each in its place.
-/

namespace Lox

def addName (names : List String) (name : String) : List String :=
  if name ∈ names then names else names ++ [name]

def Stmt.addNames (s : Stmt) (names : List String) : List String :=
  match s.declared? with
  | some name => addName names name.lexeme
  | none => names

/-- The names that statements declare, as often as they do. -/
def declaredNames (ss : List Stmt) : List String :=
  (ss.filterMap Stmt.declared?).map Token.lexeme

/-- Names that are added one after another stand behind the old ones, in the order of their first
occurrence. -/
theorem foldl_addName (declared names : List String) :
    declared.foldl addName names = names ++ (declared.filter (· ∉ names)).eraseDups := by
  induction declared generalizing names with
  | nil => simp
  | cons name declared ih =>
    rw [List.foldl_cons, ih]
    -- A name that is there already is not added, and the filter drops it.
    by_cases hmem : name ∈ names
    · rw [addName, if_pos hmem, List.filter_cons_of_neg (by simpa using hmem)]
    · rw [addName, if_neg hmem, List.filter_cons_of_pos (by simpa using hmem),
        List.eraseDups_cons, List.filter_filter, List.append_assoc, List.singleton_append]
      congr 3
      refine List.filter_congr fun other _ => ?_
      simp [and_comm, Bool.beq_eq_decide_eq]

theorem foldl_addNames (ss : List Stmt) (names : List String) :
    ss.foldl (fun names s => s.addNames names) names = (declaredNames ss).foldl addName names := by
  induction ss generalizing names with
  | nil => rfl
  | cons s ss ih =>
    rw [List.foldl_cons, ih, Stmt.addNames, declaredNames, declaredNames]
    cases hs : s.declared? with
    | none => rw [List.filterMap_cons_none hs]
    | some name => rw [List.filterMap_cons_some hs, List.map_cons, List.foldl_cons]

def Store.names? (s : Store) (id : ScopeId) : Option (List String) := s.scopes[id]?.map Scope.names

namespace Store

variable {s : Store} {id other owner : ScopeId} {name : String} {v : Value}

theorem names?_define (s : Store) (id other : ScopeId) (name : String) (v : Value) :
    (s.define id name v).names? other =
      if id = other then (s.names? other).map (addName · name) else s.names? other := by
  unfold names?
  rw [getElem?_define]
  split
  · rw [Option.map_map, Option.map_map]
    congr 1
    funext scope
    exact Scope.names_define scope name v
  · rfl

/-- A name gets no new place in the scope that it is resolved to. -/
theorem names?_define_of_resolve (h : s.resolve name id = some owner) :
    (s.define owner name v).names? other = s.names? other := by
  obtain ⟨scope, hscope, hfind⟩ := exists_of_nearest h
  rw [names?_define]
  split
  next heq =>
    subst heq
    rw [names?, hscope, Option.map_some, Option.map_some, addName,
      if_pos (Scope.mem_names_of_find? hfind)]
  next => rfl

theorem names?_openScope (bindings : List (String × Value)) (enclosing : Option ScopeId)
    (h : other < s.scopes.size) :
    (s.openScope bindings enclosing).2.names? other = s.names? other := by
  unfold names?
  rw [getElem?_openScope, if_neg (Nat.ne_of_lt h)]

end Store

namespace Machine

structure SameNames (m₀ m : Machine) : Prop where
  size_le : m₀.store.scopes.size ≤ m.store.scopes.size
  names {id : ScopeId} : id < m₀.store.scopes.size → m.store.names? id = m₀.store.names? id

/-- What is known of the names of scopes in a run that began with the machine `m₀`: names are
bound in new scopes only. -/
def naming (m₀ : Machine) : Invariant Unit where
  grows _ _ := True
  machine _ := SameNames m₀
  seen _ _ := True
  owned _ id := m₀.store.scopes.size ≤ id
  closure _ _ := True
  node _ := True
  halt _ := True

theorem kept_naming (m₀ : Machine) : (naming m₀).Kept where
  refl _ := trivial
  trans _ _ := trivial
  seen_mono _ _ := trivial
  owned_mono _ h := h
  closure_mono _ _ := trivial
  seen_of_owned _ := trivial
  seen_scope _ := trivial
  body _ _ _ _ _ := ⟨trivial, fun _ _ _ _ => trivial⟩
  get _ _ _ := trivial
  assign hm _ hresolve _ :=
    ⟨by simpa using hm.size_le,
      fun h => (Store.names?_define_of_resolve hresolve).trans (hm.names h)⟩
  define {_ m name v} hm howned _ := by
    refine ⟨by simpa using hm.size_le, fun {id} h => ?_⟩
    have hne : m.current ≠ id := Nat.ne_of_gt (Nat.lt_of_lt_of_le h howned)
    rw [Store.names?_define, if_neg hne]
    exact hm.names h
  makeFunction hm _ _ := ⟨(), trivial, ⟨hm.size_le, hm.names⟩, trivial⟩
  print hm := ⟨hm.size_le, hm.names⟩
  readClock hm := ⟨hm.size_le, hm.names⟩
  openScope {_ m bindings enclosing} hm _ _ := by
    refine ⟨(), trivial, hm.size_le, ?_, fun h => ?_⟩
    · rw [Store.size_openScope]
      exact Nat.le_succ_of_le hm.size_le
    · exact (Store.names?_openScope _ _ (Nat.lt_of_lt_of_le h hm.size_le)).trans (hm.names h)
  leave hm := ⟨hm.size_le, hm.names⟩
  exhausted := trivial
  recursion := trivial
  unbound _ := trivial
  unboundTarget _ := trivial
  unaryFault _ _ := trivial
  binaryFault _ _ := trivial
  callFault _ _ := trivial

theorem SameNames.refl (m : Machine) : SameNames m m := ⟨Nat.le_refl _, fun _ => rfl⟩

theorem sameNames_of_keeps {α : Type} {r : Run α} {Q : Unit → α → Prop} {m : Machine}
    (h : (naming m).Keeps () m.current r Q) : SameNames m (r.after m) := by
  obtain ⟨_, -, hnames⟩ := h.after (SameNames.refl m) rfl
  exact hnames

variable (fuel : Nat) (room : Room) (m : Machine)

theorem sameNames_evaluate (e : Expr) : SameNames m ((Run.evaluate fuel room e).after m) :=
  sameNames_of_keeps (((kept_naming m).keptWith fuel).evaluate room trivial fun _ _ => trivial)

theorem sameNames_call (f : Value) (paren : Token) (args : List Value) :
    SameNames m ((Run.call fuel room f paren args).after m) :=
  sameNames_of_keeps (((kept_naming m).keptWith fuel).call room (fun _ _ => trivial)
    (fun _ _ _ _ => trivial) fun _ _ => trivial)

/-- A statement that cannot bind a name in the current scope binds none in any old one. -/
theorem sameNames_execute {s : Stmt} (hs : s.declares = false) :
    SameNames m ((Run.execute fuel room s).after m) := by
  refine sameNames_of_keeps (((kept_naming m).keptWith fuel).execute room trivial ?_
    fun _ _ => ⟨trivial, fun _ _ _ _ => trivial⟩)
  intro h
  rw [hs] at h
  cases h

/-- A part of a run binds no name in an old scope, and returns to its own one. -/
def BindsNone {α : Type} (r : Run α) : Prop :=
  ∀ m, SameNames m (r.after m) ∧ (r.after m).current = m.current

theorem bindsNone_inFrames {α : Type} {room : Room} {count : Nat} {body : Room → Run α}
    (h : ∀ room, BindsNone (body room)) : BindsNone (Run.inFrames room count body) :=
  Room.nested_induction (fun m => ⟨SameNames.refl m, rfl⟩) h

/-- A declaration first finds the value of its name, which binds no name in an old scope. -/
theorem exists_value_of_declared? {s : Stmt} {name : Token} (hs : s.declared? = some name) :
    ∃ r : Run Value, BindsNone r ∧
      Run.execute (fuel + 1) room s = do
        let v ← r
        Run.define name v
        return .normal := by
  cases s with
  | var name initializer =>
    cases hs
    cases initializer with
    | none =>
      refine ⟨Run.inFrames room 1 fun _ => pure .nil, bindsNone_inFrames fun _ m => ?_, ?_⟩
      · exact ⟨SameNames.refl m, rfl⟩
      · rw [Run.inFrames_bind]
        rfl
    | some e =>
      refine ⟨Run.inFrames room 1 (Run.evaluate fuel · e), bindsNone_inFrames fun room m => ?_, ?_⟩
      · refine ⟨sameNames_evaluate fuel room m e, ?_⟩
        exact (Run.respectedWith Run.respected_current fuel).evaluate room e m
      · exact (Run.inFrames_bind room 1 _ _).symm
  | function name params body =>
    cases hs
    refine ⟨Run.inFrames room 1 fun _ => Run.makeFunction name params body,
      bindsNone_inFrames fun _ m => ?_, ?_⟩
    · exact ⟨⟨Nat.le_refl _, fun _ => rfl⟩, rfl⟩
    · exact (Run.inFrames_bind room 1 _ _).symm
  | expression | print | block | conditional | loop | result => cases hs

/-- Some statement was executed to its end: its name was added to the current scope if it has one,
and all else is the same. -/
structure NamesAfter (s : Stmt) (m m' : Machine) : Prop where
  size_le : m.store.scopes.size ≤ m'.store.scopes.size
  names {id : ScopeId} : id < m.store.scopes.size → m'.store.names? id =
    if id = m.current then (m.store.names? id).map s.addNames else m.store.names? id

theorem NamesAfter.of_declared?_eq_none {s : Stmt} {m m' : Machine} (hs : s.declared? = none)
    (h : SameNames m m') : NamesAfter s m m' := by
  have hadd : s.addNames = id := by
    funext names
    rw [Stmt.addNames, hs]
    rfl
  refine ⟨h.size_le, fun {id} hid => ?_⟩
  rw [hadd, Option.map_id_fun, id_eq, ite_self]
  exact h.names hid

theorem execute_declaration {s : Stmt} {name : Token} (hs : s.declared? = some name) :
    match Run.execute fuel room s m with
    | .ok _ m' => NamesAfter s m m'
    | .error _ m' => SameNames m m' := by
  cases fuel with
  | zero => exact SameNames.refl m
  | succ fuel =>
    obtain ⟨r, hr, hexecute⟩ := exists_value_of_declared? fuel room hs
    have hvalue := hr m
    unfold Run.after at hvalue
    rw [hexecute, Step.bind_apply]
    cases hrun : r m with
    | ok v m' =>
      -- The value is there, so that the definition follows, which cannot halt.
      rw [hrun] at hvalue
      obtain ⟨hnames, hcurrent⟩ := hvalue
      refine ⟨(Store.size_define _ _ _ _).symm ▸ hnames.size_le, fun {id} hid => ?_⟩
      have hadd : s.addNames = (addName · name.lexeme) := by
        funext names
        rw [Stmt.addNames, hs]
      rw [Store.names?_define, hcurrent, hnames.names hid, hadd]
      exact if_congr eq_comm rfl rfl
    | error halt m' =>
      rw [hrun] at hvalue
      exact hvalue.1

/-- If only declarations can bind names, a statement adds no other name than its own, and it adds
that only if it is executed to its end. -/
theorem execute_tidy {s : Stmt} (hs : s.Tidy) :
    match Run.execute fuel room s m with
    | .ok _ m' => NamesAfter s m m'
    | .error _ m' => SameNames m m' := by
  cases hdeclared : s.declared? with
  | some name => exact execute_declaration fuel room m hdeclared
  | none =>
    have hdeclares : s.declares = false := by
      cases h : s.declares with
      | false => rfl
      | true =>
        have hsome := hs h
        rw [hdeclared] at hsome
        cases hsome
    have hnames := sameNames_execute fuel room m hdeclares
    unfold Run.after at hnames
    cases hrun : Run.execute fuel room s m with
    | ok completion m' =>
      rw [hrun] at hnames
      exact .of_declared?_eq_none hdeclared hnames
    | error halt m' =>
      rw [hrun] at hnames
      exact hnames

end Machine

/-- The statements of a program that are executed to their ends, before one of them halts. -/
def Run.completed (fuel : Nat) (room : Room) : List Stmt → Machine → List Stmt
  | [], _ => []
  | s :: ss, m =>
    match Run.execute fuel room s m with
    | .ok _ m' => s :: completed fuel room ss m'
    | .error _ _ => []

def Machine.completed (limits : Limits) (program : List Stmt) (m : Machine) : List Stmt :=
  Run.completed limits.fuel limits.calls program m

theorem Run.completed_isPrefix (fuel : Nat) (room : Room) (program : List Stmt) (m : Machine) :
    completed fuel room program m <+: program := by
  induction program generalizing m with
  | nil => exact List.prefix_rfl
  | cons s ss ih =>
    rw [completed]
    cases execute fuel room s m with
    | ok _ m' => exact List.cons_prefix_cons.2 ⟨rfl, ih m'⟩
    | error _ _ => exact List.nil_prefix

/-- A run that does not halt completes all statements. -/
theorem Run.completed_eq_of_ok {fuel : Nat} {room : Room} {program : List Stmt} {m m' : Machine}
    (h : executeProgram fuel room program m = .ok () m') :
    completed fuel room program m = program := by
  induction program generalizing m with
  | nil => rfl
  | cons s ss ih =>
    rw [executeProgram, Step.bind_apply] at h
    rw [completed]
    cases hrun : execute fuel room s m with
    | ok _ m₁ =>
      rw [hrun] at h
      exact congrArg (s :: ·) (ih h)
    | error _ _ =>
      rw [hrun] at h
      cases h

/-- A run adds the names of the statements that it completes. -/
theorem Run.names?_executeProgram {fuel : Nat} {room : Room} {program : List Stmt} {m : Machine}
    (hprogram : ∀ s ∈ program, s.Tidy) (hcurrent : m.current < m.store.scopes.size) :
    ((executeProgram fuel room program).after m).store.names? m.current =
      (m.store.names? m.current).map
        ((completed fuel room program m).foldl fun names s => s.addNames names) := by
  induction program generalizing m with
  | nil => exact Option.map_id'.symm
  | cons s ss ih =>
    have hstatement := Machine.execute_tidy fuel room m (hprogram s List.mem_cons_self)
    have hback := (respectedWith respected_current fuel).execute room s m
    unfold after at hback ⊢
    rw [executeProgram, Step.bind_apply, completed]
    cases hrun : execute fuel room s m with
    | ok completion m' =>
      rw [hrun] at hstatement hback
      have hcurrent' : m'.current < m'.store.scopes.size :=
        hback ▸ Nat.lt_of_lt_of_le hcurrent hstatement.size_le
      have hrest := ih (fun s hs => hprogram s (List.mem_cons_of_mem _ hs)) hcurrent'
      have hnames := hstatement.names hcurrent
      rw [if_pos rfl] at hnames
      rw [hback, hnames, Option.map_map] at hrest
      exact hrest
    | error halt m' =>
      rw [hrun] at hstatement
      exact (hstatement.names hcurrent).trans Option.map_id'.symm

namespace Run

/-- The number of scopes never falls. -/
theorem respected_size : Respected fun m m' => m.store.scopes.size ≤ m'.store.scopes.size where
  refl _ := Nat.le_refl _
  trans := Nat.le_trans
  define m id name v := Nat.le_of_eq (Store.size_define m.store id name v).symm
  makeFunction _ := Nat.le_refl _
  print _ _ := Nat.le_refl _
  readClock _ := Nat.le_refl _
  inScope m bindings enclosing m' h := by
    rw [Store.size_openScope] at h
    exact Nat.le_of_succ_le h

end Run

theorem Machine.size_le_runAll (programs : List (Limits × List Stmt)) (m : Machine) :
    m.store.scopes.size ≤ (m.runAll programs).store.scopes.size := by
  induction programs generalizing m with
  | nil => exact Nat.le_refl _
  | cons p programs ih =>
    exact Nat.le_trans (Machine.respects_run Run.respected_size p.1 p.2 m) (ih _)

theorem Machine.completed_eq_of_run {limits : Limits} {program : List Stmt} {m : Machine}
    (h : (m.run limits program).1 = none) : m.completed limits program = program := by
  unfold Machine.run at h
  cases hrun : Run.executeProgram limits.fuel limits.calls program m with
  | ok _ m' => exact Run.completed_eq_of_ok hrun
  | error halt m' =>
    rw [hrun] at h
    cases h

theorem Machine.names?_run {program : List Stmt} {m : Machine}
    (hprogram : ∀ s ∈ program, s.Tidy) (hcurrent : m.current < m.store.scopes.size)
    (limits : Limits) :
    (m.run limits program).2.store.names? m.current =
      (m.store.names? m.current).map fun names => names ++
        ((declaredNames (m.completed limits program)).filter (· ∉ names)).eraseDups := by
  rw [Machine.snd_run, Run.names?_executeProgram hprogram hcurrent]
  congr 1
  funext names
  rw [foldl_addNames, foldl_addName]
  rfl

/-- In a source without errors, the only statements that add a name to a scope that is there are
declarations that are executed to their ends. What is evaluated or called, and what halts, adds
none. So after a run the global names are the old ones and behind them, in the order of their first
declaration, the new ones among those that the statements at the top level declared. -/
theorem names_only_declared (source : CleanSource) :
    (∀ s, Stmt.In s source.program → ∀ fuel room m,
      (∀ completion m', Run.execute fuel room s m = .ok completion m' →
        ∀ id, id < m.store.scopes.size → m'.store.names? id =
          if id = m.current then (m.store.names? id).map s.addNames else m.store.names? id) ∧
      ∀ halt m', Run.execute fuel room s m = .error halt m' →
        ∀ id, id < m.store.scopes.size → m'.store.names? id = m.store.names? id) ∧
    (∀ fuel room e m id, id < m.store.scopes.size →
      ((Run.evaluate fuel room e).after m).store.names? id = m.store.names? id) ∧
    (∀ fuel room f paren args m id, id < m.store.scopes.size →
      ((Run.call fuel room f paren args).after m).store.names? id = m.store.names? id) ∧
    ∀ clock programs limits,
      let m := (Machine.start clock).runAll programs
      let completed := m.completed limits source.program
      completed <+: source.program ∧
        ((m.run limits source.program).1 = none → completed = source.program) ∧
        (m.run limits source.program).2.store.names? Store.globals =
          (m.store.names? Store.globals).map fun names =>
            names ++ ((declaredNames completed).filter (· ∉ names)).eraseDups := by
  obtain ⟨-, htidy⟩ := Stmt.every_in source.sound
  refine ⟨?_, ?_, ?_, ?_⟩
  · intro s hs fuel room m
    have hafter := Machine.execute_tidy fuel room m (htidy s hs)
    constructor
    · intro completion m' hrun id hid
      rw [hrun] at hafter
      exact hafter.names hid
    · intro halt m' hrun id hid
      rw [hrun] at hafter
      exact hafter.names hid
  · exact fun fuel room e m id hid => (m.sameNames_evaluate fuel room e).names hid
  · exact fun fuel room f paren args m id hid =>
      (m.sameNames_call fuel room f paren args).names hid
  · intro clock programs limits m completed
    refine ⟨Run.completed_isPrefix _ _ _ _, Machine.completed_eq_of_run, ?_⟩
    have hglobals : m.current = Store.globals := Machine.current_runAll programs _
    have hsize : 1 ≤ m.store.scopes.size := Machine.size_le_runAll programs (.start clock)
    rw [← hglobals]
    refine Machine.names?_run (fun s hs => htidy s ⟨s, hs, .self⟩) ?_ limits
    rw [hglobals]
    exact hsize

/-- A run that halts has added the names that were declared before. -/
theorem names_only_declared_halted :
    let a : Token := ⟨.identifier, "a", .nil, 1, some 4⟩
    let m := Machine.start fun _ => 0
    ∃ source : CleanSource, source.text = "var a;b;var c;" ∧
      Stmt.In (.var a none) source.program ∧
      ((Run.execute 9 ⟨0, 9⟩ (.var a none)).after m).store.names? Store.globals =
        some ["clock", "a"] ∧
      (m.run ⟨9, 0, 9⟩ source.program).2.store.names? Store.globals = some ["clock", "a"] := by
  intro a m
  let source : CleanSource := {
    text := "var a;b;var c;"
    line := 1
    tokens := [⟨.keyword .varWord, "var", .nil, 1, some 0⟩, a, ⟨.semicolon, ";", .nil, 1, some 5⟩,
      ⟨.identifier, "b", .nil, 1, some 6⟩, ⟨.semicolon, ";", .nil, 1, some 7⟩,
      ⟨.keyword .varWord, "var", .nil, 1, some 8⟩, ⟨.identifier, "c", .nil, 1, some 12⟩,
      ⟨.semicolon, ";", .nil, 1, some 13⟩, ⟨.eof, "", .nil, 1, some 14⟩]
    scans := by cbv
    parses := rfl }
  have hin : Stmt.In (.var a none) source.program := ⟨_, List.mem_cons_self, .self⟩
  obtain ⟨hstatements, -, -, hrun⟩ := names_only_declared source
  refine ⟨source, rfl, hin, ?_, ?_⟩
  · exact (hstatements _ hin 9 ⟨0, 9⟩ m).1 _ _ rfl Store.globals (by decide)
  · exact (hrun (fun _ => 0) [] ⟨9, 0, 9⟩).2.2.trans rfl

end Lox
