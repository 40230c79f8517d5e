import LoxInterpreter.Proofs.Grammar.Progress
import LoxInterpreter.Proofs.Grammar.Trees
import LoxInterpreter.Proofs.Runtime.CollapsedRuns
import LoxInterpreter.Proofs.Runtime.Names
import LoxInterpreter.Proofs.Runtime.Returns

/-!
Loops with a `for`. The parser makes a `while` of a `for`, in a block with the initializer, and puts
the body into a block with the increment. What a `for` says can also be done directly: one scope for
the initializer, and in that scope round after round of condition, body and increment. The `while`
does the same as the direct loop. It only opens an empty scope in each round.
-/

namespace Lox

namespace Run

def holds (fuel : Nat) (room : Room) : Option Expr → Run Bool
  | none => inFrames room 1 fun _ => return true
  | some e => do
    let v ← evaluate fuel room e
    return v.isTruthy

/-- One round of a `for`: the body and, unless that returned, the increment in the same scope. -/
def forRound (fuel : Nat) (room : Room) (body : Stmt) : Option Expr → Run Completion
  | none => execute fuel room body
  | some e => inFrames room 2 fun room => do
    match ← execute fuel room body with
    | .normal => inFrames room 1 fun room => do
      let _ ← evaluate fuel room e
      return .normal
    | .returned v => return .returned v

def forRounds : Nat → Room → Option Expr → Option Expr → Stmt → Run Completion
  | 0, _, _, _, _ => throw .exhausted
  | fuel + 1, room, condition, increment, body => do
    if ← holds fuel room condition then
      match ← forRound fuel room body increment with
      | .normal => forRounds fuel room condition increment body
      | .returned v => return .returned v
    else
      return .normal

/-- Does what a `for` says. A scope is opened only if there is an initializer, which is executed
once in it. Each clause has as many frames of the host around it as it has in the tree. -/
def forDirectly (fuel : Nat) (room : Room) (initializer : Option Stmt)
    (condition increment : Option Expr) (body : Stmt) : Run Completion :=
  match initializer with
  | none => inFrames room 1 fun room => forRounds fuel room condition increment body
  | some s => inFrames room 2 fun room => inBlock do
    let _ ← execute fuel room s
    inFrames room 1 fun room => forRounds fuel room condition increment body

theorem execute_block (fuel : Nat) (room : Room) (body : List Stmt) :
    execute (fuel + 1) room (.block body) =
      inFrames room 2 fun room => inBlock (executeAll fuel room body) :=
  inFrames_inFrames room 1 1 fun room => inBlock (executeAll fuel room body)

end Run

def Stmt.withIncrement (body : Stmt) : Option Expr → Stmt
  | none => body
  | some e => .block [body, .expression e]

namespace Parse

variable (condition increment : Option Expr) (body : Stmt)

theorem forLoop_none : forLoop none condition increment body =
    .loop (condition.getD (.literal (.bool true))) (body.withIncrement increment) := by
  cases increment <;> rfl

theorem forLoop_some (s : Stmt) : forLoop (some s) condition increment body =
    .block [s, forLoop none condition increment body] := rfl

end Parse

namespace Collapse

variable {α β γ : Type} {left right : Prop} {ahead n n' : Nat} {room : Room} {w : Collapse}
  {c : ScopeId} {body : Stmt}

namespace Simulates

variable {r r' : Run Completion}

/-- Where the first run goes on with something that has no effect. -/
theorem bindLeft {r : Run α} {r' : Run β} {f : α → Run γ} {Q : Collapse → α → β → Prop}
    {T : Collapse → γ → β → Prop} (hr : Simulates left right w c Q r r')
    (hf : ∀ a b w', w.Grows w' → Q w' a b → Simulates left right w' c T (f a) (Pure.pure b)) :
    Simulates left right w c T (r >>= f) r' := by
  rw [← bind_pure r']
  exact hr.bind hf

/-- A part of a run that completes normally does so on the collapsed machine. -/
theorem of_normal (hr : Simulates left right w c OfCompletions r r')
    (hnormal : Run.CompletesNormally r) :
    Simulates left right w c (fun _ completion _ => completion = .normal) r r' := by
  intro m m' hm hc
  have hends := hr m m' hm hc
  have hcompletion := hnormal m
  generalize r m = result, r' m' = result' at hends hcompletion
  cases hends with
  | ok hw hm' hc' h => exact .ok hw hm' hc' (hcompletion _ _ rfl)
  | halted hw hm' hc' => exact .halted hw hm' hc'
  | cutLeft h => exact .cutLeft h
  | cutRight h => exact .cutRight h

/-- A list of one statement. -/
theorem executeAll_singleton (h : Pace left right (ahead + 2) n n') {s : Stmt}
    (hs : ∀ k, Pace left right (ahead + 1) k n' →
      Simulates left right w c OfCompletions (Run.execute k room s) r') :
    Simulates left right w c OfCompletions (Run.executeAll n room [s]) r' := by
  obtain ⟨rfl, hleft⟩ | ⟨n, rfl, hn⟩ := h.spend
  · exact .throwLeft hleft
  refine (hs n hn).bindLeft fun _ _ _ _ hcompletion => ?_
  cases hcompletion with
  | normal =>
    obtain ⟨rfl, hleft⟩ | ⟨n, rfl, -⟩ := hn.spend
    · exact .throwLeft hleft
    · exact .pure .normal
  | returned hv => exact .pure (.returned hv)

end Simulates

/-- A condition that is missing stands for a literal that is true. -/
theorem simulates_condition (h : Pace left right (ahead + 1) n n') (condition : Option Expr) :
    Simulates left right w c (fun _ v b => v.isTruthy = b)
      (Run.evaluate n room (condition.getD (.literal (.bool true))))
      (Run.holds n' room condition) := by
  cases condition with
  | none =>
    obtain ⟨rfl, hleft⟩ | ⟨n, rfl, -⟩ := h.spend
    · exact .throwLeft hleft
    · exact .inFrames fun _ => .pure rfl
  | some e =>
    have hvalue := (simulatesWith h).evaluate (w := w) (c := c) room e
    rw [← bind_pure (Run.evaluate n room _)]
    exact hvalue.bind fun v v' w' _ hv => .pure hv.isTruthy.symm

/-- A round of the `while`. In the scope that it opens no name is bound, since the body is no
declaration. -/
theorem simulates_round (h : Pace left right 4 n n') (hbody : body.declares = false)
    (increment : Option Expr) :
    Simulates left right w c OfCompletions (Run.execute n room (body.withIncrement increment))
      (Run.forRound n' room body increment) := by
  have hdeclares : ∀ {w : Collapse} {id : ScopeId}, body.declares = true → w.Kept id :=
    fun hdeclares => absurd hdeclares (by simp [hbody])
  cases increment with
  | none => exact (simulatesWith h).execute room body hdeclares
  | some e =>
    -- The block, its list of statements, and the increment take a level of fuel each.
    obtain ⟨rfl, hleft⟩ | ⟨n₁, rfl, h₁⟩ := h.spend
    · exact .throwLeft hleft
    rw [Stmt.withIncrement, Run.execute_block]
    refine .inFrames fun room => .inBlockLeft fun w₁ id _ _ => ?_
    obtain ⟨rfl, hleft⟩ | ⟨n₂, rfl, h₂⟩ := h₁.spend
    · exact .throwLeft hleft
    refine ((simulatesWith h₂).execute room body hdeclares).bind fun _ _ w₂ _ hcompletion => ?_
    cases hcompletion with
    | normal =>
      refine .executeAll_singleton h₂ fun n₃ h₃ => ?_
      obtain ⟨rfl, hleft⟩ | ⟨n₄, rfl, h₄⟩ := h₃.spend
      · exact .throwLeft hleft
      · refine .inFrames fun room => ?_
        exact ((simulatesWith h₄).evaluate room e).bind fun _ _ _ _ _ => .pure .normal
    | returned hv => exact .pure (.returned hv)

theorem simulates_rounds (h : Pace left right 4 n n') (hbody : body.declares = false)
    (condition increment : Option Expr) :
    ∀ (w : Collapse) (c : ScopeId), Simulates left right w c OfCompletions
      (Run.repeatWhile n room (condition.getD (.literal (.bool true)))
        (body.withIncrement increment))
      (Run.forRounds n' room condition increment body) := by
  refine h.induct (fun hleft _ _ _ => .throwLeft hleft) (fun hright _ _ _ => .throwRight hright) ?_
  intro n n' h ih w c
  refine (simulates_condition h condition).bind fun v b w₁ _ htruthy => ?_
  rw [htruthy]
  refine .ite _ ?_ (.pure .normal)
  refine (simulates_round h hbody increment).bind fun _ _ w₂ _ hcompletion => ?_
  cases hcompletion with
  | normal => exact ih w₂ c
  | returned hv => exact .pure (.returned hv)

/-- What the parser makes of a `for` does what the `for` says, and takes a few levels of fuel
more. -/
theorem simulates_forLoop (h : Pace left right 8 n n') {initializer : Option Stmt}
    (hinitializer : ∀ s ∈ initializer, s.ReturnsInFunctions) (condition increment : Option Expr)
    (hbody : body.declares = false) :
    Simulates left right w c OfCompletions
      (Run.execute n room (Parse.forLoop initializer condition increment body))
      (Run.forDirectly n' room initializer condition increment body) := by
  have hloop : ∀ {room : Room} {k : Nat} {w : Collapse} {c : ScopeId}, Pace left right 5 k n' →
      Simulates left right w c OfCompletions
        (Run.execute k room (Parse.forLoop none condition increment body))
        (Run.inFrames room 1 fun room => Run.forRounds n' room condition increment body) := by
    intro room k w c hk
    obtain ⟨rfl, hleft⟩ | ⟨k₁, rfl, h₁⟩ := hk.spend
    · exact .throwLeft hleft
    · rw [Parse.forLoop_none]
      exact .inFrames fun room => simulates_rounds h₁ hbody condition increment w c
  cases initializer with
  | none => exact hloop (h.mono (by decide))
  | some s =>
    rw [Parse.forLoop_some]
    obtain ⟨rfl, hleft⟩ | ⟨n₁, rfl, h₁⟩ := h.spend
    · exact .throwLeft hleft
    rw [Run.execute_block]
    refine .inFrames fun room => .inBlock fun w₁ id _ hid => ?_
    obtain ⟨rfl, hleft⟩ | ⟨n₂, rfl, h₂⟩ := h₁.spend
    · exact .throwLeft hleft
    have hs := ((simulatesWith h₂).execute room s fun _ => hid).of_normal
      ((Run.completesNormallyWith n₂).execute room (hinitializer s rfl))
    refine hs.bind fun completion _ w₂ _ hnormal => ?_
    rw [hnormal]
    exact .executeAll_singleton h₂ fun k hk => hloop hk

end Collapse

def Run.IsCut {α : Type} (result : EStateM.Result Halt Machine α) : Prop :=
  ∃ m, result = .error .exhausted m

/-- The machines that two runs leave behind which began with `m`. They differ in their stores only,
and the second store is the first one without empty scopes. The scopes that were there before are
in both of them, with the same names and, up to the scopes that are left out, with the same
values. -/
structure Collapse.SameAfter (w : Collapse) (m m₁ m₂ : Machine) : Prop where
  current : m₁.current = m.current
  others : m₂ = { m₁ with store := m₂.store }
  stores : w.OfStores m₁.store m₂.store
  old {id : ScopeId} : id < m.store.scopes.size → w.image id = id ∧ ¬ w.dropped id ∧
    m₂.store.scopes[id]? = m₁.store.scopes[id]?.map (Scope.moved w.image)

inductive Collapse.EndsAlike (m : Machine) :
    EStateM.Result Halt Machine Completion → EStateM.Result Halt Machine Completion → Prop
  | completed {w : Collapse} {m₁ m₂ : Machine} {completion completion' : Completion}
      (hm : w.SameAfter m m₁ m₂) (h : w.OfCompletions completion completion') :
      EndsAlike m (.ok completion m₁) (.ok completion' m₂)
  | halted {w : Collapse} {m₁ m₂ : Machine} (halt : Halt) (hm : w.SameAfter m m₁ m₂) :
      EndsAlike m (.error halt m₁) (.error halt m₂)

namespace Collapse

variable {left right : Prop} {w : Collapse} {m m₁ m₂ : Machine}

theorem OfMachines.sameAfter (hm : m.Layered) (hw : (whole m.store.scopes.size).Grows w)
    (h : w.OfMachines m₁ m₂) (hcurrent : m₁.current = m.current) : w.SameAfter m m₁ m₂ := by
  have himage : ∀ id < m.store.scopes.size, w.image id = id := hw.image
  cases h with
  | intro store _ =>
    refine ⟨hcurrent, ?_, store, fun {id} hid => ?_⟩
    · rw [hcurrent, himage m.current hm.current, ← hcurrent]
    · have hkept : ¬ w.dropped id := fun hdropped => (hw.dropped id hid).1 hdropped
      obtain ⟨scope, hscope⟩ := store.exists_scope (Nat.lt_of_lt_of_le hid hw.size)
      have hmoved := store.kept hkept hscope
      rw [himage id hid] at hmoved
      exact ⟨himage id hid, hkept, by rw [hscope, Option.map_some, hmoved]⟩

/-- Runs of which none is cut off end alike. -/
theorem Ends.endsAlike (hm : m.Layered) {result result' : EStateM.Result Halt Machine Completion}
    (h : Ends left right (whole m.store.scopes.size) m.current OfCompletions result result')
    (hleft : left → ¬ Run.IsCut result) (hright : right → ¬ Run.IsCut result') :
    EndsAlike m result result' := by
  cases h with
  | ok hw hmachines hcurrent h => exact .completed (hmachines.sameAfter hm hw hcurrent) h
  | halted hw hmachines hcurrent => exact .halted _ (hmachines.sameAfter hm hw hcurrent)
  | cutLeft h => exact absurd ⟨_, rfl⟩ (hleft h)
  | cutRight h => exact absurd ⟨_, rfl⟩ (hright h)

end Collapse

namespace Machine

variable {m m' : Machine} {name : String} {fuel : Nat} {room : Room} {body : Stmt}

/-- Where no scope gets a name, names mean what they meant. -/
theorem SameNames.resolve_eq (hnames : SameNames m m') (hlinks : m.store.SameLinks m'.store)
    (hm : m.store.Layered) (hm' : m'.store.Layered) {id : ScopeId}
    (hid : id < m.store.scopes.size) :
    m'.store.resolve name id = m.store.resolve name id := by
  refine hm.resolve_congr hm' (fun id scope hscope => ?_) hid
  obtain ⟨scope', hscope', henclosing⟩ := hlinks id scope hscope
  have hsame := hnames.names (Store.lt_size_of_getElem? hscope)
  rw [Store.names?, Store.names?, hscope', hscope] at hsame
  refine ⟨scope', hscope', henclosing, ?_⟩
  rw [Bool.eq_iff_iff, Scope.isSome_find?_iff, Scope.isSome_find?_iff, Option.some.inj hsame]

/-- A name means in an empty scope what it means around it. -/
theorem Layered.resolve_opened (hm : m.Layered) :
    (Trace.opened [] m.current m).store.resolve name (Trace.opened [] m.current m).current =
      m.store.resolve name m.current := by
  have hopened : (Trace.opened [] m.current m).Layered := hm.opened hm.current (by simp)
  have hscope : (Trace.opened [] m.current m).store.scopes[m.store.scopes.size]? =
      some ⟨[], some m.current⟩ :=
    (Store.getElem?_openScope m.store [] (some m.current) _).trans (if_pos rfl)
  refine (hopened.store.resolve_eq hscope).trans ?_
  refine hm.store.resolve_congr hopened.store (fun id scope hold => ?_) hm.current
  refine ⟨scope, ?_, rfl, rfl⟩
  rwa [Trace.opened, Store.getElem?_openScope,
    if_neg (Nat.ne_of_lt (Store.lt_size_of_getElem? hold))]

/-- After the body of a `for`, which was executed in a scope of its own, names mean in this scope
what they meant around it before. -/
theorem Layered.resolve_after_body (hm : m.Layered) (hbody : body.declares = false)
    {completion : Completion} {m₁ : Machine}
    (h : Run.execute fuel room body (Trace.opened [] m.current m) = .ok completion m₁) :
    m₁.store.resolve name m₁.current = m.store.resolve name m.current := by
  have hopened : (Trace.opened [] m.current m).Layered := hm.opened hm.current (by simp)
  have hafter : (Run.execute fuel room body).after (Trace.opened [] m.current m) = m₁ := by
    rw [Run.after, h]
  have hlayered := hopened.after_execute fuel room body
  have hnames := sameNames_execute fuel room (Trace.opened [] m.current m) hbody
  have hlinks := (Run.respectedWith Run.respected_links fuel).execute room body
    (Trace.opened [] m.current m)
  have hcurrent := (Run.respectedWith Run.respected_current fuel).execute room body
    (Trace.opened [] m.current m)
  rw [hafter] at hlayered hnames hlinks hcurrent
  rw [hcurrent, hnames.resolve_eq hlinks hopened.store hlayered.store hopened.current]
  exact hm.resolve_opened

end Machine

open Grammar

/-- An initializer is a declaration of a variable or an expression. -/
theorem Grammar.Derivation.returnsInFunctions_initializer (d : Derivation .forInitializer) :
    ∀ s ∈ d.tree, s.ReturnsInFunctions := by
  rintro s hs
  cases d with
  | noInitializer => cases hs
  | varInitializer v =>
    cases v <;> cases hs <;> exact Stmt.returnsInFunctions_leaf (by simp [Derivation.tree]) rfl
  | simpleInitializer e =>
    cases e
    cases hs
    exact Stmt.returnsInFunctions_leaf (by simp [Derivation.tree]) rfl

/-- In each state that runs reach, the tree of a `for` does what the `for` says, whichever of its
clauses are there. If one of the two ends with some fuel, the other one ends alike with that fuel or
a few levels more: the texts that are printed are the same, and so are the scopes that were there
before, up to the empty scopes that the tree opens. When the body is done and the increment comes,
each name means what it meant around the round. -/
theorem for_runs_directly (kw : Word .forWord) (opening : Mark .leftParen)
    (initializer : Derivation .forInitializer) (condition : Derivation .optionalExpression)
    (stop : Mark .semicolon) (increment : Derivation .optionalExpression)
    (closing : Mark .rightParen) (body : Derivation .statement) {m : Machine} (hm : m.Reached)
    (fuel : Nat) (room : Room) :
    let tree :=
      (Derivation.forLoop kw opening initializer condition stop increment closing body).tree
    let direct :=
      Run.forDirectly fuel room initializer.tree condition.tree increment.tree body.tree m
    (¬ Run.IsCut (Run.execute fuel room tree m) →
      Collapse.EndsAlike m (Run.execute fuel room tree m) direct) ∧
    (¬ Run.IsCut direct → Collapse.EndsAlike m (Run.execute (fuel + 8) room tree m) direct) ∧
    ∀ m₁, Run.execute fuel room body.tree (Trace.opened [] m.current m) = .ok .normal m₁ →
      ∀ name, m₁.store.resolve name m₁.current = m.store.resolve name m.current := by
  intro tree direct
  have hlayered := hm.layered
  have hbody : body.tree.declares = false := (body.sound_tree (List.Subset.refl _)).1
  have hstart : (Collapse.whole m.store.scopes.size).OfMachines m m :=
    .intro (Collapse.ofStores_whole hlayered.store) hlayered.current
  have hends : ∀ {left right : Prop} {n : Nat}, Collapse.Pace left right 8 n fuel →
      Collapse.Ends left right (.whole m.store.scopes.size) m.current Collapse.OfCompletions
        (Run.execute n room tree m) direct := fun h =>
    Collapse.simulates_forLoop h initializer.returnsInFunctions_initializer condition.tree
      increment.tree hbody m m hstart rfl
  refine ⟨fun huncut => ?_, fun huncut => ?_, fun m₁ h name => ?_⟩
  · have hpace : Collapse.Pace True False 8 fuel fuel := .inl ⟨trivial, Nat.le_refl fuel⟩
    exact (hends hpace).endsAlike hlayered (fun _ => huncut) False.elim
  · have hpace : Collapse.Pace False True 8 (fuel + 8) fuel := .inr ⟨trivial, Nat.le_refl _⟩
    exact (hends hpace).endsAlike hlayered False.elim fun _ => huncut
  · exact hlayered.resolve_after_body hbody h

def Grammar.Derivation.alone (p : Derivation .primary) : Derivation (.chain .disjunction) :=
  .chain (.tighter .conjunctions (.chain (.tighter .equalities (.chain (.tighter .comparisons
    (.chain (.tighter .terms (.chain (.tighter .factors (.chain (.tightest (.call p .noCall))
      .noOperator)) .noOperator)) .noOperator)) .noOperator)) .noOperator)) .noOperator

/-- The loop `for (var i = true; i; i = false) print i;` prints once. -/
theorem for_runs_directly_once :
    let i : Token := { (default : Token) with kind := .identifier, lexeme := "i" }
    let m := Machine.start fun _ => 0
    let room : Room := ⟨0, 20⟩
    let tree : Stmt := .block [.var i (some (.literal (.bool true))),
      .loop (.variable i)
        (.block [.print (.variable i), .expression (.assign i (.literal (.bool false)))])]
    m.Reached ∧ ¬ Run.IsCut (Run.execute 20 room tree m) ∧
      Collapse.EndsAlike m (Run.execute 20 room tree m)
        (Run.forDirectly 20 room (some (.var i (some (.literal (.bool true))))) (some (.variable i))
          (some (.assign i (.literal (.bool false)))) (.print (.variable i)) m) ∧
      ((Run.execute 20 room tree).after m).printed = #["true"] := by
  intro i m room tree
  have hm : m.Reached := .start _
  have huncut : ¬ Run.IsCut (Run.execute 20 room tree m) := by
    rintro ⟨_, ⟨⟩⟩
  let name : Mark .identifier := ⟨i, List.mem_singleton.2 rfl⟩
  let yes : Derivation .primary := .literal
    ⟨{ (default : Token) with kind := .keyword .trueWord }, by simp [literals]⟩
  let no : Derivation .primary := .literal
    ⟨{ (default : Token) with kind := .keyword .falseWord }, by simp [literals]⟩
  have hends := (for_runs_directly (.any _) (.any _)
    (.varInitializer (.varWith (.any _) name (.any _) (.disjunction yes.alone) (.any _)))
    (.someExpression (.disjunction (Derivation.named name).alone)) (.any _)
    (.someExpression (.assign (Derivation.named name).alone (.any _) (.disjunction no.alone)))
    (.any _) (.print (.any _) (.disjunction (Derivation.named name).alone) (.any _)) hm 20 room).1
  exact ⟨hm, huncut, hends huncut, rfl⟩

end Lox
