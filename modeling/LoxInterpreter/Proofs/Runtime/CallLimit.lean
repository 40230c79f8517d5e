import LoxInterpreter.Machine.Run

/-!
The limits of runs. Larger limits change nothing about a run that keeps within smaller ones: the
bounds decide only whether a run is cut off, and what is done up to there does not depend on them.
So a run that does not overflow the stack prints the same, ends alike and leaves the same machine
behind when more calls may be nested. Where there are fewer frames than calls, the limit on calls
does not count at all.
-/

namespace Lox

namespace Run

variable {α β : Type} {cut : Halt → Prop}

/-- From each machine, the second part of a run does what the first one does, unless the first one
is cut off. -/
def Extends (cut : Halt → Prop) (r r' : Run α) : Prop :=
  ∀ m, r' m = r m ∨ ∃ halt m', r m = .error halt m' ∧ cut halt

namespace Extends

variable {r r' q q' : Run α}

theorem refl (r : Run α) : Extends cut r r := fun _ => Or.inl rfl

theorem throw_of_cut {halt : Halt} (h : cut halt) : Extends cut (throw halt) r' :=
  fun m => Or.inr ⟨halt, m, rfl, h⟩

theorem bind {f f' : α → Run β} (hr : Extends cut r r') (hf : ∀ a, Extends cut (f a) (f' a)) :
    Extends cut (r >>= f) (r' >>= f') := by
  intro m
  rcases hr m with heq | ⟨halt, m', hcut, hhalt⟩
  · rw [Step.bind_apply, Step.bind_apply, heq]
    cases r m with
    | ok a m' => exact hf a m'
    | error halt m' => exact Or.inl rfl
  · exact Or.inr ⟨halt, m', Step.bind_of_error hcut f, hhalt⟩

theorem ite (p : Prop) [Decidable p] (hr : Extends cut r r') (hq : Extends cut q q') :
    Extends cut (if p then r else q) (if p then r' else q') := by
  split
  · exact hr
  · exact hq

theorem inScope (bindings : List (String × Value)) (enclosing : ScopeId)
    (h : Extends cut r r') :
    Extends cut (Run.inScope bindings enclosing r) (Run.inScope bindings enclosing r') := by
  intro m
  rcases h { m with
      store := (m.store.openScope bindings (some enclosing)).2
      current := (m.store.openScope bindings (some enclosing)).1 } with
    heq | ⟨halt, m', hcut, hhalt⟩
  · left
    unfold Run.inScope
    dsimp only
    rw [heq]
  · refine Or.inr ⟨halt, { m' with current := m.current }, ?_, hhalt⟩
    unfold Run.inScope
    dsimp only
    rw [hcut]

theorem inBlock (h : Extends cut r r') : Extends cut (Run.inBlock r) (Run.inBlock r') :=
  fun m => inScope [] m.current h m

/-- Taking frames extends if what is done in them does. A run that is out of frames counts as cut
off, unless there are as many frames on both sides. -/
theorem inFrames {room room' : Room} {count : Nat} {body body' : Room → Run α}
    (hframes : room.frames = room'.frames ∨ room.frames ≤ room'.frames ∧ cut .recursion)
    (h : count ≤ room.frames →
      Extends cut (body ⟨room.depth, room.frames - count⟩)
        (body' ⟨room'.depth, room'.frames - count⟩)) :
    Extends cut (Run.inFrames room count body) (Run.inFrames room' count body') := by
  unfold Run.inFrames Room.nested
  by_cases hroom : count ≤ room.frames
  · have hroom' : count ≤ room'.frames := by omega
    rw [if_pos hroom, if_pos hroom']
    exact h hroom
  · rw [if_neg hroom]
    rcases hframes with heq | ⟨-, hcut⟩
    · rw [if_neg (heq ▸ hroom)]
      exact .refl _
    · exact .throw_of_cut hcut

theorem overflowing {paren : Token} (hcut : cut .recursion → cut (.failed ⟨paren, .stackOverflow⟩))
    (h : Extends cut r r') : Extends cut (Run.overflowing paren r) (Run.overflowing paren r') := by
  intro m
  rcases h m with heq | ⟨halt, m', hrun, hhalt⟩
  · left
    unfold Run.overflowing
    rw [heq]
  · right
    by_cases hrecursion : halt = .recursion
    · subst hrecursion
      exact ⟨_, m', overflowing_of_recursion hrun paren, hcut hhalt⟩
    · exact ⟨halt, m', overflowing_of_error hrun hrecursion paren, hhalt⟩

end Extends

end Run

/-- The second of two related rooms does for a run what the first one does, unless the run is cut
off in the first one. -/
structure Room.Widening (cut : Halt → Prop) (T : Room → Room → Prop) : Prop where
  frames {room room' : Room} : T room room' →
    room.frames = room'.frames ∨ room.frames ≤ room'.frames ∧ cut .recursion
  nested {room room' : Room} {count : Nat} : T room room' → count ≤ room.frames →
    T ⟨room.depth, room.frames - count⟩ ⟨room'.depth, room'.frames - count⟩
  /-- No call is possible on both sides, or it is cut off in the first room, or it takes as much of
  both. -/
  call {room room' : Room} : T room room' →
    room.depth = 0 ∧ (room'.depth = 0 ∨ ∀ paren, cut (.failed ⟨paren, .stackOverflow⟩)) ∨
      ∃ depth depth', room.depth = depth + 1 ∧ room'.depth = depth' + 1 ∧
        (2 ≤ room.frames → T ⟨depth, room.frames - 2⟩ ⟨depth', room'.frames - 2⟩)
  overflow : cut .recursion → ∀ paren, cut (.failed ⟨paren, .stackOverflow⟩)

namespace Run

variable {α β : Type} {cut : Halt → Prop} {T : Room → Room → Prop}

/-- All parts of runs with the second fuel extend those with the first one, in rooms that are
related. -/
structure ExtendsWith (cut : Halt → Prop) (T : Room → Room → Prop) (fuel fuel' : Nat) : Prop where
  evaluate {room room' : Room} (h : T room room') (e : Expr) :
    Extends cut (Run.evaluate fuel room e) (Run.evaluate fuel' room' e)
  evaluateAll {room room' : Room} (h : T room room') (es : List Expr) :
    Extends cut (Run.evaluateAll fuel room es) (Run.evaluateAll fuel' room' es)
  call {room room' : Room} (h : T room room') (f : Value) (paren : Token) (args : List Value) :
    Extends cut (Run.call fuel room f paren args) (Run.call fuel' room' f paren args)
  execute {room room' : Room} (h : T room room') (s : Stmt) :
    Extends cut (Run.execute fuel room s) (Run.execute fuel' room' s)
  executeAll {room room' : Room} (h : T room room') (ss : List Stmt) :
    Extends cut (Run.executeAll fuel room ss) (Run.executeAll fuel' room' ss)
  repeatWhile {room room' : Room} (h : T room room') (condition : Expr) (body : Stmt) :
    Extends cut (Run.repeatWhile fuel room condition body)
      (Run.repeatWhile fuel' room' condition body)

theorem Extends.inFrames_of_widening (hT : Room.Widening cut T) {room room' : Room} {count : Nat}
    {body body' : Room → Run α} (h : T room room')
    (hbody : ∀ {room room'}, T room room' → Extends cut (body room) (body' room')) :
    Extends cut (Run.inFrames room count body) (Run.inFrames room' count body') :=
  .inFrames (hT.frames h) fun hcount => hbody (hT.nested h hcount)

namespace ExtendsWith

variable {fuel fuel' : Nat} {room room' : Room}

theorem step_evaluate (hT : Room.Widening cut T) (ih : ExtendsWith cut T fuel fuel')
    (h : T room room') (e : Expr) :
    Extends cut (Run.evaluate (fuel + 1) room e) (Run.evaluate (fuel' + 1) room' e) := by
  refine .inFrames_of_widening hT h fun {room room'} h => ?_
  cases e with
  | literal l => exact .refl _
  | grouping inner => exact ih.evaluate h inner
  | unary op right => exact .bind (ih.evaluate h right) fun v => .refl _
  | binary left op right =>
    exact .bind (ih.evaluate h left) fun v => .bind (ih.evaluate h right) fun w => .refl _
  | logical left op right =>
    exact .bind (ih.evaluate h left) fun v => .ite _ (.refl _) (ih.evaluate h right)
  | «variable» name => exact .refl _
  | assign name value => exact .bind (ih.evaluate h value) fun v => .refl _
  | call callee paren arguments =>
    exact .bind (ih.evaluate h callee) fun f =>
      .bind (ih.evaluateAll h arguments) fun args => ih.call h f paren args

theorem step_evaluateAll (ih : ExtendsWith cut T fuel fuel') (h : T room room')
    (es : List Expr) :
    Extends cut (Run.evaluateAll (fuel + 1) room es)
      (Run.evaluateAll (fuel' + 1) room' es) := by
  cases es with
  | nil => exact .refl _
  | cons e es =>
    exact .bind (ih.evaluate h e) fun v => .bind (ih.evaluateAll h es) fun vs => .refl _

/-- Only here the limit on calls counts: the smaller one may cut the run off. -/
theorem step_call (hT : Room.Widening cut T) (ih : ExtendsWith cut T fuel fuel')
    (h : T room room') (f : Value) (paren : Token) (args : List Value) :
    Extends cut (Run.call (fuel + 1) room f paren args)
      (Run.call (fuel' + 1) room' f paren args) := by
  refine .inFrames_of_widening hT h fun {room room'} h => ?_
  have hovercut : cut .recursion → cut (.failed ⟨paren, .stackOverflow⟩) := fun hcut =>
    hT.overflow hcut paren
  split
  · exact .refl _
  · refine .ite _ (.refl _) ?_
    split
    · rcases hT.call h with ⟨hzero, hzero' | hcut⟩ | ⟨depth, depth', hdepth, hdepth', hcall⟩
      · rw [hzero, hzero']
        exact .refl _
      · rw [hzero]
        exact .throw_of_cut (hcut paren)
      · rw [hdepth, hdepth']
        have hframes := hT.frames h
        refine .overflowing hovercut (.inFrames hframes fun hcount => ?_)
        refine .bind (.inScope _ _ (ih.executeAll (hcall hcount) _)) fun completion => ?_
        exact .refl _
    · exact .overflowing hovercut (.inFrames_of_widening hT h fun _ => .refl _)

theorem step_execute (hT : Room.Widening cut T) (ih : ExtendsWith cut T fuel fuel')
    (h : T room room') (s : Stmt) :
    Extends cut (Run.execute (fuel + 1) room s) (Run.execute (fuel' + 1) room' s) := by
  refine .inFrames_of_widening hT h fun {room room'} h => ?_
  match s with
  | .expression e => exact .bind (ih.evaluate h e) fun _ => .refl _
  | .print e => exact .bind (ih.evaluate h e) fun v => .refl _
  | .var name none => exact .refl _
  | .var name (some e) => exact .bind (ih.evaluate h e) fun v => .refl _
  | .block body =>
    exact .inFrames_of_widening hT h fun h => .inBlock (ih.executeAll h body)
  | .conditional condition thenBranch none =>
    exact .bind (ih.evaluate h condition) fun v => .ite _ (ih.execute h thenBranch) (.refl _)
  | .conditional condition thenBranch (some elseBranch) =>
    exact .bind (ih.evaluate h condition) fun v =>
      .ite _ (ih.execute h thenBranch) (ih.execute h elseBranch)
  | .loop condition body => exact ih.repeatWhile h condition body
  | .function name params body => exact .refl _
  | .result _ none => exact .refl _
  | .result _ (some e) => exact .bind (ih.evaluate h e) fun v => .refl _

theorem step_executeAll (ih : ExtendsWith cut T fuel fuel') (h : T room room')
    (ss : List Stmt) :
    Extends cut (Run.executeAll (fuel + 1) room ss)
      (Run.executeAll (fuel' + 1) room' ss) := by
  cases ss with
  | nil => exact .refl _
  | cons s ss =>
    refine .bind (ih.execute h s) fun completion => ?_
    cases completion with
    | normal => exact ih.executeAll h ss
    | returned v => exact .refl _

theorem step_repeatWhile (ih : ExtendsWith cut T fuel fuel') (h : T room room')
    (condition : Expr) (body : Stmt) :
    Extends cut (Run.repeatWhile (fuel + 1) room condition body)
      (Run.repeatWhile (fuel' + 1) room' condition body) := by
  refine .bind (ih.evaluate h condition) fun v => .ite _ ?_ (.refl _)
  refine .bind (ih.execute h body) fun completion => ?_
  cases completion with
  | normal => exact ih.repeatWhile h condition body
  | returned v => exact .refl _

end ExtendsWith

/-- Wider rooms only extend runs. If the fuel differs, a run that is out of fuel counts as cut off
as well. The induction is on the smaller fuel, which every recursion uses up together with the
larger one. -/
theorem extendsWith (hT : Room.Widening cut T) {fuel fuel' : Nat} (hfuel : fuel ≤ fuel')
    (hexhausted : fuel = fuel' ∨ cut .exhausted) : ExtendsWith cut T fuel fuel' := by
  induction fuel generalizing fuel' with
  | zero =>
    rcases hexhausted with rfl | hexhausted
    · exact {
        evaluate := fun _ _ => .refl _
        evaluateAll := fun _ _ => .refl _
        call := fun _ _ _ _ => .refl _
        execute := fun _ _ => .refl _
        executeAll := fun _ _ => .refl _
        repeatWhile := fun _ _ _ => .refl _ }
    · exact {
        evaluate := fun _ _ => .throw_of_cut hexhausted
        evaluateAll := fun _ _ => .throw_of_cut hexhausted
        call := fun _ _ _ _ => .throw_of_cut hexhausted
        execute := fun _ _ => .throw_of_cut hexhausted
        executeAll := fun _ _ => .throw_of_cut hexhausted
        repeatWhile := fun _ _ _ => .throw_of_cut hexhausted }
  | succ fuel ih =>
    obtain ⟨more, rfl⟩ : ∃ more, fuel' = more + 1 :=
      Nat.exists_eq_add_of_le' (Nat.le_of_add_left_le hfuel)
    have ih := ih (Nat.le_of_succ_le_succ hfuel) (hexhausted.imp_left Nat.succ.inj)
    exact {
      evaluate := ih.step_evaluate hT
      evaluateAll := ih.step_evaluateAll
      call := ih.step_call hT
      execute := ih.step_execute hT
      executeAll := ih.step_executeAll
      repeatWhile := ih.step_repeatWhile }

theorem extends_executeProgram {fuel fuel' : Nat} {room room' : Room}
    (h : ExtendsWith cut T fuel fuel') (hroom : T room room') (program : List Stmt) :
    Extends cut (executeProgram fuel room program) (executeProgram fuel' room' program) := by
  induction program with
  | nil => exact .refl _
  | cons s ss ih => exact .bind (h.execute hroom s) fun _ => ih

end Run

namespace Room

variable {cut : Halt → Prop}

theorem widening_eq (hoverflow : cut .recursion → ∀ paren, cut (.failed ⟨paren, .stackOverflow⟩)) :
    Widening cut Eq where
  frames h := Or.inl (congrArg frames h)
  nested {_ _ count} h _ := congrArg (fun room => Room.mk room.depth (room.frames - count)) h
  call := by
    rintro ⟨depth, frames⟩ _ rfl
    cases depth with
    | zero => exact Or.inl ⟨rfl, Or.inl rfl⟩
    | succ depth => exact Or.inr ⟨depth, depth, rfl, rfl, fun _ => rfl⟩
  overflow := hoverflow

/-- Each call takes frames, so that where fewer frames than calls are left, the calls are no
bound. -/
theorem widening_of_frames : Widening (fun _ => False) fun room room' =>
    room.frames = room'.frames ∧ room.frames < room.depth ∧ room'.frames < room'.depth where
  frames h := Or.inl h.1
  nested h _ := by
    dsimp only
    omega
  call := by
    rintro ⟨depth, frames⟩ ⟨depth', frames'⟩ ⟨rfl, hdepth, hdepth'⟩
    refine Or.inr ⟨depth - 1, depth' - 1, ?_, ?_, fun hframes => ⟨rfl, ?_, ?_⟩⟩
    all_goals
      dsimp only at *
      omega
  overflow := False.elim

end Room

namespace Machine

variable {cut : Halt → Prop} {T : Room → Room → Prop}

/-- A run that is not cut off is the same under larger limits, and leaves the same machine
behind. -/
theorem run_eq_or_cut (low high : Limits) (hT : Room.Widening cut T)
    (hroom : T low.calls high.calls) (hfuel : low.fuel ≤ high.fuel)
    (hexhausted : low.fuel = high.fuel ∨ cut .exhausted) (program : List Stmt) (m : Machine) :
    m.run high program = m.run low program ∨
      ∃ halt, (m.run low program).1 = some halt ∧ cut halt := by
  have hextends := Run.extends_executeProgram (Run.extendsWith hT hfuel hexhausted) hroom program
  unfold Machine.run
  rcases hextends m with heq | ⟨halt, m', hrun, hhalt⟩
  · exact Or.inl (by rw [heq])
  · exact Or.inr ⟨halt, by rw [hrun], hhalt⟩

/-- How many calls may be nested does not matter where this is more than there are frames. -/
theorem run_eq_of_frames_lt {fuel depth depth' frames : Nat} (h : frames < depth)
    (h' : frames < depth') (program : List Stmt) (m : Machine) :
    m.run ⟨fuel, depth', frames⟩ program = m.run ⟨fuel, depth, frames⟩ program := by
  rcases run_eq_or_cut ⟨fuel, depth, frames⟩ ⟨fuel, depth', frames⟩
    Room.widening_of_frames ⟨rfl, h, h'⟩ (Nat.le_refl fuel) (Or.inl rfl) program m with
    heq | ⟨_, _, hcut⟩
  · exact heq
  · exact hcut.elim

/-- A run that does not use up its fuel is the same with more of it. -/
theorem run_eq_of_fuel_le {fuel fuel' : Nat} {room : Room} {program : List Stmt} {m : Machine}
    (hfuel : fuel ≤ fuel') (h : (m.run ⟨fuel, room⟩ program).1 ≠ some .exhausted) :
    m.run ⟨fuel', room⟩ program = m.run ⟨fuel, room⟩ program := by
  have hT : Room.Widening (· = .exhausted) Eq := Room.widening_eq (by rintro ⟨⟩)
  rcases run_eq_or_cut ⟨fuel, room⟩ ⟨fuel', room⟩ hT rfl hfuel (Or.inr rfl)
    program m with heq | ⟨_, hhalt, rfl⟩
  · exact heq
  · exact absurd hhalt h

/-- However much fuel a run has, it does not come to an end. -/
def GoesOn (m : Machine) (room : Room) (program : List Stmt) : Prop :=
  ∀ fuel, (m.run ⟨fuel, room⟩ program).1 = some .exhausted

/-- With fuel enough, a run halts this way, or not at all, and leaves that machine behind. -/
def EndsWith (m : Machine) (room : Room) (program : List Stmt) (halt : Option Halt)
    (m' : Machine) : Prop :=
  halt ≠ some .exhausted ∧ ∃ fuel, ∀ fuel' ≥ fuel, m.run ⟨fuel', room⟩ program = (halt, m')

theorem goesOn_or_endsWith (m : Machine) (room : Room) (program : List Stmt) :
    m.GoesOn room program ∨ ∃ halt m', m.EndsWith room program halt m' := by
  by_cases h : m.GoesOn room program
  · exact Or.inl h
  · obtain ⟨fuel, hfuel⟩ := Classical.not_forall.1 h
    exact Or.inr ⟨_, _, hfuel, fuel, fun _ hle => run_eq_of_fuel_le hle hfuel⟩

end Machine

end Lox
