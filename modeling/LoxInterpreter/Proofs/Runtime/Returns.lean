import LoxInterpreter.Proofs.Runtime.ErrorTokens
import LoxInterpreter.Proofs.Runtime.Frames
import LoxInterpreter.Proofs.Tree.Returns

/-!
Where returns end. A return passes through blocks, conditionals and loops, and ends at the call of
the function that its statement stands in. So a statement that returns in functions only never
completes with a return of its own, and the statements of a program never do.
-/

namespace Lox

namespace Run

/-- If a part of a run completes, then not with a return. -/
def CompletesNormally (r : Run Completion) : Prop :=
  ∀ m completion m', r m = .ok completion m' → completion = .normal

namespace CompletesNormally

variable {α : Type}

theorem pure : CompletesNormally (Pure.pure .normal) := by
  rintro m completion m' ⟨⟩
  rfl

theorem throw (halt : Halt) : CompletesNormally (MonadExcept.throw halt) := by
  rintro m completion m' ⟨⟩

/-- Only the last part of a run decides how it completes. -/
theorem bind {r : Run α} {f : α → Run Completion} (h : ∀ a, CompletesNormally (f a)) :
    CompletesNormally (r >>= f) := by
  intro m completion m' hrun
  rw [Step.bind_apply] at hrun
  cases hfirst : r m with
  | ok a m₁ =>
    rw [hfirst] at hrun
    exact h a m₁ completion m' hrun
  | error halt m₁ =>
    rw [hfirst] at hrun
    cases hrun

/-- What follows a part that completes normally has to do so only after that. -/
theorem bind_normal {r : Run Completion} {f : Completion → Run Completion}
    (hr : CompletesNormally r) (hf : CompletesNormally (f .normal)) :
    CompletesNormally (r >>= f) := by
  intro m completion m' hrun
  rw [Step.bind_apply] at hrun
  cases hfirst : r m with
  | ok completion₁ m₁ =>
    obtain rfl := hr m completion₁ m₁ hfirst
    rw [hfirst] at hrun
    exact hf m₁ completion m' hrun
  | error halt m₁ =>
    rw [hfirst] at hrun
    cases hrun

theorem ite (p : Prop) [Decidable p] {r r' : Run Completion} (hr : CompletesNormally r)
    (hr' : CompletesNormally r') : CompletesNormally (if p then r else r') := by
  split
  · exact hr
  · exact hr'

theorem inBlock {body : Run Completion} (h : CompletesNormally body) :
    CompletesNormally (Run.inBlock body) := by
  intro m completion m' hrun
  unfold Run.inBlock Run.inScope at hrun
  dsimp only at hrun
  cases hbody : body { m with
      store := (m.store.openScope [] (some m.current)).2
      current := (m.store.openScope [] (some m.current)).1 } with
  | ok completion₁ m₁ =>
    rw [hbody] at hrun
    cases hrun
    exact h _ completion m₁ hbody
  | error halt m₁ =>
    rw [hbody] at hrun
    cases hrun

theorem inFrames {room : Room} {count : Nat} {body : Room → Run Completion}
    (h : ∀ room, CompletesNormally (body room)) :
    CompletesNormally (Run.inFrames room count body) :=
  Room.nested_induction (throw .recursion) h

end CompletesNormally

structure CompletesNormallyWith (fuel : Nat) : Prop where
  execute (room : Room) {s : Stmt} : s.ReturnsInFunctions →
    CompletesNormally (Run.execute fuel room s)
  executeAll (room : Room) {ss : List Stmt} : (∀ s ∈ ss, s.ReturnsInFunctions) →
    CompletesNormally (Run.executeAll fuel room ss)
  repeatWhile (room : Room) (condition : Expr) {body : Stmt} : body.ReturnsInFunctions →
    CompletesNormally (Run.repeatWhile fuel room condition body)

namespace CompletesNormallyWith

variable {fuel : Nat}

theorem step_execute (ih : CompletesNormallyWith fuel) (room : Room) {s : Stmt}
    (hs : s.ReturnsInFunctions) : CompletesNormally (Run.execute (fuel + 1) room s) := by
  refine .inFrames fun room => ?_
  match s with
  | .expression e => exact .bind fun _ => .pure
  | .print e => exact .bind fun _ => .bind fun _ => .pure
  | .var name none => exact .bind fun _ => .pure
  | .var name (some e) => exact .bind fun _ => .bind fun _ => .pure
  | .block body =>
    exact .inFrames fun room =>
      .inBlock (ih.executeAll room fun part hpart => hs.parts (by simp) hpart)
  | .conditional condition thenBranch elseBranch =>
    refine .bind fun v => .ite _ (ih.execute room (hs.parts (by simp) List.mem_cons_self)) ?_
    cases elseBranch with
    | some s => exact ih.execute room (hs.parts (by simp) (by simp [Stmt.parts]))
    | none => exact .pure
  | .loop condition body =>
    exact ih.repeatWhile room condition (hs.parts (by simp) List.mem_cons_self)
  | .function name params body => exact .bind fun _ => .bind fun _ => .pure
  | .result keyword value => exact absurd rfl (hs.ne_result keyword value)

theorem step_executeAll (ih : CompletesNormallyWith fuel) (room : Room) {ss : List Stmt}
    (hss : ∀ s ∈ ss, s.ReturnsInFunctions) :
    CompletesNormally (Run.executeAll (fuel + 1) room ss) := by
  cases ss with
  | nil => exact .pure
  | cons s ss =>
    obtain ⟨hs, hss⟩ := List.forall_mem_cons.1 hss
    exact .bind_normal (ih.execute room hs) (ih.executeAll room hss)

theorem step_repeatWhile (ih : CompletesNormallyWith fuel) (room : Room) (condition : Expr)
    {body : Stmt} (hbody : body.ReturnsInFunctions) :
    CompletesNormally (Run.repeatWhile (fuel + 1) room condition body) := by
  refine .bind fun v => .ite _ ?_ .pure
  exact .bind_normal (ih.execute room hbody) (ih.repeatWhile room condition hbody)

end CompletesNormallyWith

/-- The induction is on the fuel. Calls do not matter, whatever the functions are: a call is a part
of an expression, and an expression has a value and no completion. -/
theorem completesNormallyWith (fuel : Nat) : CompletesNormallyWith fuel := by
  induction fuel with
  | zero =>
    exact {
      execute := fun _ _ _ => .throw .exhausted
      executeAll := fun _ _ _ => .throw .exhausted
      repeatWhile := fun _ _ _ _ => .throw .exhausted }
  | succ fuel ih =>
    exact {
      execute := fun room _ => ih.step_execute room
      executeAll := fun room _ => ih.step_executeAll room
      repeatWhile := fun room condition _ => ih.step_repeatWhile room condition }

end Run

/-- A statement of a source, executed on a machine whose code is of some sources, halts with an
error of the program, unless it is stopped by the bound on its length or needs more frames than the
host has. -/
theorem Machine.failed_of_execute {sources : List CleanSource} {m m' : Machine}
    (hm : m.store.OfSources sources) {source : CleanSource} (hsource : source ∈ sources) {s : Stmt}
    (hs : s ∈ source.program) {fuel : Nat} {room : Room} {halt : Halt}
    (hrun : Run.execute fuel room s m = .error halt m') :
    (∃ e, halt = .failed e) ∨ halt = .exhausted ∨
      room.frames < s.frames ∧ halt = .recursion := by
  have hkeeps := ((kept_provenance sources).keptWith fuel).execute (w := ()) (c := m.current) room
    trivial (fun _ => trivial) (CleanSource.statement_provenance hsource s hs)
  have hexplained : Explained sources halt := hkeeps.error hm rfl hrun
  cases halt with
  | failed e => exact Or.inl ⟨e, rfl⟩
  | unsupported op => exact hexplained.elim
  | exhausted => exact Or.inr (Or.inl rfl)
  | recursion =>
    refine Or.inr (Or.inr ⟨Nat.lt_of_not_le fun hframes => ?_, rfl⟩)
    exact (Run.fitsWith fuel).execute hframes m m' hrun

/-- In a source without errors, each return statement stands in the body of a function. So no
statement of the program completes with a return that nothing would take up, whatever machine it
is executed on. After other sources, and after some statements of its own program, it completes
normally or halts with an error of the program, unless it is stopped by the bound on its length or
needs more frames than the host has. -/
theorem returns_end_in_functions (source : CleanSource) :
    (∀ s ∈ source.program, ∀ around keyword value, Stmt.Below (.result keyword value) around s →
      ∃ name params body, Stmt.function name params body ∈ around) ∧
    (∀ s ∈ source.program, ∀ fuel room m completion m',
      Run.execute fuel room s m = .ok completion m' → completion = .normal) ∧
    ∀ clock history limits before, before <+: source.program →
      let m := (((Machine.start clock).runSources history).run limits before).2
      ∀ s ∈ source.program, ∀ fuel room,
        (∃ m', Run.execute fuel room s m = .ok .normal m') ∨
        (∃ e m', Run.execute fuel room s m = .error (.failed e) m') ∨
        (∃ m', Run.execute fuel room s m = .error .exhausted m') ∨
        room.frames < s.frames ∧ ∃ m', Run.execute fuel room s m = .error .recursion m' := by
  have hnormal : ∀ s ∈ source.program, ∀ fuel room m completion m',
      Run.execute fuel room s m = .ok completion m' → completion = .normal :=
    fun s hs fuel room => (Run.completesNormallyWith fuel).execute room
      (source.returnsInFunctions s hs)
  refine ⟨source.returnsInFunctions, hnormal, ?_⟩
  intro clock history limits before hbefore m s hs fuel room
  have hsource : source ∈ history.map Prod.snd ++ [source] := by simp
  have hcode : ((Machine.start clock).runSources history).store.OfSources
      (history.map Prod.snd ++ [source]) :=
    Machine.ofSources_runSources Store.ofSources_initial fun p hp =>
      List.mem_append_left _ (List.mem_map_of_mem hp)
  have hm : m.store.OfSources (history.map Prod.snd ++ [source]) := by
    obtain ⟨⟨_, -, hlater⟩, -⟩ := (kept_provenance _).run (w := ()) limits hcode trivial
      fun t ht => CleanSource.statement_provenance hsource t (hbefore.subset ht)
    exact hlater
  cases hrun : Run.execute fuel room s m with
  | ok completion m' =>
    obtain rfl := hnormal s hs fuel room m completion m' hrun
    exact Or.inl ⟨m', rfl⟩
  | error halt m' =>
    rcases Machine.failed_of_execute hm hsource hs hrun with ⟨e, rfl⟩ | rfl | ⟨hframes, rfl⟩
    · exact Or.inr (Or.inl ⟨e, m', rfl⟩)
    · exact Or.inr (Or.inr (Or.inl ⟨m', rfl⟩))
    · exact Or.inr (Or.inr (Or.inr ⟨hframes, m', rfl⟩))

/-- A function returns to the block of a later source that calls it. Nothing of that return is left
when the block is completed. -/
theorem returns_end_in_functions_block :
    let name : Token := ⟨.identifier, "f", .nil, 1, some 4⟩
    let keyword : Token := ⟨.keyword .returnWord, "return", .nil, 1, some 8⟩
    let result : Stmt := .result keyword (some (.variable ⟨.identifier, "f", .nil, 1, some 15⟩))
    let f : Stmt := .function name [] [result]
    ∃ first second : CleanSource, first.text = "fun f()\x7breturn f;\x7d" ∧
      second.text = "\x7bprint f();\x7d" ∧
      f ∈ first.program ∧ Stmt.Below result [f] f ∧
      (∃ name params body, Stmt.function name params body ∈ [f]) ∧
      let m := (((Machine.start fun _ => 0).runSources [(⟨9, 1, 99⟩, first)]).run ⟨9, 1, 99⟩ []).2
      ∃ block ∈ second.program, ∃ m',
        Run.execute 12 ⟨1, 12⟩ block m = .ok .normal m' ∧ m'.printed = #["<fn f>"] := by
  intro name keyword result f
  let tokens : List Token := [⟨.keyword .funWord, "fun", .nil, 1, some 0⟩, name,
    ⟨.leftParen, "(", .nil, 1, some 5⟩, ⟨.rightParen, ")", .nil, 1, some 6⟩,
    ⟨.leftBrace, "\x7b", .nil, 1, some 7⟩, keyword, ⟨.identifier, "f", .nil, 1, some 15⟩,
    ⟨.semicolon, ";", .nil, 1, some 16⟩, ⟨.rightBrace, "\x7d", .nil, 1, some 17⟩,
    ⟨.eof, "", .nil, 1, some 18⟩]
  let tokens' : List Token := [⟨.leftBrace, "\x7b", .nil, 2, some 0⟩,
    ⟨.keyword .printWord, "print", .nil, 2, some 1⟩, ⟨.identifier, "f", .nil, 2, some 7⟩,
    ⟨.leftParen, "(", .nil, 2, some 8⟩, ⟨.rightParen, ")", .nil, 2, some 9⟩,
    ⟨.semicolon, ";", .nil, 2, some 10⟩, ⟨.rightBrace, "\x7d", .nil, 2, some 11⟩,
    ⟨.eof, "", .nil, 2, some 12⟩]
  have hscan : scan "fun f()\x7breturn f;\x7d" 1 = .ok tokens := by cbv
  have hscan' : scan "\x7bprint f();\x7d" 2 = .ok tokens' := by cbv
  let first : CleanSource := ⟨_, 1, _, hscan, by decide +kernel⟩
  let second : CleanSource := ⟨_, 2, _, hscan', by decide +kernel⟩
  let block : Stmt := .block [.print (.call (.variable ⟨.identifier, "f", .nil, 2, some 7⟩)
    ⟨.rightParen, ")", .nil, 2, some 9⟩ [])]
  have hfirst : first.program = [f] := rfl
  have hsecond : second.program = [block] := rfl
  have hf : f ∈ first.program := hfirst ▸ List.mem_cons_self
  have hblock : block ∈ second.program := hsecond ▸ List.mem_cons_self
  have hbelow : Stmt.Below result [f] f := .part List.mem_cons_self .self
  obtain ⟨hstatic, -, -⟩ := returns_end_in_functions first
  refine ⟨first, second, rfl, rfl, hf, hbelow, hstatic f hf _ _ _ hbelow, ?_⟩
  intro m
  have hrun : ∃ completion m', Run.execute 12 ⟨1, 12⟩ block m = .ok completion m' ∧
      m'.printed = #["<fn f>"] := by
    simp only [m, Machine.runSources, Machine.runAll, List.map_cons, List.map_nil,
      List.foldl_cons, List.foldl_nil, hfirst]
    exact ⟨_, _, rfl, rfl⟩
  have hends : (∃ m', Run.execute 12 ⟨1, 12⟩ block m = .ok .normal m') ∨
      (∃ e m', Run.execute 12 ⟨1, 12⟩ block m = .error (.failed e) m') ∨
      (∃ m', Run.execute 12 ⟨1, 12⟩ block m = .error .exhausted m') ∨
      12 < block.frames ∧ ∃ m', Run.execute 12 ⟨1, 12⟩ block m = .error .recursion m' :=
    (returns_end_in_functions second).2.2 (fun _ => 0) [(⟨9, 1, 99⟩, first)] ⟨9, 1, 99⟩ []
      List.nil_prefix block hblock 12 ⟨1, 12⟩
  obtain ⟨completion, m', hrun, hprinted⟩ := hrun
  refine ⟨block, hblock, m', ?_, hprinted⟩
  clear_value m
  rcases hends with ⟨m'', hok⟩ | ⟨e, m'', herror⟩ | ⟨m'', herror⟩ | ⟨-, m'', herror⟩
  · rw [hrun] at hok
    cases hok
    exact hrun
  · rw [hrun] at herror
    cases herror
  · rw [hrun] at herror
    cases herror
  · rw [hrun] at herror
    cases herror

end Lox
