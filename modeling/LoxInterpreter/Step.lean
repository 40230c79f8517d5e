/-!
Steps: computations that change a state and may stop early. A step that stops keeps the state
it reached, which is what parsers, machines and sessions have in common.
-/

namespace Lox

/-- A step on states `σ` that gives an `α` or stops with an `ε`. -/
abbrev Step (σ ε α : Type) : Type := EStateM ε σ α

namespace Step

variable {σ ε α β : Type}

@[simp] theorem pure_apply (a : α) (s : σ) : (pure a : Step σ ε α) s = .ok a s := rfl

@[simp] theorem throw_apply (e : ε) (s : σ) : (throw e : Step σ ε α) s = .error e s := rfl

@[simp] theorem get_apply (s : σ) : (get : Step σ ε σ) s = .ok s s := rfl

@[simp] theorem set_apply (s t : σ) : (set t : Step σ ε PUnit) s = .ok ⟨⟩ t := rfl

@[simp] theorem modify_apply (f : σ → σ) (s : σ) : (modify f : Step σ ε PUnit) s = .ok ⟨⟩ (f s) :=
  rfl

@[simp] theorem modifyGet_apply (f : σ → α × σ) (s : σ) :
    (modifyGet f : Step σ ε α) s = .ok (f s).1 (f s).2 := rfl

theorem bind_apply (x : Step σ ε α) (f : α → Step σ ε β) (s : σ) :
    (x >>= f) s = match x s with
      | .ok a s => f a s
      | .error e s => .error e s := by
  change EStateM.bind x f s = _
  unfold EStateM.bind
  cases x s <;> rfl

theorem bind_of_ok {x : Step σ ε α} {s s' : σ} {a : α} (h : x s = .ok a s')
    (f : α → Step σ ε β) : (x >>= f) s = f a s' := by
  rw [bind_apply, h]

theorem bind_of_error {x : Step σ ε α} {s s' : σ} {e : ε} (h : x s = .error e s')
    (f : α → Step σ ε β) : (x >>= f) s = .error e s' := by
  rw [bind_apply, h]

theorem map_apply (f : α → β) (x : Step σ ε α) (s : σ) :
    (f <$> x) s = match x s with
      | .ok a s => .ok (f a) s
      | .error e s => .error e s := by
  change EStateM.map f x s = _
  unfold EStateM.map
  cases x s <;> rfl

end Step

end Lox
