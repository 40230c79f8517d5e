import LoxInterpreter.Step

/-!
Steps that mirror each other. A step mirrors another one if it does with images of states what the
other one does with the states themselves: it ends in the image of the state that the other one
reaches, with the image of what that gives or stops with.
-/

namespace Lox

namespace Step

variable {σ τ ε δ α β γ κ : Type}

/-- The image of the end of a step, in which states, reasons to stop and results are replaced. -/
def image (state : σ → τ) (stop : ε → δ) (f : α → β) :
    EStateM.Result ε σ α → EStateM.Result δ τ β
  | .ok a s => .ok (f a) (state s)
  | .error e s => .error (stop e) (state s)

/-- The step `q` does with images of states what `p` does with the states. -/
def Mirrors (state : σ → τ) (stop : ε → δ) (f : α → β) (p : Step σ ε α) (q : Step τ δ β) : Prop :=
  ∀ s, q (state s) = image state stop f (p s)

namespace Mirrors

variable {state : σ → τ} {stop : ε → δ} {f : α → β} {g : γ → κ} {p p' : Step σ ε α}
  {q q' : Step τ δ β}

theorem pure (a : α) : Mirrors state stop f (Pure.pure a) (Pure.pure (f a)) := fun _ => rfl

theorem throw (e : ε) :
    Mirrors state stop f (MonadExcept.throw e) (MonadExcept.throw (stop e)) := fun _ => rfl

theorem bind {r : α → Step σ ε γ} {t : β → Step τ δ κ} (hp : Mirrors state stop f p q)
    (hr : ∀ a, Mirrors state stop g (r a) (t (f a))) :
    Mirrors state stop g (p >>= r) (q >>= t) := by
  intro s
  rw [bind_apply, bind_apply, hp s]
  cases p s with
  | ok a s' => exact hr a s'
  | error e s' => rfl

theorem map {r : α → γ} {t : β → κ} (hp : Mirrors state stop f p q)
    (hr : ∀ a, t (f a) = g (r a)) : Mirrors state stop g (r <$> p) (t <$> q) := by
  intro s
  rw [map_apply, map_apply, hp s]
  cases p s with
  | ok a s' =>
    dsimp only [image]
    rw [hr]
  | error e s' => rfl

theorem ite (c : Prop) [Decidable c] (hp : Mirrors state stop f p q)
    (hp' : Mirrors state stop f p' q') :
    Mirrors state stop f (if c then p else p') (if c then q else q') := by
  split
  · exact hp
  · exact hp'

end Mirrors

end Step

end Lox
