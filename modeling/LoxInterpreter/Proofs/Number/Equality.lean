import LoxInterpreter.Value

/-!
Equality of floating-point numbers. They are compared unpacked: two numbers are equal if they are
the same up to the sign of zero, and what is not a number is equal to nothing.
-/

namespace Lox

open Float.Model (UnpackedFloat)

namespace FloatModel

variable {u v : UnpackedFloat}

/-- The number without the sign that a zero has. -/
def unsignedZero : UnpackedFloat → UnpackedFloat
  | .zero _ => .zero .positive
  | u => u

theorem unsignedZero_eq_notANumber : unsignedZero u = .notANumber ↔ u = .notANumber := by
  cases u with
  | notANumber => exact iff_of_true rfl rfl
  | zero | infinity | finite => exact iff_of_false (by rintro ⟨⟩) (by rintro ⟨⟩)

/-- Of two finite numbers with one sign, the exponents and the mantissas are compared. -/
theorem finite_compare_eq_iff {s : UnpackedFloat.Sign} {m m' : Nat} {e e' : Int} {hm : 0 < m}
    {hm' : 0 < m'} : (compare e e').then (compare m m') = .eq ↔
      UnpackedFloat.finite s m e hm ≠ .notANumber ∧
        unsignedZero (.finite s m e hm) = unsignedZero (.finite s m' e' hm') := by
  rw [Ordering.then_eq_eq, Std.LawfulEqCmp.compare_eq_iff_eq, Std.LawfulEqCmp.compare_eq_iff_eq]
  constructor
  · rintro ⟨rfl, rfl⟩
    exact ⟨by rintro ⟨⟩, rfl⟩
  · rintro ⟨-, heq⟩
    cases heq
    exact ⟨rfl, rfl⟩

theorem compare_eq_iff :
    u.compare v = some .eq ↔ u ≠ .notANumber ∧ unsignedZero u = unsignedZero v := by
  cases u with
  | notANumber => exact iff_of_false (by rintro ⟨⟩) fun h => h.1 rfl
  | zero s => cases v with
    | zero s' => exact iff_of_true rfl ⟨by rintro ⟨⟩, rfl⟩
    | notANumber => exact iff_of_false (by rintro ⟨⟩) (by rintro ⟨-, ⟨⟩⟩)
    | infinity s' | finite s' m' e' hm' =>
      cases s' <;> exact iff_of_false (by rintro ⟨⟩) (by rintro ⟨-, ⟨⟩⟩)
  | infinity s => cases v with
    | infinity s' =>
      cases s <;> cases s'
      · exact iff_of_true rfl ⟨by rintro ⟨⟩, rfl⟩
      · exact iff_of_false (by rintro ⟨⟩) (by rintro ⟨-, ⟨⟩⟩)
      · exact iff_of_false (by rintro ⟨⟩) (by rintro ⟨-, ⟨⟩⟩)
      · exact iff_of_true rfl ⟨by rintro ⟨⟩, rfl⟩
    | notANumber => exact iff_of_false (by rintro ⟨⟩) (by rintro ⟨-, ⟨⟩⟩)
    | zero s' | finite s' m' e' hm' =>
      cases s <;> exact iff_of_false (by rintro ⟨⟩) (by rintro ⟨-, ⟨⟩⟩)
  | finite s m e hm => cases v with
    | notANumber => exact iff_of_false (by rintro ⟨⟩) (by rintro ⟨-, ⟨⟩⟩)
    | zero s' => cases s <;> exact iff_of_false (by rintro ⟨⟩) (by rintro ⟨-, ⟨⟩⟩)
    | infinity s' => cases s' <;> exact iff_of_false (by rintro ⟨⟩) (by rintro ⟨-, ⟨⟩⟩)
    | finite s' m' e' hm' =>
      cases s <;> cases s'
      · exact Option.some_inj.trans (Ordering.swap_eq_eq.trans finite_compare_eq_iff)
      · exact iff_of_false (by rintro ⟨⟩) (by rintro ⟨-, ⟨⟩⟩)
      · exact iff_of_false (by rintro ⟨⟩) (by rintro ⟨-, ⟨⟩⟩)
      · exact Option.some_inj.trans finite_compare_eq_iff

end FloatModel

open FloatModel

variable {x y z : Float}

theorem beq_iff_unpack : (x == y) = true ↔ x.toModel.unpack ≠ .notANumber ∧
    unsignedZero x.toModel.unpack = unsignedZero y.toModel.unpack := by
  have hbeq : (x == y) = (x.toModel.unpack.compare y.toModel.unpack == some .eq) := rfl
  rw [hbeq, beq_iff_eq, compare_eq_iff]

theorem isNaN_iff_unpack : x.isNaN = true ↔ x.toModel.unpack = .notANumber := by
  have hisNaN : x.isNaN = x.toModel.unpack.isNaN := rfl
  rw [hisNaN]
  cases x.toModel.unpack with
  | notANumber => exact iff_of_true rfl rfl
  | zero | infinity | finite => exact iff_of_false (by rintro ⟨⟩) (by rintro ⟨⟩)

/-- Numbers that are equal to a number are numbers. -/
theorem unpack_ne_of_beq (h : (x == y) = true) : y.toModel.unpack ≠ .notANumber := by
  obtain ⟨hx, heq⟩ := beq_iff_unpack.1 h
  intro hy
  exact hx (unsignedZero_eq_notANumber.1 (heq.trans (unsignedZero_eq_notANumber.2 hy)))

theorem beq_symm (h : (x == y) = true) : (y == x) = true :=
  beq_iff_unpack.2 ⟨unpack_ne_of_beq h, (beq_iff_unpack.1 h).2.symm⟩

theorem beq_trans (h : (x == y) = true) (h' : (y == z) = true) : (x == z) = true :=
  beq_iff_unpack.2
    ⟨(beq_iff_unpack.1 h).1, (beq_iff_unpack.1 h).2.trans (beq_iff_unpack.1 h').2⟩

theorem beq_self_iff : (x == x) = true ↔ x.isNaN = false := by
  rw [beq_iff_unpack, ← Bool.not_eq_true, isNaN_iff_unpack]
  exact and_iff_left rfl

end Lox
