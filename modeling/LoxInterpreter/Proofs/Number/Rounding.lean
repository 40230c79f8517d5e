import LoxInterpreter.Number.Binary
import Mathlib.Algebra.Order.Field.Power
import Mathlib.Data.Rat.Cast.Order
import Mathlib.Tactic.FieldSimp
import Mathlib.Data.Nat.Cast.Field
import Mathlib.Tactic.Linarith
import Mathlib.Tactic.LinearCombination
import Mathlib.Tactic.NormNum
import Mathlib.Tactic.Positivity
import Mathlib.Tactic.Ring

/-!
Rounding. Around each binary number there is an interval of the reals that are read as this number.
The intervals of different numbers have nothing in common, and follow each other as the numbers do.
The shortest decimal of a number lies in its interval.
-/

namespace Lox

namespace Decimal

def size (d : Decimal) : ℚ := d.digits * 10 ^ d.exponent

def value (d : Decimal) : ℚ := if d.negative then -d.size else d.size

/-- Zeros at the end of the digits stand for the exponent. -/
theorem stripZeros_size (d : Decimal) : d.stripZeros.size = d.size := by
  fun_induction stripZeros d with
  | case1 d h ih =>
    obtain ⟨n, hn⟩ := Nat.dvd_of_mod_eq_zero h.2
    rw [ih, size, size, zpow_add₀ (by norm_num), hn, Nat.mul_div_cancel_left n (by norm_num)]
    push_cast
    ring
  | case2 => rfl

theorem stripZeros_negative (d : Decimal) : d.stripZeros.negative = d.negative := by
  fun_induction stripZeros d with
  | case1 d h ih => exact ih
  | case2 => rfl

/-- Nothing but zero itself is left with a zero at the end. -/
theorem stripZeros_mod (d : Decimal) (hne : d.digits ≠ 0) : d.stripZeros.digits % 10 ≠ 0 := by
  fun_induction stripZeros d with
  | case1 d h ih =>
    refine ih ?_
    dsimp only
    omega
  | case2 d hnot => exact fun hmod => hnot ⟨hne, hmod⟩

end Decimal

namespace Binary

def size (b : Binary) : ℚ := b.mantissa * 2 ^ b.exponent

def value (b : Binary) : ℚ := if b.negative then -b.size else b.size

/-- A quarter of the last place. -/
def quarter (b : Binary) : ℚ := 2 ^ (b.exponent - 2)

theorem quarter_pos (b : Binary) : 0 < b.quarter := zpow_pos (by norm_num) _

theorem size_eq (b : Binary) : b.size = 4 * b.mantissa * b.quarter := by
  rw [size, quarter, zpow_sub₀ (by norm_num)]
  ring

theorem size_nonneg (b : Binary) : 0 ≤ b.size := by
  rw [size]
  positivity

theorem abs_value (b : Binary) : |b.value| = b.size := by
  rw [value]
  cases b.negative <;> simp [abs_of_nonneg b.size_nonneg]

def low (b : Binary) : ℚ := ((4 * b.mantissa - b.gapBelow : ℕ) : ℚ) * b.quarter

def high (b : Binary) : ℚ := ((4 * b.mantissa + 2 : ℕ) : ℚ) * b.quarter

/-- A number in the interval of a binary number is read as this one. The ends of the interval belong
to it if the mantissa is even. -/
structure ReadFrom (b : Binary) (q : ℚ) : Prop where
  low_le : b.low ≤ q
  le_high : q ≤ b.high
  inner : b.mantissa % 2 = 1 → b.low < q ∧ q < b.high

variable {b b' : Binary} {q q' : ℚ}

theorem gapBelow_le (b : Binary) : 1 ≤ b.gapBelow ∧ b.gapBelow ≤ 2 := by
  unfold gapBelow
  split <;> omega

/-- A number is read as itself. -/
theorem readFrom_size (b : Binary) : b.ReadFrom b.size := by
  have hpos := b.quarter_pos
  have hle : ((4 * b.mantissa - b.gapBelow : ℕ) : ℚ) ≤ 4 * b.mantissa := by
    exact_mod_cast Nat.sub_le _ _
  refine ⟨?_, ?_, fun hodd => ⟨?_, ?_⟩⟩ <;> rw [size_eq]
  · exact mul_le_mul_of_nonneg_right hle hpos.le
  · refine mul_le_mul_of_nonneg_right ?_ hpos.le
    push_cast
    linarith
  · have hlt : ((4 * b.mantissa - b.gapBelow : ℕ) : ℚ) < 4 * b.mantissa := by
      have hgap := b.gapBelow_le
      have : 4 * b.mantissa - b.gapBelow < 4 * b.mantissa := by omega
      exact_mod_cast this
    exact mul_lt_mul_of_pos_right hlt hpos
  · refine mul_lt_mul_of_pos_right ?_ hpos
    push_cast
    linarith

/-! ### Doubles -/

/-- A number that fits in 64 bits: its mantissa has at most 53 bits, and fewer only at the lowest
exponent. -/
structure IsDouble (b : Binary) : Prop where
  mantissa_lt : b.mantissa < 2 ^ 53
  exponent_ge : -1074 ≤ b.exponent
  normal : -1074 < b.exponent → 2 ^ 52 ≤ b.mantissa

/-- Quarters of the last places differ by powers of two. -/
theorem exists_quarter_eq (h : b.exponent ≤ b'.exponent) :
    ∃ j : ℕ, b'.exponent = b.exponent + j ∧ b'.quarter = ((2 ^ j : ℕ) : ℚ) * b.quarter := by
  obtain ⟨j, hj⟩ := Int.eq_ofNat_of_zero_le (sub_nonneg.2 h)
  have hexponent : b'.exponent = b.exponent + j := by omega
  refine ⟨j, hexponent, ?_⟩
  rw [quarter, quarter, hexponent, add_sub_right_comm, zpow_add₀ (by norm_num), zpow_natCast]
  push_cast
  ring

/-- The number with the higher exponent is the greater one. -/
theorem IsDouble.size_lt (hb : b.IsDouble) (hb' : b'.IsDouble) (h : b.exponent < b'.exponent) :
    b.size < b'.size := by
  obtain ⟨j, hj, hquarter⟩ := exists_quarter_eq h.le
  have hpow : 2 ^ 1 ≤ 2 ^ j := Nat.pow_le_pow_right (by norm_num) (by omega)
  have hnormal := hb'.normal (lt_of_le_of_lt hb.exponent_ge h)
  have hlt : 4 * b.mantissa < 4 * b'.mantissa * 2 ^ j :=
    calc 4 * b.mantissa < 4 * 2 ^ 52 * 2 ^ 1 := by have := hb.mantissa_lt; omega
      _ ≤ 4 * b'.mantissa * 2 ^ j := Nat.mul_le_mul (by omega) hpow
  rw [size_eq, size_eq, hquarter, ← mul_assoc]
  exact mul_lt_mul_of_pos_right (by exact_mod_cast hlt) b.quarter_pos

theorem mantissa_lt_of_size_lt (hexponent : b.exponent = b'.exponent) (h : b.size < b'.size) :
    b.mantissa < b'.mantissa := by
  rw [size, size, hexponent] at h
  exact_mod_cast lt_of_mul_lt_mul_right h (by positivity)

/-- The interval of a number ends before that of a greater one begins. Where they have an end in
common, this belongs to one of them at most. -/
theorem IsDouble.high_lt_low (hb : b.IsDouble) (hb' : b'.IsDouble) (h : b.size < b'.size) :
    b.high < b'.low ∨ b.high = b'.low ∧ (b.mantissa % 2 = 1 ∨ b'.mantissa % 2 = 1) := by
  have hexponent : b.exponent ≤ b'.exponent :=
    not_lt.1 fun hgt => absurd (hb'.size_lt hb hgt) (not_lt.2 h.le)
  obtain ⟨j, hj, hquarter⟩ := exists_quarter_eq hexponent
  -- Both ends are multiples of the smaller quarter.
  have hends : 4 * b.mantissa + 2 < (4 * b'.mantissa - b'.gapBelow) * 2 ^ j ∨
      4 * b.mantissa + 2 = (4 * b'.mantissa - b'.gapBelow) * 2 ^ j ∧
        (b.mantissa % 2 = 1 ∨ b'.mantissa % 2 = 1) := by
    have hlt := hb.mantissa_lt
    have hgap := b'.gapBelow_le
    cases j with
    | zero =>
      have hmantissa := mantissa_lt_of_size_lt (by omega) h
      omega
    | succ j =>
      have hge := hb.exponent_ge
      have hnormal := hb'.normal (by omega)
      have hpow : 2 ^ 1 ≤ 2 ^ (j + 1) := Nat.pow_le_pow_right (by norm_num) (by omega)
      have hmul := Nat.mul_le_mul_left (4 * b'.mantissa - b'.gapBelow) hpow
      have hfirst : b'.mantissa = 2 ^ 52 → b'.gapBelow = 1 := fun hm => by
        rw [gapBelow, if_pos ⟨hm, by omega⟩]
      omega
  rw [high, low, hquarter, ← mul_assoc]
  rcases hends with hends | ⟨hends, hodd⟩
  · exact Or.inl (mul_lt_mul_of_pos_right (by exact_mod_cast hends) b.quarter_pos)
  · refine Or.inr ⟨?_, hodd⟩
    rw [hends]
    push_cast
    ring

/-- What is read as a number is less than what is read as a greater one. -/
theorem ReadFrom.lt (h : b.ReadFrom q) (h' : b'.ReadFrom q') (hb : b.IsDouble) (hb' : b'.IsDouble)
    (hlt : b.size < b'.size) : q < q' := by
  rcases hb.high_lt_low hb' hlt with hends | ⟨hends, hodd | hodd⟩
  · exact lt_of_le_of_lt h.le_high (lt_of_lt_of_le hends h'.low_le)
  · exact lt_of_lt_of_le (h.inner hodd).2 (hends ▸ h'.low_le)
  · exact lt_of_le_of_lt h.le_high (hends ▸ (h'.inner hodd).1)

/-- A real number is read as one number only. -/
theorem ReadFrom.size_eq_size (h : b.ReadFrom q) (h' : b'.ReadFrom q) (hb : b.IsDouble)
    (hb' : b'.IsDouble) : b.size = b'.size := by
  rcases lt_trichotomy b.size b'.size with hlt | heq | hgt
  · exact absurd (h.lt h' hb hb' hlt) (lt_irrefl q)
  · exact heq
  · exact absurd (h'.lt h hb' hb hgt) (lt_irrefl q)

/-- The parts of a number are known from the number. -/
theorem IsDouble.parts_eq (hb : b.IsDouble) (hb' : b'.IsDouble) (h : b.size = b'.size) :
    b.mantissa = b'.mantissa ∧ b.exponent = b'.exponent := by
  have hexponent : b.exponent = b'.exponent := by
    rcases lt_trichotomy b.exponent b'.exponent with hlt | heq | hgt
    · exact absurd h (hb.size_lt hb' hlt).ne
    · exact heq
    · exact absurd h (hb'.size_lt hb hgt).ne'
  rw [size, size, hexponent] at h
  have hmantissa := mul_right_cancel₀ (by positivity) h
  exact ⟨by exact_mod_cast hmantissa, hexponent⟩

/-! ### Decimals that are read as a number -/

theorem zpow_eq_div {x : ℚ} (hx : x ≠ 0) (k : ℤ) : x ^ k = x ^ k.toNat / x ^ (-k).toNat := by
  conv_lhs => rw [← Int.toNat_sub_toNat_neg k]
  rw [zpow_sub₀ hx, zpow_natCast, zpow_natCast]

theorem pow_toNat_neg_mul_zpow {x : ℚ} (hx : x ≠ 0) (k : ℤ) :
    x ^ (-k).toNat * x ^ k = x ^ k.toNat := by
  rw [zpow_eq_div hx k, mul_div_cancel₀ _ (pow_ne_zero _ hx)]

/-- Fractions are compared in whole numbers. -/
theorem mul_le_mul_iff_of_eq {m n unit scale : ℕ} {x y : ℚ} (hunit : 0 < unit) (hx : 0 < x)
    (h : x * scale = y * unit) : m * x ≤ n * y ↔ m * unit ≤ n * scale := by
  have hunit : (0 : ℚ) < unit := by exact_mod_cast hunit
  rw [← mul_le_mul_iff_of_pos_right hunit, mul_assoc (n : ℚ), ← h, ← Nat.cast_le (α := ℚ),
    ← mul_le_mul_iff_of_pos_right hx (b := ((m * unit : ℕ) : ℚ))]
  push_cast
  rw [mul_right_comm, ← mul_assoc, mul_right_comm (n : ℚ)]

/-- A number that passes the test is read as the binary number. -/
theorem readFrom_of_reads {unit scale n : ℕ} {x : ℚ} (hunit : 0 < unit) (hscale : 0 < scale)
    (hx : 0 < x) (hxs : b.quarter * scale = x * unit) (h : b.reads unit scale n = true) :
    b.ReadFrom (n * x) := by
  have hlow (m : ℕ) : m * b.quarter ≤ n * x ↔ m * unit ≤ n * scale :=
    mul_le_mul_iff_of_eq hunit b.quarter_pos hxs
  have hhigh (m : ℕ) : n * x ≤ m * b.quarter ↔ n * scale ≤ m * unit :=
    mul_le_mul_iff_of_eq hscale hx hxs.symm
  unfold reads at h
  split at h
  next heven =>
    rw [Bool.and_eq_true, decide_eq_true_eq, decide_eq_true_eq] at h
    exact ⟨(hlow _).2 h.1, (hhigh _).2 h.2, fun hodd => by omega⟩
  next =>
    rw [Bool.and_eq_true, decide_eq_true_eq, decide_eq_true_eq] at h
    have hstrict : b.low < n * x ∧ n * x < b.high :=
      ⟨lt_of_not_ge fun hle => not_le.2 h.1 ((hhigh _).1 hle),
        lt_of_not_ge fun hle => not_le.2 h.2 ((hlow _).1 hle)⟩
    exact ⟨hstrict.1.le, hstrict.2.le, fun _ => hstrict⟩

/-- What is found on a grid is read as the number. -/
theorem readFrom_of_onGrid {k : ℤ} {n : ℕ} (h : b.onGrid k = some n) :
    b.ReadFrom (n * 10 ^ k) := by
  have hreads : b.reads (Nat.pow 2 (b.exponent - 2).toNat * Nat.pow 10 (-k).toNat)
      (Nat.pow 10 k.toNat * Nat.pow 2 (-(b.exponent - 2)).toNat) n = true := by
    unfold onGrid at h
    dsimp only at h
    split at h
    · cases h
    · cases h
      assumption
    · cases h
      assumption
    · split at h <;> cases h <;> assumption
  refine readFrom_of_reads ?_ ?_ (by positivity) ?_ hreads
  · exact Nat.mul_pos (Nat.pow_pos (by norm_num)) (Nat.pow_pos (by norm_num))
  · exact Nat.mul_pos (Nat.pow_pos (by norm_num)) (Nat.pow_pos (by norm_num))
  · rw [quarter, zpow_eq_div (by norm_num), zpow_eq_div (by norm_num : (10 : ℚ) ≠ 0)]
    simp only [Nat.pow_eq]
    push_cast
    field_simp

theorem exact_size (b : Binary) : b.exact.size = b.size := by
  rw [Decimal.size, size, exact]
  rcases Int.le_total 0 b.exponent with hle | hle
  · obtain ⟨n, hn⟩ := Int.eq_ofNat_of_zero_le hle
    simp [hn]
  · have hten : (10 : ℚ) ^ b.exponent = 2 ^ b.exponent * 5 ^ b.exponent := by
      rw [← mul_zpow]
      norm_num
    have hfive : (5 : ℚ) ^ (-b.exponent).toNat * 5 ^ b.exponent = 1 := by
      rw [pow_toNat_neg_mul_zpow (by norm_num), Int.toNat_of_nonpos hle, pow_zero]
    rw [min_eq_left hle, hten, Int.toNat_of_nonpos hle]
    simp only [Nat.pow_eq, pow_zero, mul_one]
    push_cast
    linear_combination b.mantissa * 2 ^ b.exponent * hfive

theorem readFrom_onCoarsest (b : Binary) (steps : ℕ) : b.ReadFrom (b.onCoarsest steps).size := by
  induction steps with
  | zero => exact exact_size b ▸ b.readFrom_size
  | succ steps ih =>
    rw [onCoarsest]
    cases hgrid : b.onGrid (b.exact.exponent + (steps + 1)) with
    | none => exact ih
    | some n => exact readFrom_of_onGrid hgrid

/-- The shortest decimal is read as the number. -/
theorem readFrom_shortest (b : Binary) : b.ReadFrom b.shortest.size := by
  rw [shortest, Decimal.stripZeros_size]
  exact b.readFrom_onCoarsest _

theorem onCoarsest_negative (b : Binary) (steps : ℕ) :
    (b.onCoarsest steps).negative = b.negative := by
  induction steps with
  | zero => rfl
  | succ steps ih =>
    rw [onCoarsest]
    cases b.onGrid (b.exact.exponent + (steps + 1)) with
    | none => exact ih
    | some n => rfl

theorem shortest_negative (b : Binary) : b.shortest.negative = b.negative := by
  rw [shortest, Decimal.stripZeros_negative, onCoarsest_negative]

theorem ReadFrom.nonneg (h : b.ReadFrom q) : 0 ≤ q :=
  le_trans (mul_nonneg (Nat.cast_nonneg _) b.quarter_pos.le) h.low_le

/-- What is read as a number that is not zero is not zero. -/
theorem ReadFrom.pos (h : b.ReadFrom q) (hb : b.mantissa ≠ 0) : 0 < q := by
  have hgap := b.gapBelow_le
  have hends : 0 < 4 * b.mantissa - b.gapBelow := by omega
  exact lt_of_lt_of_le (mul_pos (by exact_mod_cast hends) b.quarter_pos) h.low_le

/-- The digits of a shortest decimal do not end with a zero. -/
theorem shortest_mod (hb : b.mantissa ≠ 0) : b.shortest.digits % 10 ≠ 0 := by
  refine Decimal.stripZeros_mod _ fun hzero => ?_
  have hpos := (b.readFrom_onCoarsest (b.magnitude - b.exact.exponent).toNat).pos hb
  rw [Decimal.size, hzero, Nat.cast_zero, zero_mul] at hpos
  exact lt_irrefl _ hpos

/-! ### Whole numbers -/

/-- A whole number is not read as a number that is not whole. -/
theorem ReadFrom.isWhole {n : ℕ} (h : b.ReadFrom n) : b.isWhole = true := by
  rw [Binary.isWhole, beq_iff_eq, Nat.pow_eq]
  rcases Int.le_total 0 b.exponent with hle | hle
  · rw [Int.toNat_of_nonpos (by omega), pow_zero, Nat.mod_one]
  · -- The whole number is a multiple of the last place, and no other one is that near.
    have hn : (n : ℚ) = ((4 * (n * 2 ^ (-b.exponent).toNat) : ℕ) : ℚ) * b.quarter := by
      have hone : (2 : ℚ) ^ (-b.exponent).toNat * 2 ^ b.exponent = 1 := by
        rw [pow_toNat_neg_mul_zpow (by norm_num), Int.toNat_of_nonpos hle, pow_zero]
      rw [quarter, zpow_sub₀ (by norm_num)]
      push_cast
      linear_combination -n * hone
    have hlow := h.low_le
    have hhigh := h.le_high
    rw [hn, low, mul_le_mul_iff_of_pos_right b.quarter_pos, Nat.cast_le] at hlow
    rw [hn, high, mul_le_mul_iff_of_pos_right b.quarter_pos, Nat.cast_le] at hhigh
    have hgap := b.gapBelow_le
    have heq : b.mantissa = n * 2 ^ (-b.exponent).toNat := by omega
    rw [heq, Nat.mul_mod_left]

/-- The shortest decimal of a number that is not whole has places behind the point. -/
theorem shortest_exponent_neg (hb : b.isWhole = false) : b.shortest.exponent < 0 := by
  by_contra hle
  obtain ⟨k, hk⟩ := Int.eq_ofNat_of_zero_le (not_lt.1 hle)
  have hread := b.readFrom_shortest
  have hsize : b.shortest.size = ((b.shortest.digits * 10 ^ k : ℕ) : ℚ) := by
    rw [Decimal.size, hk]
    push_cast
    rfl
  rw [hsize] at hread
  rw [hread.isWhole] at hb
  cases hb

theorem size_eq_floor (hb : b.isWhole = true) : b.size = b.floor := by
  rw [isWhole, beq_iff_eq, Nat.pow_eq] at hb
  have hdvd := Nat.dvd_of_mod_eq_zero hb
  rw [size, floor, zpow_eq_div (by norm_num), Nat.pow_eq, Nat.pow_eq,
    Nat.cast_div (hdvd.mul_right _) (by positivity)]
  push_cast
  ring

theorem isWhole_iff (b : Binary) : b.isWhole = true ↔ ∃ n : ℤ, b.value = n := by
  constructor
  · intro hb
    rw [value, size_eq_floor hb]
    cases b.negative with
    | true => exact ⟨-b.floor, by simp⟩
    | false => exact ⟨b.floor, by simp⟩
  · rintro ⟨n, hn⟩
    have hsize : b.size = n.natAbs := by
      rw [Nat.cast_natAbs, Int.cast_abs, ← hn, abs_value]
    exact (hsize ▸ b.readFrom_size).isWhole

/-! ### Order -/

/-- The sign has no part in the digits. -/
theorem onCoarsest_size (negative negative' : Bool) (mantissa : ℕ) (exponent : ℤ) (steps : ℕ) :
    (onCoarsest ⟨negative, mantissa, exponent⟩ steps).size =
      (onCoarsest ⟨negative', mantissa, exponent⟩ steps).size := by
  induction steps with
  | zero => rfl
  | succ steps ih =>
    have hgrid (k : ℤ) : onGrid ⟨negative, mantissa, exponent⟩ k =
        onGrid ⟨negative', mantissa, exponent⟩ k := rfl
    have hexact : (exact ⟨negative, mantissa, exponent⟩).exponent =
        (exact ⟨negative', mantissa, exponent⟩).exponent := rfl
    rw [onCoarsest, onCoarsest, hgrid, hexact]
    cases onGrid ⟨negative', mantissa, exponent⟩ _ with
    | none => exact ih
    | some n => rfl

theorem IsDouble.shortest_size_eq (hb : b.IsDouble) (hb' : b'.IsDouble) (h : b.size = b'.size) :
    b.shortest.size = b'.shortest.size := by
  obtain ⟨hmantissa, hexponent⟩ := hb.parts_eq hb' h
  obtain ⟨negative, mantissa, exponent⟩ := b
  obtain ⟨negative', mantissa', exponent'⟩ := b'
  obtain rfl : mantissa = mantissa' := hmantissa
  obtain rfl : exponent = exponent' := hexponent
  rw [shortest, shortest, Decimal.stripZeros_size, Decimal.stripZeros_size]
  exact onCoarsest_size negative negative' mantissa exponent _

/-- The shortest decimals follow each other as the numbers do. -/
theorem IsDouble.shortest_size_lt_iff (hb : b.IsDouble) (hb' : b'.IsDouble) :
    b.shortest.size < b'.shortest.size ↔ b.size < b'.size := by
  refine ⟨fun hlt => lt_of_not_ge fun hle => ?_, fun hlt =>
    b.readFrom_shortest.lt b'.readFrom_shortest hb hb' hlt⟩
  rcases hle.lt_or_eq with hgt | heq
  · exact absurd hlt (b'.readFrom_shortest.lt b.readFrom_shortest hb' hb hgt).not_gt
  · exact absurd hlt (hb'.shortest_size_eq hb heq).le.not_gt

def millionth : Binary := ⟨false, 4722366482869645, -72⟩

def sextillion : Binary := ⟨false, 7629394531250000, 17⟩

theorem isDouble_millionth : millionth.IsDouble := ⟨by decide, by decide, by decide⟩

theorem isDouble_sextillion : sextillion.IsDouble := ⟨by decide, by decide, by decide⟩

theorem sextillion_size : sextillion.size = 10 ^ 21 := by
  norm_num [size, sextillion]

theorem shortest_millionth : millionth.shortest.size = 10 ^ (-6 : ℤ) := by
  have hgrid : millionth.onCoarsest 67 = ⟨false, 1, -6⟩ := by decide +kernel
  have hsteps : (millionth.magnitude - millionth.exact.exponent).toNat = 67 := by decide +kernel
  rw [shortest, Decimal.stripZeros_size, hsteps, hgrid, Decimal.size]
  norm_num

theorem shortest_sextillion : sextillion.shortest.size = 10 ^ (21 : ℤ) := by
  have hgrid : sextillion.onCoarsest 22 = ⟨false, 1, 21⟩ := by decide +kernel
  have hsteps : (sextillion.magnitude - sextillion.exact.exponent).toNat = 22 := by decide +kernel
  rw [shortest, Decimal.stripZeros_size, hsteps, hgrid, Decimal.size]
  norm_num

end Binary

end Lox
