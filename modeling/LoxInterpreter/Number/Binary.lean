/-!
Numbers as their bits give them: a sign and a mantissa times a power of two. From there the
shortest decimal is found in whole-number arithmetic.
-/

namespace Lox

/-- A decimal number, `± digits · 10 ^ exponent`. -/
structure Decimal where
  negative : Bool
  digits : Nat
  exponent : Int
  deriving DecidableEq, Repr

/-- A finite binary number, `± mantissa · 2 ^ exponent`. -/
structure Binary where
  negative : Bool
  mantissa : Nat
  exponent : Int
  deriving DecidableEq, Repr

inductive Numeral
  | notANumber
  | infinite (negative : Bool)
  | finite (b : Binary)
  deriving DecidableEq, Repr

def Numeral.ofBits (bits : Nat) : Numeral :=
  let negative := bits / Nat.pow 2 63 % 2 == 1
  let exponent : Nat := bits / Nat.pow 2 52 % Nat.pow 2 11
  let fraction : Nat := bits % Nat.pow 2 52
  if exponent = 2047 then
    if fraction = 0 then .infinite negative else .notANumber
  else if exponent = 0 then
    .finite ⟨negative, fraction, -1074⟩
  else
    .finite ⟨negative, Nat.pow 2 52 + fraction, (exponent : Int) - 1075⟩

def Numeral.ofFloat (x : Float) : Numeral :=
  ofBits x.toBits.toNat

namespace Binary

def floor (b : Binary) : Nat :=
  b.mantissa * Nat.pow 2 b.exponent.toNat / Nat.pow 2 (-b.exponent).toNat

def isWhole (b : Binary) : Bool :=
  b.mantissa % Nat.pow 2 (-b.exponent).toNat == 0

/-- The distance to the lower end of the interval of reals that round to the magnitude, in
quarters of the last place: the number below is only half as far away where the exponent
changes. -/
def gapBelow (b : Binary) : Nat :=
  if b.mantissa = Nat.pow 2 52 ∧ -1074 < b.exponent then 1 else 2

/-- Whether `n / scale` rounds to the magnitude, if `unit / scale` is a quarter of the last
place. The ends of the interval belong to it if the mantissa is even. -/
def reads (b : Binary) (unit scale n : Nat) : Bool :=
  let low := (4 * b.mantissa - b.gapBelow) * unit
  let high := (4 * b.mantissa + 2) * unit
  if b.mantissa % 2 = 0 then low ≤ n * scale && n * scale ≤ high
  else low < n * scale && n * scale < high

/-- The multiple of `10 ^ k` that is nearest to the magnitude among those that round to it, in
multiples of `10 ^ k`. Only the two neighbours of the magnitude can be nearest; between them
an exact tie goes to the even one. -/
def onGrid (b : Binary) (k : Int) : Option Nat :=
  let quarter := b.exponent - 2
  let unit := Nat.pow 2 quarter.toNat * Nat.pow 10 (-k).toNat
  let scale := Nat.pow 10 k.toNat * Nat.pow 2 (-quarter).toNat
  let value := 4 * b.mantissa * unit
  let n := value / scale
  match b.reads unit scale n, b.reads unit scale (n + 1) with
  | false, false => none
  | true, false => some n
  | false, true => some (n + 1)
  | true, true =>
    let below := value - n * scale
    let above := (n + 1) * scale - value
    if below < above ∨ (below = above ∧ n % 2 = 0) then some n else some (n + 1)

def exact (b : Binary) : Decimal where
  negative := b.negative
  digits := b.mantissa * Nat.pow 2 b.exponent.toNat * Nat.pow 5 (-b.exponent).toNat
  exponent := min b.exponent 0

/-- A power of ten that is not below the magnitude, by its exponent: `0.30103` is just above
the decimal logarithm of two. -/
def magnitude (b : Binary) : Int :=
  (b.mantissa.log2 + 1 + b.exponent) * 30103 / 100000 + 1

/-- The number on the coarsest of the grids `10 ^ k` on which something rounds to it, from
`steps` grids above the one where it is exact. -/
def onCoarsest (b : Binary) : Nat → Decimal
  | 0 => b.exact
  | steps + 1 =>
    let k := b.exact.exponent + (steps + 1)
    match b.onGrid k with
    | some n => ⟨b.negative, n, k⟩
    | none => b.onCoarsest steps

end Binary

namespace Decimal

def stripZeros (d : Decimal) : Decimal :=
  if h : d.digits ≠ 0 ∧ d.digits % 10 = 0 then
    stripZeros ⟨d.negative, d.digits / 10, d.exponent + 1⟩
  else
    d
termination_by d.digits
decreasing_by exact Nat.div_lt_self (Nat.pos_of_ne_zero h.1) (by decide)

end Decimal

/-- The decimal with the fewest digits among those that round to a number, and the nearest to
it of those. -/
def Binary.shortest (b : Binary) : Decimal :=
  (b.onCoarsest (b.magnitude - b.exact.exponent).toNat).stripZeros

end Lox
