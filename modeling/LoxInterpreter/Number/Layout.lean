import LoxInterpreter.Number.Binary

/-!
Number text: how a floating-point number is written with decimal digits.
-/

namespace Lox

/-- A way to write numbers. The point of a number is `p` if its magnitude is
`0.d₁d₂… · 10 ^ p` with `d₁` not zero. -/
structure Layout where
  /-- Numbers are written positionally if their point is above this. -/
  abovePoint : Int
  /-- Numbers are written positionally if their point is at most this. -/
  uptoPoint : Int
  /-- Whole numbers below this are written with all their digits, others with the fewest that
  read back. -/
  exactBelow : Nat
  /-- What follows the digits of a number that is written without a fraction. -/
  wholeEnding : List Char
  /-- The least number of digits of an exponent. -/
  exponentWidth : Nat
  /-- Whether negative zero has its sign. -/
  signedZero : Bool
  notANumber : String
  infinity : String

namespace Layout

def canonical : Layout where
  abovePoint := -6
  uptoPoint := 21
  exactBelow := Nat.pow 10 21
  wholeEnding := []
  exponentWidth := 1
  signedZero := false
  notANumber := "NaN"
  infinity := "Infinity"

def listing : Layout where
  abovePoint := -4
  uptoPoint := 16
  exactBelow := 1
  wholeEnding := ['.', '0']
  exponentWidth := 2
  signedZero := true
  notANumber := "nan"
  infinity := "inf"

def zeros (n : Nat) : List Char := List.replicate n '0'

/-- Digits with the point after the first `p` of them. -/
def positional (l : Layout) (ds : List Char) (p : Int) : List Char :=
  if p ≤ 0 then
    ['0', '.'] ++ zeros (-p).toNat ++ ds
  else if p < ds.length then
    ds.take p.toNat ++ ['.'] ++ ds.drop p.toNat
  else
    ds ++ zeros (p - ds.length).toNat ++ l.wholeEnding

def exponent (l : Layout) (e : Int) : List Char :=
  let ds := Nat.toDigits 10 e.natAbs
  (if e < 0 then '-' else '+') :: (zeros (l.exponentWidth - ds.length) ++ ds)

/-- Digits with the point after the first one, and the power of ten that makes up for it. -/
def scientific (l : Layout) (ds : List Char) (p : Int) : List Char :=
  let mantissa := match ds with
    | d :: e :: es => d :: '.' :: e :: es
    | _ => ds
  mantissa ++ 'e' :: l.exponent (p - 1)

def magnitude (l : Layout) (d : Decimal) : List Char :=
  let ds := Nat.toDigits 10 d.digits
  let p := ds.length + d.exponent
  if l.abovePoint < p ∧ p ≤ l.uptoPoint then l.positional ds p else l.scientific ds p

def decimal (l : Layout) (b : Binary) : Decimal :=
  if b.isWhole ∧ b.floor < l.exactBelow then ⟨b.negative, b.floor, 0⟩ else b.shortest

def finite (l : Layout) (b : Binary) : List Char :=
  let sign := b.negative && (l.signedZero || b.mantissa != 0)
  (if sign then ['-'] else []) ++ l.magnitude (l.decimal b)

def text (l : Layout) (x : Float) : String :=
  match Numeral.ofFloat x with
  | .notANumber => l.notANumber
  | .infinite negative => if negative then "-" ++ l.infinity else l.infinity
  | .finite b => String.ofList (l.finite b)

end Layout

end Lox
