import Stencil.Number.Binary

/-!
The shortest decimal that reads back as a given double. Of the decimals with the fewest digits that
round to the double the nearest is taken, and of two equally near ones the larger.
-/
namespace Stencil.Number

/-- The number of decimal digits of a natural number; zero has none. -/
def digitCount (n : Nat) : Nat :=
  if n = 0 then 0 else (Nat.toDigits 10 n).length

/-- The positive real number `significand · 10 ^ exponent`. -/
structure Decimal where
  significand : Nat
  exponent : Int
  deriving Repr, DecidableEq

/-- The same number with a significand that does not end in zero. -/
def Decimal.normalize (d : Decimal) : Decimal :=
  if h : d.significand ≠ 0 ∧ d.significand % 10 = 0 then
    Decimal.normalize ⟨d.significand / 10, d.exponent + 1⟩
  else d
termination_by d.significand
decreasing_by
  have nonzero := h.1
  omega

/-- The digits of the significand, from the first. -/
def Decimal.digits (d : Decimal) : List Char :=
  Nat.toDigits 10 d.significand

/-- How many digits of the number stand before the decimal point, negative for zeros after it. -/
def Decimal.point (d : Decimal) : Int :=
  d.digits.length + d.exponent

/-- A fraction with the ends of an interval around it, all three over one denominator. -/
structure Rounding where
  low : Nat
  value : Nat
  high : Nat
  denominator : Nat
  /-- The ends belong to the interval. -/
  closed : Bool

/-- The interval of the real numbers that round to the double with this magnitude. The ends lie half
    way to the neighbours; below a power of two the neighbour is half as far. -/
def Binary.rounding (b : Binary) : Rounding :=
  let scale := Nat.pow 2 (b.exponent - 2).toNat
  let below := if b.mantissa = Nat.pow 2 52 ∧ -1074 < b.exponent then 1 else 2
  { low := (4 * b.mantissa - below) * scale
    value := 4 * b.mantissa * scale
    high := (4 * b.mantissa + 2) * scale
    denominator := Nat.pow 2 (2 - b.exponent).toNat
    closed := b.mantissa % 2 == 0 }

/-- The number `k` with `10 ^ (k - 1) ≤ value < 10 ^ k`. -/
def Rounding.magnitude (r : Rounding) : Int :=
  if r.denominator ≤ r.value then digitCount (r.value / r.denominator)
  else 1 - (digitCount ((r.denominator - 1) / r.value) : Int)

/-- The multiple of `10 ^ unit` nearest to the value among its two neighbours, if one of them lies in
    the interval. -/
def Rounding.onGrid (r : Rounding) (unit : Int) : Option Decimal :=
  let up := Nat.pow 10 (-unit).toNat
  let step := r.denominator * Nat.pow 10 unit.toNat
  let floor := r.value * up / step
  let rest := r.value * up % step
  let ceiling := if rest = 0 then floor else floor + 1
  let floorFits := if r.closed then r.low * up ≤ floor * step else r.low * up < floor * step
  let ceilingFits := if r.closed then ceiling * step ≤ r.high * up else ceiling * step < r.high * up
  if floorFits && (!ceilingFits || 2 * rest < step) then some ⟨floor, unit⟩
  else if ceilingFits then some ⟨ceiling, unit⟩
  else none

/-- The shortest decimal that reads back as the double with this magnitude, which is not zero.
    Seventeen digits always do. -/
def Binary.shortest (b : Binary) : Decimal :=
  let r := b.rounding
  let found := (List.range 17).findSome? fun n : Nat => r.onGrid (r.magnitude - (n + 1))
  (found.getD ⟨b.mantissa, b.exponent⟩).normalize

end Stencil.Number
