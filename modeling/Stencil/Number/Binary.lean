/-!
The exact value of a double. A finite double is a sign, a natural mantissa and a power of two; on
that form the integral part, the remainder of a division and the comparison with an integer are
plain arithmetic of natural numbers.
-/
namespace Stencil.Number

/-- The real number `± mantissa · 2 ^ exponent`. -/
structure Binary where
  negative : Bool
  mantissa : Nat
  exponent : Int
  deriving Repr, DecidableEq

/-- The exact value of a double, or `none` for the infinities and for what is not a number. -/
def Binary.ofFloat? (x : Float) : Option Binary :=
  let bits : Nat := x.toBits.toNat
  let negative := bits / Nat.pow 2 63 == 1
  let exponent : Nat := bits / Nat.pow 2 52 % Nat.pow 2 11
  let fraction : Nat := bits % Nat.pow 2 52
  if exponent == Nat.pow 2 11 - 1 then none
  else if exponent == 0 then some ⟨negative, fraction, -1074⟩
  else some ⟨negative, Nat.pow 2 52 + fraction, (exponent : Int) - 1075⟩

/-- The double with exactly this value. The value has to be one: at most 53 significant bits, and
    within the range of exponents. -/
def Binary.toFloat (b : Binary) : Float :=
  let sign := if b.negative then Nat.pow 2 63 else 0
  let magnitude :=
    if b.mantissa = 0 then 0
    else
      let shift : Int := 52 - b.mantissa.log2
      let exponent := b.exponent - shift
      if -1074 ≤ exponent then
        let mantissa := b.mantissa * Nat.pow 2 shift.toNat / Nat.pow 2 (-shift).toNat
        (exponent + 1075).toNat * Nat.pow 2 52 + (mantissa - Nat.pow 2 52)
      else
        b.mantissa * Nat.pow 2 (b.exponent + 1074).toNat / Nat.pow 2 (-(b.exponent + 1074)).toNat
  Float.ofBits (sign + magnitude).toUInt64

/-- The value has no fractional part. -/
def Binary.isIntegral (b : Binary) : Bool :=
  0 ≤ b.exponent || b.mantissa % Nat.pow 2 (-b.exponent).toNat == 0

/-- The magnitude without its fractional part. -/
def Binary.truncate (b : Binary) : Nat :=
  b.mantissa * Nat.pow 2 b.exponent.toNat / Nat.pow 2 (-b.exponent).toNat

/-- The double is finite and has no fractional part. -/
def isIntegral (x : Float) : Bool :=
  (Binary.ofFloat? x).any Binary.isIntegral

/-- The natural number that a double denotes: `none` below zero, for a fraction, and for what is
    not finite. Either zero denotes zero. -/
def toNat? (x : Float) : Option Nat :=
  match Binary.ofFloat? x with
  | some b => if b.isIntegral && (!b.negative || b.mantissa == 0) then some b.truncate else none
  | none => none

/-- The remainder of a division that rounds towards zero. It is exact and has the sign of the
    dividend; nothing is left of an infinite dividend, and a zero divisor leaves no number. -/
def remainder (x y : Float) : Float :=
  if x.isNaN || y.isNaN then 0.0 / 0.0
  else match Binary.ofFloat? x, Binary.ofFloat? y with
    | none, _ => 0.0 / 0.0
    | some _, none => x
    | some a, some b =>
      if b.mantissa = 0 then 0.0 / 0.0
      else
        let exponent := min a.exponent b.exponent
        let dividend := a.mantissa * Nat.pow 2 (a.exponent - exponent).toNat
        let divisor := b.mantissa * Nat.pow 2 (b.exponent - exponent).toNat
        Binary.toFloat ⟨a.negative, dividend % divisor, exponent⟩

end Stencil.Number
