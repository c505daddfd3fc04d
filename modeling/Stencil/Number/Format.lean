import Stencil.Number.Shortest

/-!
The texts of a double. Both use the fewest digits that read back; they differ in when an exponent is
written and in how the special values are spelt.
-/
namespace Stencil.Number

/-- A row of zeros. -/
def zeros (n : Nat) : List Char :=
  List.replicate n '0'

/-- The decimal without an exponent. -/
def Decimal.positional (d : Decimal) : List Char :=
  let digits := d.digits
  if d.point ≤ 0 then '0' :: '.' :: zeros (-d.point).toNat ++ digits
  else if digits.length ≤ d.point then digits ++ zeros (d.point - digits.length).toNat
  else digits.take d.point.toNat ++ '.' :: digits.drop d.point.toNat

/-- The decimal with one digit before the point and a signed exponent. -/
def Decimal.scientific (d : Decimal) : List Char :=
  let exponent := d.point - 1
  let tail := match d.digits with
    | [] => []
    | [first] => [first]
    | first :: rest => first :: '.' :: rest
  let sign := if exponent < 0 then '-' else '+'
  tail ++ 'e' :: sign :: Nat.toDigits 10 exponent.natAbs

/-- The characters with a minus sign in front if wanted. -/
def signed (negative : Bool) (cs : List Char) : String :=
  String.ofList (if negative then '-' :: cs else cs)

/-- The text of a number value. A magnitude from `10 ^ -6` up to `10 ^ 21` has no exponent, an
    integer below that is written out exactly, and zero has no sign. -/
def text (x : Float) : String :=
  match Binary.ofFloat? x with
  | none => if x.isNaN then "NaN" else if 0 < x then "Infinity" else "-Infinity"
  | some b =>
    if b.mantissa = 0 then "0"
    else
      let decimal := b.shortest
      if decimal.point ≤ -6 || 22 ≤ decimal.point then signed b.negative decimal.scientific
      else if b.isIntegral then signed b.negative (Nat.toDigits 10 b.truncate)
      else signed b.negative decimal.positional

/-- The text of a number that never has an exponent and keeps the sign of zero. -/
def plainText (x : Float) : String :=
  match Binary.ofFloat? x with
  | none => if x.isNaN then "NaN" else if 0 < x then "inf" else "-inf"
  | some b =>
    if b.mantissa = 0 then signed b.negative ['0']
    else signed b.negative b.shortest.positional

end Stencil.Number
