import Stencil.Number.Read
import Stencil.Value

/-!
Values written as JSON. A reading function takes the characters that are left and gives back what it
read and the characters after it; `none` means that the text is not JSON.
-/
namespace Stencil.Json

/-- The characters after white space. -/
def skipSpace (cs : List Char) : List Char :=
  cs.dropWhile fun c => c == ' ' || c == '\t' || c == '\n' || c == '\r'

/-- The code unit that four hexadecimal digits at the front spell. -/
def codeUnit : List Char → Option (Nat × List Char)
  | a :: b :: c :: d :: rest => (Number.readHexDigits? [a, b, c, d]).map (·, rest)
  | _ => none

/-- The character of a code unit that is no half of a surrogate pair. -/
def charOfUnit? (n : Nat) : Option Char :=
  if h : n.isValidChar then some (Char.ofNatAux n h) else none

/-- The character that a code unit starts; the first half of a surrogate pair needs the second right
    after it. -/
def escapedChar (cs : List Char) : Option (Char × List Char) := do
  let (unit, rest) ← codeUnit cs
  if 0xd800 ≤ unit ∧ unit < 0xdc00 then
    match rest with
    | '\\' :: 'u' :: more =>
      let (second, rest) ← codeUnit more
      if 0xdc00 ≤ second ∧ second < 0xe000 then
        let c ← charOfUnit? (0x10000 + (unit - 0xd800) * 0x400 + (second - 0xdc00))
        return (c, rest)
      else none
    | _ => none
  else
    let c ← charOfUnit? unit
    return (c, rest)

/-- The character that a backslash gives to a letter or sign. -/
def simpleEscape? : Char → Option Char
  | '"' => some '"'
  | '\\' => some '\\'
  | '/' => some '/'
  | 'b' => some '\x08'
  | 'f' => some '\x0c'
  | 'n' => some '\n'
  | 'r' => some '\r'
  | 't' => some '\t'
  | _ => none

/-- The characters of a string after its opening quote. -/
def stringChars : (fuel : Nat) → List Char → Option (List Char × List Char)
  | 0, _ => none
  | _, [] => none
  | _, '"' :: rest => some ([], rest)
  | fuel + 1, '\\' :: 'u' :: rest => do
    let (c, rest) ← escapedChar rest
    let (more, rest) ← stringChars fuel rest
    return (c :: more, rest)
  | fuel + 1, '\\' :: e :: rest => do
    let c ← simpleEscape? e
    let (more, rest) ← stringChars fuel rest
    return (c :: more, rest)
  | fuel + 1, c :: rest => do
    if c.toNat < 0x20 ∨ c = '\\' then none
    else
      let (more, rest) ← stringChars fuel rest
      return (c :: more, rest)

/-- A string after its opening quote. -/
def string (cs : List Char) : Option (String × List Char) :=
  (stringChars (cs.length + 1) cs).map fun (content, rest) => (String.ofList content, rest)

/-- The significand and exponent of the digits read so far. -/
structure Scaled where
  significand : Nat
  exponent : Int

/-- The significand with one more digit still has 64 bits. -/
def Scaled.accepts (n : Scaled) (digit : Char) : Bool :=
  10 * n.significand + (digit.toNat - 48) < Nat.pow 2 64

/-- The number with one more digit. -/
def Scaled.append (n : Scaled) (digit : Char) : Scaled :=
  ⟨10 * n.significand + (digit.toNat - 48), n.exponent⟩

/-- The digits before the point. From the first digit that does not fit on, digits only scale. -/
def Scaled.whole (n : Scaled) : List Char → Scaled
  | [] => n
  | d :: rest =>
    if n.accepts d then (n.append d).whole rest
    else ⟨n.significand, n.exponent + (rest.length + 1)⟩

/-- The digits after the point. From the first digit that does not fit on, digits are left out. -/
def Scaled.fraction (n : Scaled) : List Char → Scaled
  | [] => n
  | d :: rest =>
    if n.accepts d then Scaled.fraction ⟨(n.append d).significand, n.exponent - 1⟩ rest else n

/-- The double `x · 10 ^ exponent` by one rounded multiplication or division with a power of ten of
    at most 308, and before it divisions by `10 ^ 308`; a result that is too large is refused. -/
def scale (x : Float) (exponent : Int) : Option Float :=
  if 0 ≤ exponent then
    if exponent ≤ 308 then
      let y := x * Number.ofDecimal 1 exponent
      if y.isInf then none else some y
    else if x == 0.0 then some x
    else none
  else if -308 ≤ exponent then some (x / Number.ofDecimal 1 (-exponent))
  else if x == 0.0 then some x
  else scale (x / 1e308) (exponent + 308)
termination_by exponent.natAbs

/-- The digits at the front, of which there has to be one. -/
def digits (cs : List Char) : Option (List Char × List Char) :=
  match cs.takeWhile Number.isDigit with
  | [] => none
  | ds => some (ds, cs.dropWhile Number.isDigit)

/-- The fraction at the front, if there is one. -/
def fraction? : List Char → Option (Option (List Char) × List Char)
  | '.' :: rest => (digits rest).map fun (ds, rest) => (some ds, rest)
  | cs => some (none, cs)

/-- The exponent at the front, if there is one. -/
def exponent? : List Char → Option (Option Int × List Char)
  | 'e' :: rest | 'E' :: rest => do
    let (negative, rest) := match rest with
      | '-' :: rest => (true, rest)
      | '+' :: rest => (false, rest)
      | rest => (false, rest)
    let (ds, rest) ← digits rest
    return (some (if negative then -(Number.ofDigits ds : Int) else Number.ofDigits ds), rest)
  | cs => some (none, cs)

/-- A number without its sign. An integer of at most 64 bits is rounded once; any other number is
    scaled from its leading digits. -/
def magnitude (cs : List Char) : Option (Float × List Char) := do
  let (ds, rest) ← digits cs
  if ds.head? = some '0' ∧ 1 < ds.length then none
  else
    let (fraction, rest) ← fraction? rest
    let (exponent, rest) ← exponent? rest
    let whole := Scaled.whole ⟨0, 0⟩ ds
    match fraction, exponent with
    | none, none =>
      let x ← if whole.exponent = 0 then some (Float.ofNat whole.significand)
        else scale (Float.ofNat whole.significand) whole.exponent
      return (x, rest)
    | _, _ =>
      let n := whole.fraction (fraction.getD [])
      let x ← scale (Float.ofNat n.significand) (n.exponent + exponent.getD 0)
      return (x, rest)

/-- A number. -/
def number : List Char → Option (Float × List Char)
  | '-' :: rest => (magnitude rest).map fun (x, rest) => (-x, rest)
  | cs => magnitude cs

/-- The characters after a word, which has to stand at the front. -/
def word (w : String) (cs : List Char) : Option (List Char) :=
  if w.toList.isPrefixOf cs then some (cs.drop w.length) else none

/-- How deep arrays and objects may be nested. -/
def maxDepth : Nat := 127

mutual

/-- A value, in which arrays and objects may be nested to a depth. -/
def value (fuel depth : Nat) (cs : List Char) : Option (Value × List Char) :=
  match fuel with
  | 0 => none
  | fuel + 1 =>
    match skipSpace cs with
    | '"' :: rest => (string rest).map fun (s, rest) => (.string s, rest)
    | '[' :: rest =>
      match depth with
      | 0 => none
      | depth + 1 =>
        match skipSpace rest with
        | ']' :: rest => some (.array [], rest)
        | rest => do
          let (items, rest) ← items fuel depth rest
          return (.array items, rest)
    | '\x7b' :: rest =>
      match depth with
      | 0 => none
      | depth + 1 =>
        match skipSpace rest with
        | '\x7d' :: rest => some (.object [], rest)
        | rest => do
          let (entries, rest) ← entries fuel depth rest
          return (.object (Fields.ofList entries), rest)
    | 'n' :: rest => (word "ull" rest).map (.null, ·)
    | 't' :: rest => (word "rue" rest).map (.bool true, ·)
    | 'f' :: rest => (word "alse" rest).map (.bool false, ·)
    | rest => (number rest).map fun (x, rest) => (.number x, rest)

/-- The items of an array that is not empty, up to its closing bracket. -/
def items (fuel depth : Nat) (cs : List Char) : Option (List Value × List Char) :=
  match fuel with
  | 0 => none
  | fuel + 1 => do
    let (item, rest) ← value fuel depth cs
    match skipSpace rest with
    | ',' :: rest =>
      let (others, rest) ← items fuel depth rest
      return (item :: others, rest)
    | ']' :: rest => return ([item], rest)
    | _ => none

/-- The entries of an object that is not empty, up to its closing brace. -/
def entries (fuel depth : Nat) (cs : List Char) : Option (List (String × Value) × List Char) :=
  match fuel with
  | 0 => none
  | fuel + 1 => do
    match skipSpace cs with
    | '"' :: rest =>
      let (key, rest) ← string rest
      match skipSpace rest with
      | ':' :: rest =>
        let (entry, rest) ← value fuel depth rest
        match skipSpace rest with
        | ',' :: rest =>
          let (others, rest) ← entries fuel depth rest
          return ((key, entry) :: others, rest)
        | '\x7d' :: rest => return ([(key, entry)], rest)
        | _ => none
      | _ => none
    | _ => none

end

/-- The value of a JSON text. In an object a repeated key keeps its first place and takes its last
    value. -/
def parse? (text : String) : Option Value :=
  match value (2 * text.length + 2) maxDepth text.toList with
  | some (v, rest) => if skipSpace rest = [] then some v else none
  | none => none

end Stencil.Json
