import Stencil.Number.Format
import Stencil.Number.Read
import Stencil.Text.Blank
import Stencil.Value

/-!
Values as texts and as numbers.
-/
namespace Stencil.Value

mutual

/-- The text of a value. -/
def toText : Value → String
  | undefined => "undefined"
  | null => "null"
  | bool b => if b then "true" else "false"
  | number x => Number.text x
  | string s => s
  | array items => String.intercalate "," (itemTexts items)
  | object _ => "[object Object]"
  | function _ => "function"

/-- The texts of the items of an array, where `undefined` and `null` have none. -/
def itemTexts : List Value → List String
  | [] => []
  | item :: rest => (if item.isNothing then "" else item.toText) :: itemTexts rest

end

/-- The text uses a letter that no decimal has. -/
def hasWordLetter (cs : List Char) : Bool :=
  cs.any fun c => c.isAlpha && c != 'e' && c != 'E'

/-- The double that is no number. -/
def nan : Float := 0.0 / 0.0

/-- The number that a text denotes: blank text is zero, a hexadecimal number has at most 64 bits,
    and anything but a decimal is no number. -/
def numberOfText (s : String) : Float :=
  match Text.trimChars s.toList with
  | [] => 0.0
  | '0' :: 'x' :: digits | '0' :: 'X' :: digits => ((Number.readHex? digits).map Float.ofNat).getD nan
  | cs =>
    if cs = "Infinity".toList ∨ cs = "+Infinity".toList then 1.0 / 0.0
    else if cs = "-Infinity".toList then -1.0 / 0.0
    else if hasWordLetter cs then nan
    else (Number.readDecimal? cs).getD nan

/-- The number that a value denotes. -/
def toNumber : Value → Float
  | undefined => nan
  | null => 0.0
  | bool b => if b then 1.0 else 0.0
  | number x => x
  | string s => numberOfText s
  | array [] => 0.0
  | array [single] => toNumber single
  | array _ => nan
  | object _ => nan
  | function _ => nan

/-- The value with arrays, objects and functions replaced by their texts. -/
def toPrimitive : Value → Value
  | v@(array _) | v@(object _) | v@(function _) => string v.toText
  | v => v

end Stencil.Value
