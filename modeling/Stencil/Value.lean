import Stencil.Fields

/-!
The dynamic values that expressions compute with and that a data context holds.
-/
namespace Stencil

/-- A value of the expression language. Functions are known by number only: two are the same exactly
    when their numbers are. -/
inductive Value where
  | undefined
  | null
  | bool (b : Bool)
  | number (x : Float)
  | string (s : String)
  | array (items : List Value)
  | object (fields : List (String × Value))
  | function (number : Nat)
  deriving Inhabited

namespace Value

/-- The value is `undefined`. -/
def isUndefined : Value → Bool
  | undefined => true
  | _ => false

/-- The value is `undefined` or `null`. -/
def isNothing : Value → Bool
  | undefined | null => true
  | _ => false

/-- The value counts as true in a condition. -/
def isTruthy : Value → Bool
  | undefined | null => false
  | bool b => b
  | number x => x != 0.0 && !x.isNaN
  | string s => s != ""
  | array _ | object _ | function _ => true

/-- The value is the number zero, of either sign. -/
def isZero : Value → Bool
  | number x => x == 0.0
  | _ => false

/-- The value is shown where it is emitted: it is truthy or zero. -/
def isPresent (v : Value) : Bool :=
  v.isTruthy || v.isZero

/-- The name that the operator `typeof` gives to the kind of the value. -/
def kind : Value → String
  | undefined => "undefined"
  | null | array _ | object _ => "object"
  | bool _ => "boolean"
  | number _ => "number"
  | string _ => "string"
  | function _ => "function"

end Value

/-- What a name reads from the fields of a data context; an absent field is `undefined`. -/
def Fields.read (name : String) (fields : Fields Value) : Value :=
  (fields.get? name).getD .undefined

end Stencil
