import Stencil.Value.Conversion

/-!
The two equalities of the expression language. The strict one compares values of one kind by
content, objects as maps regardless of order. The loose one first converts values of different kinds.
-/
namespace Stencil.Value

mutual

/-- The two values are of one kind and have the same content. -/
def strictEq : Value → Value → Bool
  | undefined, undefined => true
  | null, null => true
  | bool a, bool b => a == b
  | number a, number b => a == b
  | string a, string b => a == b
  | array a, array b => strictEqItems a b
  | object a, object b => a.length == b.length && strictEqFields a b
  | function a, function b => a == b
  | _, _ => false

/-- The two lists are equally long and agree item by item. -/
def strictEqItems : List Value → List Value → Bool
  | [], [] => true
  | a :: as, b :: bs => strictEq a b && strictEqItems as bs
  | _, _ => false

/-- Each field of the first object has an equal one under its name in the second. -/
def strictEqFields : List (String × Value) → List (String × Value) → Bool
  | [], _ => true
  | (name, a) :: rest, other =>
    (match Fields.get? name other with
      | some b => strictEq a b
      | none => false) && strictEqFields rest other

end

/-- How many conversions a value may still undergo in a loose comparison. -/
def conversions : Value → Nat
  | bool _ | array _ | object _ => 1
  | _ => 0

/-- The two values are equal after conversion: a truth value becomes a number, an array or object
    that meets a number or text becomes a text, and a text that meets a number becomes a number.
    `undefined` and `null` are equal to each other only. -/
def looseEq (a b : Value) : Bool :=
  match a, b with
  | undefined, undefined | undefined, null | null, undefined | null, null => true
  | undefined, _ | null, _ | _, undefined | _, null => false
  | number x, string s => x == numberOfText s
  | string s, number x => numberOfText s == x
  | bool x, other => looseEq (number (toNumber (bool x))) other
  | other, bool x => looseEq other (number (toNumber (bool x)))
  | array items, number x => looseEq (string (toText (array items))) (number x)
  | array items, string s => looseEq (string (toText (array items))) (string s)
  | object fields, number x => looseEq (string (toText (object fields))) (number x)
  | object fields, string s => looseEq (string (toText (object fields))) (string s)
  | number x, array items => looseEq (number x) (string (toText (array items)))
  | string s, array items => looseEq (string s) (string (toText (array items)))
  | number x, object fields => looseEq (number x) (string (toText (object fields)))
  | string s, object fields => looseEq (string s) (string (toText (object fields)))
  | a, b => strictEq a b
termination_by a.conversions + b.conversions
decreasing_by all_goals simp_all [conversions]

end Stencil.Value
