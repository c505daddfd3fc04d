import Stencil.Expr
import Stencil.Text.Units
import Stencil.Value.Equality

/-!
The value of an expression in a data context. Only reading a property of `undefined` or `null` fails.
-/
namespace Stencil.Expr

/-- A property was read of something that has none. -/
inductive EvalError where
  | memberOfUndefined (property : String)
  | memberOfNull (property : String)
  deriving Repr, DecidableEq

/-- The fault in words. -/
def EvalError.message : EvalError → String
  | memberOfUndefined property => "cannot read property `" ++ property ++ "` of undefined"
  | memberOfNull property => "cannot read property `" ++ property ++ "` of null"

/-- The value of a property. Arrays and texts have a length and numbered items; what is missing is
    `undefined`. -/
def property (target : Value) (key : String) : Except EvalError Value :=
  match target with
  | .undefined => .error (.memberOfUndefined key)
  | .null => .error (.memberOfNull key)
  | .object fields => .ok (Fields.read key fields)
  | .array items =>
    if key = "length" then .ok (.number (Float.ofNat items.length))
    else .ok (((Number.readNat? key.toList).bind (items[·]?)).getD .undefined)
  | .string s =>
    if key = "length" then .ok (.number (Float.ofNat (Text.units16 s)))
    else .ok ((((Number.readNat? key.toList).bind (s.toList[·]?)).map
      fun c => .string c.toString).getD .undefined)
  | .bool _ | .number _ | .function _ => .ok .undefined

/-- The value of an indexed access. A natural number counts the items of an array; any other key is
    read as a property. -/
def indexed (target key : Value) : Except EvalError Value :=
  match target, key with
  | .array items, .number x =>
    match Number.toNat? x with
    | some n => .ok (items[n]?.getD .undefined)
    | none => property target key.toText
  | _, _ => property target key.toText

/-- The order of two values: texts by their characters, all else by numbers. -/
def compareValues (left right : Value) : Option Ordering :=
  match left.toPrimitive, right.toPrimitive with
  | .string a, .string b => some (if a < b then .lt else if a = b then .eq else .gt)
  | a, b =>
    let x := a.toNumber
    let y := b.toNumber
    if x < y then some .lt else if x == y then some .eq else if y < x then some .gt else none

/-- The value of a unary operator. -/
def applyUnary (op : UnaryOp) (v : Value) : Value :=
  match op with
  | .not => .bool (!v.isTruthy)
  | .neg => .number (-v.toNumber)
  | .plus => .number v.toNumber
  | .kind => .string v.kind

/-- The sum of two numbers, or the joined texts if either operand is one. -/
def addValues (left right : Value) : Value :=
  match left.toPrimitive, right.toPrimitive with
  | .string a, b => .string (a ++ b.toText)
  | a, .string b => .string (a.toText ++ b)
  | a, b => .number (a.toNumber + b.toNumber)

/-- The value of a binary operator on two values. The logical operators take their second operand;
    whether they do is decided before it is computed. -/
def applyBinary (op : BinaryOp) (left right : Value) : Value :=
  match op with
  | .add => addValues left right
  | .sub => .number (left.toNumber - right.toNumber)
  | .mul => .number (left.toNumber * right.toNumber)
  | .div => .number (left.toNumber / right.toNumber)
  | .rem => .number (Number.remainder left.toNumber right.toNumber)
  | .lt => .bool (compareValues left right == some .lt)
  | .gt => .bool (compareValues left right == some .gt)
  | .le => .bool (compareValues left right == some .lt || compareValues left right == some .eq)
  | .ge => .bool (compareValues left right == some .gt || compareValues left right == some .eq)
  | .looseEq => .bool (left.looseEq right)
  | .looseNe => .bool (!left.looseEq right)
  | .strictEq => .bool (left.strictEq right)
  | .strictNe => .bool (!left.strictEq right)
  | .and | .or => right

/-- The left operand settles the result of the operator by itself. -/
def settles (op : BinaryOp) (left : Value) : Bool :=
  match op with
  | .and => !left.isTruthy
  | .or => left.isTruthy
  | _ => false

mutual

/-- The value of an expression, whose fields are read from the data context. -/
def eval (data : Fields Value) : Expr → Except EvalError Value
  | literal value => .ok value
  | field name => .ok (data.read name)
  | member target name => do
    let v ← eval data target
    property v name
  | index target key => do
    let v ← eval data target
    let k ← eval data key
    indexed v k
  | unary op operand => do
    let v ← eval data operand
    return applyUnary op v
  | binary op left right => do
    let l ← eval data left
    if settles op l then return l
    else do
      let r ← eval data right
      return applyBinary op l r
  | conditional test yes no => do
    let t ← eval data test
    if t.isTruthy then eval data yes else eval data no
  | array items => do
    let vs ← evalItems data items
    return .array vs
  | object entries => do
    let fields ← evalEntries data entries
    return .object (Fields.ofList fields)

/-- The values of the items of an array. -/
def evalItems (data : Fields Value) : List Expr → Except EvalError (List Value)
  | [] => .ok []
  | e :: rest => do
    let v ← eval data e
    let vs ← evalItems data rest
    return v :: vs

/-- The values of the entries of an object. -/
def evalEntries (data : Fields Value) :
    List (String × Expr) → Except EvalError (List (String × Value))
  | [] => .ok []
  | (key, e) :: rest => do
    let v ← eval data e
    let vs ← evalEntries data rest
    return (key, v) :: vs

end

end Stencil.Expr
