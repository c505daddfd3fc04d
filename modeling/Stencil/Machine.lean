import Stencil.Document
import Stencil.Log
import Stencil.Program.Layout
import Stencil.Text.Escape

/-!
The machine that runs programs. It builds nodes in a document and reads and writes the fields of a
data context, where a loop shows its current item; what the fields held before comes back when the
loop ends or the run fails.
-/
namespace Stencil

/-- What an instruction wanted of a register. -/
inductive Wanted where
  | register
  | node
  | value
  | loop
  | returnedRoot
  deriving Repr, DecidableEq

/-- What was wanted, in words. -/
def Wanted.text : Wanted → String
  | register => "a register"
  | node => "a node"
  | value => "a value"
  | loop => "a loop"
  | returnedRoot => "a returned root"

/-- Why a run fails. -/
inductive RenderError where
  | eval (error : Expr.EvalError)
  | notAFunction (handler kind : String)
  | notIterable (kind : String)
  | invalidCount (count : Float)
  | register (slot : Nat) (wanted : Wanted)
  /-- More steps than were allowed. -/
  | unfinished
  deriving Repr, DecidableEq

/-- The error in words. -/
def RenderError.message : RenderError → String
  | eval error => error.message
  | notAFunction handler kind => "t-on handler `" ++ handler ++ "` is " ++ kind ++ ", not a function"
  | notIterable kind => "t-foreach source of type " ++ kind ++ " is not iterable"
  | invalidCount count =>
    "t-foreach count " ++ Number.plainText count ++ " is not a valid array length"
  | register slot wanted => "register " ++ registerText slot ++ " does not hold " ++ wanted.text
  | unfinished => "the run was stopped before its end"

/-- A loop that is under way. -/
structure Loop where
  name : String
  /-- The keys and values of the items. -/
  items : Array (Value × Value)
  /-- The number of the next item. -/
  cursor : Nat := 0
  /-- What the fields that the loop writes held before it. -/
  saved : List (String × Option Value)

/-- The ends of the names of the fields that a loop writes; the field without an end is the key. -/
def loopSuffixes : List String :=
  ["_first", "_last", "_parity", "_index", "", "_value"]

/-- What the fields that a loop writes hold. -/
def loopSnapshot (name : String) (data : Fields Value) : List (String × Option Value) :=
  loopSuffixes.map fun suffix => (name ++ suffix, data.get? (name ++ suffix))

/-- What the fields of a loop show at one of its items. -/
def loopFields (name : String) (index count : Nat) (key value : Value) : List (String × Value) :=
  [(name ++ "_first", .bool (index = 0)), (name ++ "_last", .bool (index + 1 = count)),
   (name ++ "_parity", .string (if index % 2 = 0 then "even" else "odd")),
   (name ++ "_index", .number (Float.ofNat index)), (name, key), (name ++ "_value", value)]

/-- The data with fields set one after the other. -/
def writeFields (fields : List (String × Value)) (data : Fields Value) : Fields Value :=
  fields.foldl (fun data (name, value) => data.set name value) data

/-- The data with fields put back to what they held. -/
def restoreFields (saved : List (String × Option Value)) (data : Fields Value) : Fields Value :=
  saved.foldl
    (fun data (name, value) =>
      match value with
      | some value => data.set name value
      | none => data.remove name)
    data

/-- The greatest number that a loop counts to. -/
def maxCount : Nat := Nat.pow 2 32 - 1

/-- The keys and values of the items that a loop goes through: the numbers below a number, the items
    of an array, the entries of an object, or the characters of a text. -/
def loopItems (source : Value) : Except RenderError (Array (Value × Value)) :=
  match source with
  | .number x =>
    match (Number.toNat? x).filter (· ≤ maxCount) with
    | some n => .ok ((Array.range n).map fun i => (.number (Float.ofNat i), .number (Float.ofNat i)))
    | none => .error (.invalidCount x)
  | .array items => .ok (items.map fun item => (item, item)).toArray
  | .object fields => .ok (fields.map fun (name, value) => (.string name, value)).toArray
  | .string s =>
    .ok (s.toList.mapIdx fun i c => (.string (toString i), .string c.toString)).toArray
  | .bool _ | .function _ => .ok #[]
  | .undefined | .null => .error (.notIterable source.toText)

/-- What a register holds. -/
inductive Register where
  | empty
  | node (node : Nat)
  | value (value : Value)
  | loop (loop : Loop)

/-- The state of a run. A listener in the document is the number of a function. -/
structure Machine where
  document : Document Nat
  data : Fields Value
  registers : Array Register
  log : Log := []

/-- A step of a run. What it has changed outlives a failure. -/
abbrev Run := ExceptT RenderError (StateM Machine)

namespace Machine

/-- The target of the records that a run makes. -/
def target : String := "quill_template::vm"

/-- Adds a record. -/
def note (message : String) : Run Unit :=
  modify fun m => { m with log := m.log ++ [⟨.trace, target, message⟩] }

/-- Changes the document. -/
def changeDocument (change : Document Nat → Document Nat) : Run Unit :=
  modify fun m => { m with document := change m.document }

/-- Changes the data. -/
def changeData (change : Fields Value → Fields Value) : Run Unit :=
  modify fun m => { m with data := change m.data }

/-- Writes a register. -/
def write (slot : Nat) (content : Register) : Run Unit := do
  let m ← get
  if slot < m.registers.size then set { m with registers := m.registers.setIfInBounds slot content }
  else throw (.register slot .register)

/-- The node in a register. -/
def node (slot : Nat) : Run Nat := do
  let m ← get
  match m.registers[slot]? with
  | some (.node node) => return node
  | _ => throw (.register slot .node)

/-- The value in a register. -/
def value (slot : Nat) : Run Value := do
  let m ← get
  match m.registers[slot]? with
  | some (.value value) => return value
  | _ => throw (.register slot .value)

/-- The loop in a register. -/
def loop (slot : Nat) : Run Loop := do
  let m ← get
  match m.registers[slot]? with
  | some (.loop loop) => return loop
  | _ => throw (.register slot .loop)

/-- The loop in a register, which is empty afterwards. -/
def takeLoop (slot : Nat) : Run Loop := do
  let m ← get
  set { m with registers := m.registers.setIfInBounds slot .empty }
  match m.registers[slot]? with
  | some (.loop loop) => return loop
  | _ => throw (.register slot .loop)

/-- The value of an expression. -/
def eval (e : Expression) : Run Value := do
  let m ← get
  match e.eval m.data with
  | .ok v => return v
  | .error error => throw (.eval error)

/-- Creates a node and puts it into a register. -/
def create (slot : Nat) (kind : NodeKind Nat) : Run Unit := do
  let m ← get
  let (node, document) := m.document.create kind
  set { m with document := document }
  write slot (.node node)

/-- The parts of an attribute value put together. -/
def partsText : List Template.Part → Run String
  | [] => return ""
  | .literal s :: rest => do
    let more ← partsText rest
    return s ++ more
  | .expr e :: rest => do
    let v ← eval e
    let more ← partsText rest
    return v.toText ++ more

/-- The attributes that a value lists: a name and a value in an array, or the entries of an object. -/
def spreadEntries : Value → List (String × String)
  | .array items =>
    [((items[0]?.getD Value.undefined).toText, (items[1]?.getD Value.undefined).toText)]
  | .object fields => fields.map fun (name, value) => (name, value.toText)
  | _ => []

/-- What comes after an instruction. -/
inductive Control where
  | goto (address : Nat)
  | finish (root : Nat)
  deriving Repr, DecidableEq

/-- Runs the instruction at an address. -/
def exec (address : Nat) : Instr → Run Control
  | .fragment dst => do
    create dst .fragment
    return .goto (address + 1)
  | .element dst tag => do
    create dst (.element tag [] [])
    return .goto (address + 1)
  | .text dst s => do
    create dst (.text s)
    return .goto (address + 1)
  | .set slot name text => do
    let node ← node slot
    changeDocument (·.setAttribute node name text)
    return .goto (address + 1)
  | .eval dst e => do
    let v ← eval e
    write dst (.value v)
    return .goto (address + 1)
  | .setIf slot name value => do
    let v ← Machine.value value
    if v.isTruthy then do
      let node ← node slot
      changeDocument (·.setAttribute node name v.toText)
    return .goto (address + 1)
  | .setParts slot name parts => do
    let text ← partsText parts
    let node ← node slot
    changeDocument (·.setAttribute node name text)
    return .goto (address + 1)
  | .spread slot value => do
    let node ← node slot
    let v ← Machine.value value
    changeDocument fun doc =>
      (spreadEntries v).foldl (fun doc (name, text) => doc.setAttribute node name text) doc
    return .goto (address + 1)
  | .listen slot event handler => do
    let m ← get
    match m.data.read handler with
    | .function number => do
      note ("binding `" ++ handler ++ "` to " ++ event ++ " on " ++ registerText slot)
      let node ← node slot
      changeDocument (·.listen node event number)
      return .goto (address + 1)
    | v => throw (.notAFunction handler v.kind)
  | .textOf dst value escape => do
    let v ← Machine.value value
    create dst (.text (if escape then Text.escape v.toText else v.toText))
    return .goto (address + 1)
  | .append parent child => do
    let parent ← node parent
    let child ← node child
    changeDocument (·.append parent child)
    return .goto (address + 1)
  | .jumpUnless test target => do
    let v ← eval test
    return .goto (if v.isTruthy then address + 1 else target)
  | .jumpAbsent value target => do
    let v ← Machine.value value
    return .goto (if v.isPresent then address + 1 else target)
  | .jump target => return .goto target
  | .loop iter source name => do
    let v ← eval source
    let items ← loopItems v
    let m ← get
    write iter (.loop { name := name, items := items, saved := loopSnapshot name m.data })
    return .goto (address + 1)
  | .next iter exit => do
    let l ← loop iter
    match l.items[l.cursor]? with
    | none => return .goto exit
    | some (key, value) => do
      changeData (writeFields (loopFields l.name l.cursor l.items.size key value))
      write iter (.loop { l with cursor := l.cursor + 1 })
      return .goto (address + 1)
  | .endLoop iter => do
    let l ← takeLoop iter
    changeData (restoreFields l.saved)
    return .goto (address + 1)
  | .done root => do
    let node ← node root
    return .finish node

/-- Runs a program from an address on for at most so many steps. -/
def execute (program : Program) : (steps : Nat) → (address : Nat) → Run Nat
  | 0, _ => throw .unfinished
  | steps + 1, address =>
    match program.instr? address with
    | none => throw (.register Program.rootSlot .returnedRoot)
    | some instr => do
      match ← exec address instr with
      | .goto next => execute program steps next
      | .finish root => return root

/-- The loops that are still under way, from the innermost on. -/
def openLoops (m : Machine) : List Loop :=
  m.registers.toList.reverse.filterMap fun
    | .loop l => some l
    | _ => none

/-- The machine with the loops that are under way undone. -/
def unwind (m : Machine) : Machine :=
  m.openLoops.foldl
    (fun m l =>
      { m with
        data := restoreFields l.saved m.data
        log := m.log ++ [⟨.trace, target, "unwinding loop `" ++ l.name ++ "`"⟩] })
    m

end Machine

/-- What a run leaves behind. -/
structure Outcome where
  root : Except RenderError Nat
  document : Document Nat
  data : Fields Value
  log : Log

/-- Runs a program on a document and a data context for at most so many steps. -/
def Program.run (steps : Nat) (program : Program) (document : Document Nat) (data : Fields Value) :
    Outcome :=
  let start : Machine := ⟨document, data, Array.replicate program.slots .empty, []⟩
  match Machine.execute program steps 0 start with
  | (.ok root, m) => ⟨.ok root, m.document, m.data, m.log⟩
  | (.error e, m) =>
    let m := m.unwind
    ⟨.error e, m.document, m.data, m.log⟩

/-- A number of steps that no run reaches in practice. -/
def Program.stepLimit : Nat := Nat.pow 2 62

/-- The number of steps that a run of a program may take. Without loops it takes fewer, however long the program
    is. -/
def Program.stepsAllowed (program : Program) : Nat :=
  stepLimit + program.size

end Stencil
