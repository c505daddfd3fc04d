import Stencil.Value.Conversion

/-!
Events, and what handling one does to the data.
-/
namespace Stencil

/-- Something that happened at a node. -/
structure Event where
  name : String
  detail : Option String := none
  deriving Repr, DecidableEq

/-- What a function does to the fields of the data context when it is called with an event. -/
inductive Handler where
  /-- Does nothing. -/
  | idle
  /-- Adds to a field, read as a number. -/
  | add (field : String) (amount : Float)
  /-- Sets a field. -/
  | set (field : String) (value : Value)
  /-- Removes a field. -/
  | remove (field : String)
  /-- Appends to a field that holds an array. -/
  | push (field : String) (value : Value)
  /-- Appends the name and the detail of the event to the text of a field. -/
  | record (field : String)
  deriving Inhabited

/-- The fields after the handler has run. -/
def Handler.run (handler : Handler) (event : Event) (data : Fields Value) : Fields Value :=
  match handler with
  | idle => data
  | add field amount => data.set field (.number ((data.read field).toNumber + amount))
  | set field value => Fields.set field value data
  | remove field => Fields.remove field data
  | push field value =>
    match data.read field with
    | .array items => data.set field (.array (items ++ [value]))
    | _ => data
  | record field =>
    let before := match data.read field with
      | .undefined => ""
      | v => v.toText
    let mark := "[" ++ event.name ++ ":" ++ event.detail.getD "-" ++ "]"
    data.set field (.string (before ++ mark))

end Stencil
