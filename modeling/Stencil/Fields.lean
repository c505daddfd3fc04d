/-!
Named entries in the order in which their names were first set. An entry is set in place if its name
is there already and at the end otherwise; removing one closes the gap.
-/
namespace Stencil

universe u

/-- Entries with distinct names, in order. -/
abbrev Fields (α : Type u) := List (String × α)

namespace Fields

variable {α : Type u}

/-- The value under a name. -/
def get? (name : String) (fields : Fields α) : Option α :=
  fields.lookup name

/-- Some entry has the name. -/
def has (name : String) (fields : Fields α) : Bool :=
  fields.any fun entry => entry.1 == name

/-- The entries with one of them set. -/
def set (name : String) (value : α) : Fields α → Fields α
  | [] => [(name, value)]
  | (key, old) :: rest =>
    if key = name then (key, value) :: rest else (key, old) :: set name value rest

/-- The entries without those under a name. -/
def remove (name : String) (fields : Fields α) : Fields α :=
  fields.filter fun entry => entry.1 != name

/-- The entries of a list, in which a repeated name keeps its first place and takes its last
    value. -/
def ofList (entries : List (String × α)) : Fields α :=
  entries.foldl (fun fields (name, value) => set name value fields) []

/-- The names, in order. -/
def names (fields : Fields α) : List String :=
  fields.map Prod.fst

end Fields

end Stencil
