import Stencil.Program.Layout
import Stencil.Template.Error
import Stencil.Template.Scope

/-!
Programs put together line by line. Lines are added from stations; a station that is derived from
another adds to the same draft, and shares its layer of bindings unless it was given one of its own.
-/
namespace Stencil

open Markup (Node)
open Template (Binding Bindings Scope)

/-- A program in the making. -/
structure Draft where
  lines : Array Line := #[]
  /-- The next free register. -/
  next : Nat
  /-- How deep new lines are indented. -/
  depth : Nat := 0

/-- A layer of bindings inside another. -/
structure Layer where
  bindings : Bindings := []
  outer : Option Nat := none

/-- The drafts and layers of all stations, by number. -/
structure Assembler where
  drafts : Array Draft := #[]
  layers : Array Layer := #[]

/-- A place that lines are added from. -/
structure Station where
  draft : Nat
  layer : Nat
  /-- The register of the node that new nodes are appended to, unless it is the root fragment. -/
  parent : Option Nat := none
  escaping : Bool := false
  /-- The nodes that called, from the innermost on. -/
  callers : List Node := []
  /-- The templates that were entered, from the innermost on. -/
  calls : List String := []

namespace Station

/-- The register of the root fragment. -/
def fragment (_ : Station) : Nat :=
  Program.rootSlot

/-- The station with a register as the parent of new nodes. -/
def withParent (slot : Nat) (s : Station) : Station :=
  { s with parent := some slot }

/-- The station inside another call. -/
def withCaller (node : Node) (s : Station) : Station :=
  { s with callers := node :: s.callers }

/-- The station outside the innermost call. -/
def outsideCaller (s : Station) : Station :=
  { s with callers := s.callers.tail }

/-- The station with escaping on or off. -/
def withEscaping (escaping : Bool) (s : Station) : Station :=
  { s with escaping := escaping }

/-- The station inside a template, which must not have been entered before. -/
def enter (template : String) (s : Station) : Except Template.CompileError Station :=
  if template ∈ s.calls then .error (.structure (.includesItself template))
  else .ok { s with calls := template :: s.calls }

end Station

namespace Assembler

/-- A station with a draft and a layer of its own. -/
def station (calls : List String) (a : Assembler) : Station × Assembler :=
  ({ draft := a.drafts.size, layer := a.layers.size, calls := calls },
    ⟨a.drafts.push { next := Program.rootSlot + 1 }, a.layers.push {}⟩)

/-- A station that has nothing but the entered templates in common with another. -/
def isolated (s : Station) (a : Assembler) : Station × Assembler :=
  a.station s.calls

/-- The station with a new layer of bindings inside its own. -/
def withVariables (bindings : Bindings) (s : Station) (a : Assembler) : Station × Assembler :=
  ({ s with layer := a.layers.size },
    { a with layers := a.layers.push ⟨bindings, some s.layer⟩ })

/-- The bindings of a layer and of those outside it, which are fewer than `count`. -/
def bindingsFrom (a : Assembler) : (count : Nat) → Option Nat → List Bindings
  | count + 1, some layer =>
    match a.layers[layer]? with
    | some l => l.bindings :: a.bindingsFrom count l.outer
    | none => []
  | _, _ => []

/-- The bindings that are seen from a station. -/
def scope (s : Station) (a : Assembler) : Scope :=
  match a.bindingsFrom a.layers.size (some s.layer) with
  | innermost :: outer => ⟨innermost, outer⟩
  | [] => {}

/-- Binds a name in the layer of a station. -/
def bind (name : String) (binding : Binding) (s : Station) (a : Assembler) : Assembler :=
  { a with layers := a.layers.modify s.layer fun l =>
      { l with bindings := l.bindings.set name binding } }

/-- The bindings of the layer of a station, sorted by name. -/
def localBindings (s : Station) (a : Assembler) : Bindings :=
  (a.scope s).innermost.mergeSort fun x y => !(y.1 < x.1)

/-- The draft of a station. -/
def draft (s : Station) (a : Assembler) : Draft :=
  a.drafts[s.draft]?.getD { next := Program.rootSlot + 1 }

/-- The assembler with the draft of a station changed. -/
def changeDraft (s : Station) (change : Draft → Draft) (a : Assembler) : Assembler :=
  { a with drafts := a.drafts.modify s.draft change }

/-- The address of the next line. -/
def address (s : Station) (a : Assembler) : Nat :=
  (a.draft s).lines.size

/-- A register that is not in use. -/
def fresh (s : Station) (a : Assembler) : Nat × Assembler :=
  ((a.draft s).next, a.changeDraft s fun d => { d with next := d.next + 1 })

/-- Adds a line. -/
def addLine (instr : Instr) (s : Station) (a : Assembler) : Assembler :=
  a.changeDraft s fun d => { d with lines := d.lines.push ⟨d.depth, instr⟩ }

/-- Adds the line that appends a node to the parent. -/
def addNode (slot : Nat) (s : Station) (a : Assembler) : Assembler :=
  a.addLine (.append (s.parent.getD s.fragment) slot) s

/-- Indents new lines one step more. -/
def indent (s : Station) (a : Assembler) : Assembler :=
  a.changeDraft s fun d => { d with depth := d.depth + 1 }

/-- Indents new lines one step less. -/
def dedent (s : Station) (a : Assembler) : Assembler :=
  a.changeDraft s fun d => { d with depth := d.depth - 1 }

/-- Changes the target of the jump at an address. -/
def patch (address target : Nat) (s : Station) (a : Assembler) : Assembler :=
  a.changeDraft s fun d =>
    { d with lines := d.lines.modify address fun l => { l with instr := l.instr.retarget target } }

/-- The program of a draft, whose lines are taken out of it. -/
def finish (s : Station) (a : Assembler) : Program × Assembler :=
  (⟨(a.draft s).lines, (a.draft s).next⟩, a.changeDraft s fun d => { d with lines := #[] })

end Assembler

end Stencil
