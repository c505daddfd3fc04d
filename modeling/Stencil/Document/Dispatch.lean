import Stencil.Document
import Stencil.Handler
import Stencil.Log
import Stencil.Text.Quoted

/-!
Events fired at nodes of a document, and the records that a document makes.
-/
namespace Stencil.Document

variable {ℓ : Type}

/-- The target of the records that a document makes. -/
def target : String := "quill_engine::dom::memory"

/-- The record of an event that was fired. -/
def firedRecord (event : Event) (count : Nat) : Record :=
  ⟨.trace, target,
    "dispatched " ++ Text.quoted event.name ++ " to " ++ toString count ++ " listener(s)"⟩

/-- The empty document, and the record of the one that was cleared. -/
def clear (doc : Document ℓ) : Document ℓ × Record :=
  ({}, ⟨.trace, target, "clearing document (" ++ toString doc.size ++ " node(s))"⟩)

/-- The data after an event was fired at a node whose listeners are functions by number. They run in
    order of registration. -/
def fire (doc : Document Nat) (handlers : Array Handler) (node : Nat) (event : Event)
    (data : Fields Value) : Fields Value :=
  (doc.listeners node event.name).foldl
    (fun data number => ((handlers[number]?).getD .idle).run event data) data

end Stencil.Document
