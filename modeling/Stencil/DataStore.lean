import Stencil.Registry

/-!
Data contexts that several holders share. A context is known by number; who holds the number sees
every change to its fields. A template is rendered with the fields of a context, which loops change in
place.
-/
namespace Stencil

/-- The fields of each context. -/
structure DataStore where
  contexts : Array (Fields Value) := #[]

namespace DataStore

/-- The store with a new context, and the number of that context. -/
def create (fields : Fields Value) (store : DataStore) : Nat × DataStore :=
  (store.contexts.size, ⟨store.contexts.push fields⟩)

/-- The fields of a context. -/
def fields (store : DataStore) (context : Nat) : Fields Value :=
  store.contexts[context]?.getD []

/-- The store with the fields of a context changed. -/
def update (context : Nat) (change : Fields Value → Fields Value) (store : DataStore) : DataStore :=
  ⟨store.contexts.modify context change⟩

/-- The store with a new context that starts with the fields of another, and the number of the new
    context. -/
def copy (context : Nat) (store : DataStore) : Nat × DataStore :=
  store.create (store.fields context)

/-- Gives the fields of a context to a registry and puts into the context what comes back of them. -/
def lend {α : Type} (context : Nat) (use : Fields Value → α × Registry × Fields Value × Log) (store : DataStore) :
    α × Registry × DataStore × Log :=
  let (result, registry, fields, log) := use (store.fields context)
  (result, registry, store.update context fun _ => fields, log)

/-- Renders a template with the fields of a context in the document of a registry. -/
def render (name : String) (context : Nat) (registry : Registry) (store : DataStore) :
    Except RenderFailure Nat × Registry × DataStore × Log :=
  store.lend context fun fields => registry.render name fields

/-- The markup of a template with the fields of a context. -/
def renderToString (name : String) (context : Nat) (registry : Registry) (store : DataStore) :
    Except RenderFailure String × Registry × DataStore × Log :=
  store.lend context fun fields => registry.renderToString name fields

end DataStore

end Stencil
