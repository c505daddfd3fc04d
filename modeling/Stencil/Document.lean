import Stencil.Fields

/-!
Documents: nodes that are created one by one and appended to each other. A node is known by the number
of nodes that were created before it.

The type `ℓ` is what a listener does.
-/
namespace Stencil

/-- What a node is. -/
inductive NodeKind (ℓ : Type) where
  | fragment
  | element (tag : String) (attributes : Fields String) (listeners : List (String × ℓ))
  | text (s : String)

/-- A node with its place in the document. -/
structure DocumentNode (ℓ : Type) where
  kind : NodeKind ℓ
  parent : Option Nat := none
  children : List Nat := []

/-- The nodes of a document by number. -/
structure Document (ℓ : Type) where
  nodes : Array (DocumentNode ℓ) := #[]

namespace Document

variable {ℓ : Type}

/-- The number of nodes that were created. -/
def size (doc : Document ℓ) : Nat :=
  doc.nodes.size

/-- The kind of a node. -/
def kind? (doc : Document ℓ) (node : Nat) : Option (NodeKind ℓ) :=
  doc.nodes[node]?.map DocumentNode.kind

/-- The parent of a node. -/
def parent? (doc : Document ℓ) (node : Nat) : Option Nat :=
  doc.nodes[node]?.bind DocumentNode.parent

/-- The children of a node, in order. -/
def children (doc : Document ℓ) (node : Nat) : List Nat :=
  (doc.nodes[node]?.map DocumentNode.children).getD []

/-- The tag of an element. -/
def tag? (doc : Document ℓ) (node : Nat) : Option String :=
  match doc.kind? node with
  | some (.element tag _ _) => some tag
  | _ => none

/-- The value of an attribute of an element. -/
def attribute? (doc : Document ℓ) (node : Nat) (name : String) : Option String :=
  match doc.kind? node with
  | some (.element _ attributes _) => attributes.get? name
  | _ => none

/-- What the listeners of an element for an event do, in order of registration. -/
def listeners (doc : Document ℓ) (node : Nat) (event : String) : List ℓ :=
  match doc.kind? node with
  | some (.element _ _ listeners) => (listeners.filter (·.1 = event)).map Prod.snd
  | _ => []

/-- The document with one more node, and the number of that node. -/
def create (kind : NodeKind ℓ) (doc : Document ℓ) : Nat × Document ℓ :=
  (doc.size, ⟨doc.nodes.push { kind := kind }⟩)

/-- The document with a node changed. -/
def update (node : Nat) (change : DocumentNode ℓ → DocumentNode ℓ) (doc : Document ℓ) :
    Document ℓ :=
  ⟨doc.nodes.modify node change⟩

/-- The document with a node taken out of the children of its parent. -/
def detach (node : Nat) (doc : Document ℓ) : Document ℓ :=
  match doc.parent? node with
  | some parent => doc.update parent fun n => { n with children := n.children.filter (· != node) }
  | none => doc

/-- The document with a node as the last child of a parent. The node must not be the child of
    another. -/
def attach (parent node : Nat) (doc : Document ℓ) : Document ℓ :=
  (doc.update node fun n => { n with parent := some parent }).update parent
    fun n => { n with children := n.children ++ [node] }

/-- The node is a fragment. -/
def isFragment (doc : Document ℓ) (node : Nat) : Bool :=
  match doc.kind? node with
  | some .fragment => true
  | _ => false

/-- The document with a node appended to a parent. In place of a fragment its children are appended;
    any other node leaves the place where it was. -/
def append (parent node : Nat) (doc : Document ℓ) : Document ℓ :=
  if doc.isFragment node then
    let moved := doc.children node
    moved.foldl (fun doc child => doc.attach parent child)
      (doc.update node fun n => { n with children := [] })
  else (doc.detach node).attach parent node

/-- The document with an attribute of an element set. Other nodes have no attributes. -/
def setAttribute (node : Nat) (name value : String) (doc : Document ℓ) : Document ℓ :=
  doc.update node fun n =>
    match n.kind with
    | .element tag attributes listeners =>
      { n with kind := .element tag (attributes.set name value) listeners }
    | _ => n

/-- The document with one more listener on an element. Other nodes have no listeners. -/
def listen (node : Nat) (event : String) (listener : ℓ) (doc : Document ℓ) : Document ℓ :=
  doc.update node fun n =>
    match n.kind with
    | .element tag attributes listeners =>
      { n with kind := .element tag attributes (listeners ++ [(event, listener)]) }
    | _ => n

/-- The nodes below a node in document order, where nodes are nested at most `depth` deep. -/
def descendantsWithin (doc : Document ℓ) : (depth : Nat) → Nat → List Nat
  | 0, _ => []
  | depth + 1, node =>
    (doc.children node).flatMap fun child => child :: doc.descendantsWithin depth child

/-- The elements below a node that have a tag, in document order. -/
def findByTag (doc : Document ℓ) (root : Nat) (tag : String) : List Nat :=
  (doc.descendantsWithin doc.size root).filter fun node => doc.tag? node = some tag

end Document

end Stencil
