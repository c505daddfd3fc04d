import Stencil.Text.Blank

/-!
Trees of markup: elements with attributes and children, and the other nodes that stand among them.
-/
namespace Stencil.Markup

/-- A name with its value, in which references are resolved. -/
structure Attribute where
  name : String
  value : String
  deriving Repr, DecidableEq, Inhabited

/-- A node of a markup tree. Text is kept as written, references included. -/
inductive Node where
  | element (name : String) (attributes : List Attribute) (children : List Node)
  | text (s : String)
  | comment (s : String)
  | cdata (s : String)
  | instruction (target data : String)
  deriving Repr, Inhabited

/-- An element with its attributes in source order. -/
structure Element where
  name : String
  attributes : List Attribute := []
  children : List Node := []
  deriving Repr, Inhabited

namespace Element

/-- The element as a node. -/
def toNode (el : Element) : Node :=
  .element el.name el.attributes el.children

/-- The value of an attribute. -/
def attr? (name : String) (el : Element) : Option String :=
  (el.attributes.find? (·.name = name)).map Attribute.value

/-- The element has the attribute. -/
def hasAttr (name : String) (el : Element) : Bool :=
  el.attributes.any (·.name = name)

/-- The element without the first attribute of a name. -/
def removeAttr (name : String) (el : Element) : Element :=
  { el with attributes := el.attributes.eraseP (·.name = name) }

/-- The element with one more attribute at the end. -/
def addAttr (name value : String) (el : Element) : Element :=
  { el with attributes := el.attributes ++ [⟨name, value⟩] }

/-- The element with one more child at the end. -/
def addChild (child : Node) (el : Element) : Element :=
  { el with children := el.children ++ [child] }

end Element

namespace Node

/-- The node as an element, if it is one. -/
def element? : Node → Option Element
  | element name attributes children => some ⟨name, attributes, children⟩
  | _ => none

/-- The node is an element. -/
def isElement (node : Node) : Bool :=
  node.element?.isSome

/-- The node is text of nothing but white space. -/
def isBlankText : Node → Bool
  | text s => Text.isBlankText s
  | _ => false

/-- The kind of the node in words. -/
def kind : Node → String
  | element .. => "element"
  | text _ => "text"
  | comment _ => "comment"
  | cdata _ => "cdata section"
  | instruction .. => "processing instruction"

mutual

/-- The number of nodes and attributes of a tree. -/
def size : Node → Nat
  | element _ attributes children => 1 + attributes.length + sizes children
  | _ => 1

/-- The number of nodes and attributes of trees. -/
def sizes : List Node → Nat
  | [] => 0
  | node :: rest => node.size + sizes rest

end

/-- An element under another name; any other node as it is. -/
def rename (name : String) : Node → Node
  | element _ attributes children => element name attributes children
  | node => node

end Node

end Stencil.Markup
