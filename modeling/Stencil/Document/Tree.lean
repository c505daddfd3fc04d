import Stencil.Document
import Stencil.Text.Escape

/-!
The tree below a node of a document, and its markup.
-/
namespace Stencil

/-- A node with everything below it. -/
inductive Tree (ℓ : Type) where
  | fragment (children : List (Tree ℓ))
  | element (tag : String) (attributes : Fields String) (listeners : List (String × ℓ))
      (children : List (Tree ℓ))
  | text (s : String) (children : List (Tree ℓ))
  deriving Inhabited

variable {ℓ : Type}

/-- The tree of a node of some kind. -/
def NodeKind.toTree (kind : NodeKind ℓ) (children : List (Tree ℓ)) : Tree ℓ :=
  match kind with
  | fragment => .fragment children
  | element tag attributes listeners => .element tag attributes listeners children
  | text s => .text s children

/-- The tree below a node, where nodes are nested at most `depth` deep. -/
def Document.treeWithin (doc : Document ℓ) : (depth : Nat) → Nat → Tree ℓ
  | 0, _ => .fragment []
  | depth + 1, node =>
    match doc.kind? node with
    | none => .fragment []
    | some kind => kind.toTree ((doc.children node).map (doc.treeWithin depth))

/-- The tree below a node. No node is nested deeper than there are nodes. -/
def Document.tree (doc : Document ℓ) (node : Nat) : Tree ℓ :=
  doc.treeWithin doc.size node

namespace Tree

/-- Elements that have no closing tag when they are empty. -/
def voidTags : List String :=
  ["area", "base", "br", "col", "embed", "hr", "img", "input", "link", "meta", "source", "track",
   "wbr"]

/-- An attribute as written, with a space before it. -/
def attributeMarkup (entry : String × String) : String :=
  " " ++ entry.1 ++ "=\"" ++ Text.escapeAttribute entry.2 ++ "\""

mutual

/-- The markup of a tree. Text is written as it is. -/
def markup : Tree ℓ → String
  | fragment children => markups children
  | text s _ => s
  | element tag attributes _ children =>
    let opening := "<" ++ tag ++ String.join (attributes.map attributeMarkup) ++ ">"
    if voidTags.contains tag && children.isEmpty then opening
    else opening ++ markups children ++ "</" ++ tag ++ ">"

/-- The markup of trees one after the other. -/
def markups : List (Tree ℓ) → String
  | [] => ""
  | tree :: rest => markup tree ++ markups rest

end

mutual

/-- The text of a tree. -/
def textContent : Tree ℓ → String
  | fragment children => textContents children
  | text s _ => s
  | element _ _ _ children => textContents children

/-- The text of trees one after the other. -/
def textContents : List (Tree ℓ) → String
  | [] => ""
  | tree :: rest => textContent tree ++ textContents rest

end

end Tree

/-- The markup of a node and everything below it. -/
def Document.markup (doc : Document ℓ) (node : Nat) : String :=
  (doc.tree node).markup

end Stencil
