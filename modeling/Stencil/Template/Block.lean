import Stencil.Expression

/-!
Blocks: what a template does, once inclusions and bound names are resolved.
-/
namespace Stencil.Template

/-- A part of an attribute value that is put together when it is set. -/
inductive Part where
  | literal (s : String)
  | expr (e : Expression)

/-- What is done to the attributes of a new element. -/
inductive Action where
  /-- Sets an attribute. -/
  | set (name value : String)
  /-- Sets an attribute to a value if it is truthy. -/
  | setIf (name : String) (value : Expression)
  /-- Sets an attribute to the parts put together. -/
  | setParts (name : String) (parts : List Part)
  /-- Sets the attributes that a value lists. -/
  | spread (value : Expression)
  /-- Binds a handler to an event. -/
  | listen (event handler : String)

mutual

/-- A step of building a tree under some parent. -/
inductive Block where
  /-- Appends a text. -/
  | text (s : String)
  /-- Appends an element and builds its body under it. -/
  | element (tag : String) (actions : List Action) (body : List Block)
  /-- Builds one of several alternatives. -/
  | choose (chain : Chain)
  /-- Builds the body for each item of a value. -/
  | loop (source : Expression) (name : String) (body : List Block)
  /-- Appends the text of a value if it is present. -/
  | emit (value : Expression) (escape : Bool)
  /-- Appends the text of a value if it is present, and builds something else otherwise. -/
  | emitOr (value : Expression) (escape : Bool) (fallback : List Block)

/-- Alternatives, of which the first that holds is built. -/
inductive Chain where
  | otherwise (body : List Block)
  | when (test : Expression) (body : List Block) (rest : Chain)

end

end Stencil.Template
