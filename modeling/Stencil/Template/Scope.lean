import Stencil.Fields
import Stencil.Markup.Node

/-!
Names bound while a template is expanded. Bindings live in layers; a new one goes into the innermost
layer, and a name is looked up from there outward.
-/
namespace Stencil.Template

/-- What a name stands for: an expression, or nodes that are put where the name is emitted. -/
inductive Binding where
  | expr (source : String)
  | content (nodes : List Markup.Node)
  deriving Repr, Inhabited

/-- The bindings of one layer. -/
abbrev Bindings := Fields Binding

/-- Layers of bindings. -/
structure Scope where
  innermost : Bindings := []
  outer : List Bindings := []
  deriving Inhabited

namespace Scope

/-- The layers from the innermost on. -/
def layers (scope : Scope) : List Bindings :=
  scope.innermost :: scope.outer

/-- The scope with a name bound in its innermost layer. -/
def bind (name : String) (binding : Binding) (scope : Scope) : Scope :=
  { scope with innermost := scope.innermost.set name binding }

/-- What a name stands for. -/
def lookup (name : String) (scope : Scope) : Option Binding :=
  scope.layers.findSome? (Fields.get? name)

/-- The scope with a new layer inside. -/
def push (bindings : Bindings) (scope : Scope) : Scope :=
  ⟨bindings, scope.layers⟩

/-- The scope without its innermost layer. -/
def pop (scope : Scope) : Scope :=
  match scope.outer with
  | innermost :: outer => ⟨innermost, outer⟩
  | [] => ⟨[], []⟩

/-- How many bindings there are in all layers. -/
def size (scope : Scope) : Nat :=
  scope.layers.flatten.length

/-- What a name stands for in the end, when `seen` are the names that led to it. Each step follows a
    bound name that is not among them. -/
def resolveFrom (scope : Scope) : (steps : Nat) → (seen : List String) → String → Binding
  | 0, _, name => .expr name
  | steps + 1, seen, name =>
    match scope.lookup name with
    | none => .expr name
    | some (.content nodes) => .content nodes
    | some (.expr next) =>
      if name ∈ seen then .expr name else scope.resolveFrom steps (name :: seen) next

/-- What a name stands for in the end: captured content, an expression that is not bound, or the name
    at which the bindings go round in a circle. -/
def resolve (name : String) (scope : Scope) : Binding :=
  scope.resolveFrom (scope.size + 1) [] name

end Scope

end Stencil.Template
