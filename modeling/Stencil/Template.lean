import Stencil.Markup.Tree
import Stencil.Template.Validation

/-!
Templates: markup whose directives are in order.
-/
namespace Stencil

/-- A template: its markup as written, and the root of its tree. -/
structure Template where
  source : String
  root : Markup.Element
  deriving Inhabited

/-- The template that a markup text spells; its name is used in errors only. -/
def Template.parse (name markup : String) (reader : Markup.Reader := Markup.read) :
    Except Template.CompileError Template := do
  if Text.isBlankText markup then throw (.emptyMarkup name)
  let root ← (Markup.parse markup reader).mapError (.malformedMarkup name)
  let root ← (Template.validate root).mapError .structure
  return ⟨markup, root⟩

end Stencil
