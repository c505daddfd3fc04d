import Stencil.Template.Directive
import Stencil.Template.Error

/-!
The structure of directives. It depends on an element and its siblings only and is checked when a
template is registered; white space inside a chain of alternatives is dropped by the way.
-/
namespace Stencil.Template

open Markup (Element Node)

/-- How many directives make the element an alternative. -/
def branchCount (el : Element) : Nat :=
  (branchNames.filter el.hasAttr).length

/-- The directives of one element go together. -/
def checkElement (el : Element) : Except StructureFault Unit :=
  if 1 < branchCount el then .error .severalBranches
  else if el.hasAttr foreachName then
    if 0 < branchCount el then .error .loopWithBranch
    else if el.hasAttr asName then .ok ()
    else .error .loopWithoutName
  else .ok ()

/-- The element continues a chain. -/
def continuesChain (el : Element) : Bool :=
  el.hasAttr elifName || el.hasAttr elseName

/-- A chain may go on after the element. -/
def leavesChainOpen (el : Element) : Bool :=
  el.hasAttr ifName || el.hasAttr elifName

/-- What is kept of the nodes between an element and the one before it: all of them, but nothing
    inside a chain, where only white space may stand. `open?` says whether the element before leaves
    a chain open. -/
def keptBefore (open? : Option Bool) (between : List Node) (el : Element) :
    Except StructureFault (List Node) :=
  if continuesChain el then
    if open? = some true then
      if between.all Node.isBlankText then .ok [] else .error .textInChain
    else .error .unchained
  else .ok between

/-- The siblings with the white space inside chains dropped, if their structure is right. `between`
    are the nodes since the last element. -/
def validateFrom (open? : Option Bool) (between : List Node) :
    List Node → Except StructureFault (List Node)
  | [] => .ok between
  | .element name attributes children :: rest => do
    let el : Element := ⟨name, attributes, children⟩
    checkElement el
    let kept ← keptBefore open? between el
    let children ← validateFrom none [] children
    let rest ← validateFrom (some (leavesChainOpen el)) [] rest
    return kept ++ .element name attributes children :: rest
  | node :: rest => validateFrom open? (between ++ [node]) rest

/-- The root with the white space inside chains dropped, if its structure is right. -/
def validate (root : Element) : Except StructureFault Element := do
  checkElement root
  if continuesChain root then throw .unchained
  let children ← validateFrom none [] root.children
  return { root with children := children }

end Stencil.Template
