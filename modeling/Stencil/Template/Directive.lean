import Stencil.Markup.Node
import Stencil.Text.Search

/-!
Directives: attributes that say how an element is expanded. An element named `t` is a wrapper, which
leaves no trace of its own.
-/
namespace Stencil.Template

open Markup (Attribute Element)

/-- The name of a wrapper. -/
def wrapper : String := "t"

/-- The directive that repeats the children for each item of a value. -/
def foreachName : String := "t-foreach"
/-- The directive that names the item of a repetition. -/
def asName : String := "t-as"
/-- The directive that opens a chain of alternatives. -/
def ifName : String := "t-if"
/-- The directive that continues a chain with a condition. -/
def elifName : String := "t-elif"
/-- The directive that ends a chain. -/
def elseName : String := "t-else"
/-- The directive that includes another template. -/
def callName : String := "t-call"
/-- The directive that binds a name. -/
def setName : String := "t-set"
/-- The directive that gives the expression for a bound name. -/
def valueName : String := "t-value"
/-- The directive that emits a value as text. -/
def escName : String := "t-esc"
/-- The directive that emits a value as it is. -/
def rawName : String := "t-raw"
/-- The directive that sets attributes from a value. -/
def spreadName : String := "t-att"

/-- The directives that make an element an alternative of a chain. -/
def branchNames : List String := [ifName, elifName, elseName]

/-- The place of an element in a chain of alternatives. -/
inductive Branch where
  | first (condition : String)
  | next (condition : String)
  | last
  deriving Repr, DecidableEq

/-- The place that the directives of an element give it; an opening directive counts first. -/
def Branch.of? (el : Element) : Option Branch :=
  match el.attr? ifName with
  | some condition => some (.first condition)
  | none =>
    match el.attr? elifName with
    | some condition => some (.next condition)
    | none => if el.hasAttr elseName then some .last else none

/-- The element emits a value. -/
def emitsValue (el : Element) : Bool :=
  el.hasAttr escName || el.hasAttr rawName

/-- What an attribute of an element means. -/
inductive AttributeKind where
  /-- Copied as it is. -/
  | static (name value : String)
  /-- Set to the value of an expression. -/
  | dynamic (name expr : String)
  /-- Set to a text with expressions in it. -/
  | template (name template : String)
  /-- Sets attributes from a value. -/
  | spread (expr : String)
  /-- Binds a handler to an event. -/
  | event (event handler : String)
  /-- Says how the element is expanded, or nothing. -/
  | directive
  deriving Repr, DecidableEq

/-- What follows a mark in a name, if the name starts with the mark. -/
def suffix? (mark : String) (name : String) : Option String :=
  (Text.after? mark.toList name.toList).map String.ofList

/-- What an attribute means. -/
def AttributeKind.of (a : Attribute) : AttributeKind :=
  if a.name = spreadName then .spread a.value
  else match suffix? "t-attf-" a.name with
    | some name => .template name a.value
    | none =>
      match suffix? "t-att-" a.name with
      | some name => .dynamic name a.value
      | none =>
        match suffix? "t-on-" a.name with
        | some name => .event name a.value
        | none => if (suffix? "t-" a.name).isSome then .directive else .static a.name a.value

end Stencil.Template
