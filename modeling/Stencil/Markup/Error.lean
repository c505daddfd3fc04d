import Stencil.Markup.Reference
import Stencil.Text.Position
import Stencil.Text.Quoted

/-!
Why a text is not a document, and where.
-/
namespace Stencil.Markup

/-- A construct of markup that has an end mark. -/
inductive Construct where
  | reference
  | comment
  | cdata
  | doctype
  | instruction
  | declaration
  | tag
  | attributeValue (quote : Char)
  deriving Repr, DecidableEq

/-- The construct and its end mark in words. -/
def Construct.unclosedMessage : Construct → String
  | reference => "ill-formed document: entity or character reference not closed: `;`"
  | comment => "syntax error: comment not closed: `-->`"
  | cdata => "syntax error: CDATA not closed: `]]>`"
  | doctype => "syntax error: DOCTYPE not closed: `>`"
  | instruction => "syntax error: processing instruction not closed: `?>`"
  | declaration => "syntax error: XML declaration not closed: `?>`"
  | tag => "syntax error: tag not closed: `>`"
  | attributeValue quote =>
    "syntax error: attribute value not closed: `" ++ quote.toString ++ "`"

/-- Why an attribute cannot be read, at a byte of the tag. -/
inductive AttributeFault where
  | expectedEquals
  | duplicated (first : Nat)
  | expectedValue
  | unquotedValue
  | missingQuote (quote : Char)
  deriving Repr, DecidableEq

/-- The fault in words. -/
def AttributeFault.message : AttributeFault → String
  | expectedEquals => "attribute key must be directly followed by `=` or space"
  | duplicated first =>
    "duplicated attribute, previous declaration at position " ++ toString first
  | expectedValue => "`=` must be followed by an attribute value"
  | unquotedValue => "attribute value must be enclosed in `\"` or `'`"
  | missingQuote quote =>
    "missing closing quote `" ++ quote.toString ++ "` in attribute value"

/-- Where something stands that belongs into the root element. -/
inductive Side where
  | before
  | after
  deriving Repr, DecidableEq

/-- The side in words. -/
def Side.text : Side → String
  | before => "before"
  | after => "after"

/-- Why a text is not a document. -/
inductive Cause where
  | unclosed (construct : Construct)
  | unknownMarkup
  | namelessDoctype
  | strayClosingTag (name : String)
  | malformedAttribute (tag : String) (position : Nat) (fault : AttributeFault)
  | lessThanInValue (key : String)
  | reference (key tag : String) (fault : ReferenceFault)
  | secondRoot (name : String)
  | textOutsideRoot (side : Side)
  | unexpectedClosingTag (name : String)
  | mismatchedClosingTag (expected found : String)
  | unclosedElement (name : String)
  | noRoot
  | lateDeclaration
  | doctype
  deriving Repr, DecidableEq

/-- The cause in words. -/
def Cause.message : Cause → String
  | unclosed construct => construct.unclosedMessage ++ " not found before end of input"
  | unknownMarkup => "syntax error: unknown or missed symbol in markup"
  | namelessDoctype =>
    "ill-formed document: `<!DOCTYPE>` declaration does not contain a name of a document type"
  | strayClosingTag name =>
    "ill-formed document: close tag `</" ++ name ++ ">` does not match any open tag"
  | malformedAttribute tag position fault =>
    "malformed attribute on <" ++ tag ++ ">: position " ++ toString position ++ ": " ++ fault.message
  | lessThanInValue key =>
    "'<' is not allowed in attribute values (attribute " ++ Text.quoted key ++ "); write &lt;"
  | reference key tag fault =>
    "attribute " ++ Text.quoted key ++ " on <" ++ tag ++ ">: " ++ fault.message
  | secondRoot name => "document has more than one root element (found <" ++ name ++ ">)"
  | textOutsideRoot side => "text is not allowed " ++ side.text ++ " the root element"
  | unexpectedClosingTag name => "unexpected closing tag </" ++ name ++ ">"
  | mismatchedClosingTag expected found =>
    "mismatched closing tag: expected </" ++ expected ++ ">, got </" ++ found ++ ">"
  | unclosedElement name => "unclosed <" ++ name ++ "> element"
  | noRoot => "document has no root element"
  | lateDeclaration => "XML declaration must precede the root element"
  | doctype => "markup declarations (<!DOCTYPE ...>) are not supported"

/-- A cause at a byte offset. -/
structure Fault where
  cause : Cause
  offset : Nat
  deriving Repr, DecidableEq

/-- A cause at a position of the source. -/
structure SourceError where
  cause : Cause
  position : Text.Position
  deriving Repr, DecidableEq

/-- The fault at its position in the source. -/
def Fault.locate (source : String) (fault : Fault) : SourceError :=
  ⟨fault.cause, Text.positionAt source fault.offset⟩

/-- The error and its position in words. -/
def SourceError.message (e : SourceError) : String :=
  "line " ++ toString e.position.line ++ ", column " ++ toString e.position.column ++ ": " ++
    e.cause.message

end Stencil.Markup
