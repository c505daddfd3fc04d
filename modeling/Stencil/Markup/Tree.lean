import Stencil.Markup.Event

/-!
Markup read as a tree. Events are added one by one to the elements that are still open; a document is
a single root element with nothing but white space, comments and instructions around it.
-/
namespace Stencil.Markup

/-- The elements that are open, from the innermost on, and the root once it is closed. -/
structure Builder where
  stack : List Element := []
  root : Option Element := none
  deriving Repr, Inhabited

namespace Builder

/-- On which side of the root the next construct outside elements stands. -/
def side (b : Builder) : Side :=
  if b.root.isSome then .after else .before

/-- The builder with a closed element in its place. -/
def attach (el : Element) (b : Builder) : Builder :=
  match b.stack with
  | parent :: outer => { b with stack := parent.addChild el.toNode :: outer }
  | [] => { b with root := some el }

/-- The children with more text at the end, which joins text that stands there. -/
def appendText (s : String) (children : List Node) : List Node :=
  match children.getLast? with
  | some (.text before) => children.dropLast ++ [.text (before ++ s)]
  | _ => children ++ [.text s]

/-- The builder with more text. Outside the root it may only be white space. -/
def addText (s : String) (b : Builder) : Except Cause Builder :=
  match b.stack with
  | parent :: outer =>
    .ok { b with stack := { parent with children := appendText s parent.children } :: outer }
  | [] => if Text.isBlankText s then .ok b else .error (.textOutsideRoot b.side)

/-- The builder with a comment or instruction, which is dropped outside the root. -/
def addAside (node : Node) (b : Builder) : Builder :=
  match b.stack with
  | parent :: outer => { b with stack := parent.addChild node :: outer }
  | [] => b

/-- The builder with a section of character data. -/
def addCdata (s : String) (b : Builder) : Except Cause Builder :=
  match b.stack with
  | parent :: outer => .ok { b with stack := parent.addChild (.cdata s) :: outer }
  | [] => .error (.textOutsideRoot b.side)

/-- The element that a tag opens, unless it would be a second root. -/
def openTag (tag : Tag) (b : Builder) : Except Cause Element := do
  let el ← elementOfTag tag
  if b.stack.isEmpty ∧ b.root.isSome then throw (.secondRoot el.name)
  return el

/-- The builder with its innermost element closed. -/
def close (name : String) (b : Builder) : Except Cause Builder :=
  match b.stack with
  | [] => .error (.unexpectedClosingTag name)
  | el :: outer =>
    if el.name = name then .ok ({ b with stack := outer }.attach el)
    else .error (.mismatchedClosingTag el.name name)

/-- A processing instruction: a target up to the first white space, and the rest trimmed. -/
def instruction (content : List Char) : Node :=
  let target := content.takeWhile fun c => !Text.isBlank c
  .instruction (String.ofList target)
    (String.ofList (Text.trimChars (content.drop (target.length + 1))))

/-- The builder after an event. -/
def step (b : Builder) : Event → Except Cause Builder
  | .start tag => do
    let el ← b.openTag tag
    return { b with stack := el :: b.stack }
  | .empty tag => do
    let el ← b.openTag tag
    return b.attach el
  | .close name => b.close name
  | .text s => b.addText s
  | .reference name => b.addText ("&" ++ name ++ ";")
  | .cdata s => b.addCdata s
  | .comment s => .ok (b.addAside (.comment s))
  | .instruction content => .ok (b.addAside (instruction content))
  | .declaration =>
    if b.stack.isEmpty ∧ b.root.isNone then .ok b else .error .lateDeclaration
  | .doctype => .error .doctype

/-- The root element once all events are read. -/
def finish (b : Builder) : Except Cause Element :=
  match b.stack with
  | el :: _ => .error (.unclosedElement el.name)
  | [] =>
    match b.root with
    | some root => .ok root
    | none => .error .noRoot

/-- The builder after events at offsets. -/
def run (b : Builder) : List (Nat × Event) → Except Fault Builder
  | [] => .ok b
  | (offset, event) :: rest =>
    match b.step event with
    | .ok b => b.run rest
    | .error cause => .error ⟨cause, offset⟩

end Builder

/-- The root element of a reading. -/
def Reading.root (r : Reading) : Except Fault Element := do
  let b ← Builder.run {} r.events
  match r.ending with
  | .faulty fault => throw fault
  | .complete offset => b.finish.mapError (⟨·, offset⟩)

/-- The root element of a markup text, as a reader takes it apart. -/
def parse (source : String) (reader : Reader := read) : Except SourceError Element :=
  (reader source).root.mapError (·.locate source)

end Stencil.Markup
