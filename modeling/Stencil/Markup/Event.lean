import Stencil.Markup.Tag
import Stencil.Text.Search

/-!
Markup read as a sequence of events: tags, runs of text, references, and the other constructs, each
at the byte offset where it starts.
-/
namespace Stencil.Markup

/-- What stands at a place in markup. -/
inductive Event where
  | start (tag : Tag)
  | empty (tag : Tag)
  | close (name : String)
  | text (s : String)
  | reference (name : String)
  | cdata (s : String)
  | comment (s : String)
  | instruction (content : List Char)
  | declaration
  | doctype
  deriving Repr, Inhabited

/-- How many characters of a tag stand before its closing bracket, which is outside quotes; or the
    quote that is still open at the end. -/
def tagWidth (quote : Option Char) : List Char → Except (Option Char) Nat
  | [] => .error quote
  | c :: rest =>
    match quote with
    | some q => (tagWidth (if c = q then none else quote) rest).map (· + 1)
    | none =>
      if c = '>' then .ok 0
      else if c = '"' ∨ c = '\'' then (tagWidth (some c) rest).map (· + 1)
      else (tagWidth none rest).map (· + 1)

/-- How many characters stand before the first closing bracket that follows a question mark. -/
def instructionWidth (previous : Char) : List Char → Option Nat
  | [] => none
  | c :: rest =>
    if c = '>' ∧ previous = '?' then some 0 else (instructionWidth c rest).map (· + 1)

/-- What a document type declaration is in the middle of. -/
inductive DoctypeMode where
  | outside
  | quoted (quote : Char)
  | subset
  /-- In a comment, so many characters before its body. -/
  | comment (ahead : Nat)
  /-- In an instruction, so many characters before its body. -/
  | instruction (ahead : Nat)
  | untilBracket
  | declaration (quote : Option Char)
  | afterSubset

/-- What begins at a place in the internal subset. Every opening bracket begins a unit: a comment, an
    instruction, a declaration of an entity, an attribute list or a notation, in which quotes count,
    or anything else up to the next closing bracket. -/
def DoctypeMode.beginning (cs : List Char) : DoctypeMode :=
  let opens (mark : String) := mark.toList.isPrefixOf cs
  if opens "]" then .afterSubset
  else if opens "<!--" then .comment 3
  else if opens "<?" then .instruction 1
  else if opens "<!ENTITY" || opens "<!ATTLIST" || opens "<!NOTATION" then .declaration none
  else if opens "<" then .untilBracket
  else .subset

/-- How many characters of a document type declaration stand before its closing bracket. Quoted
    texts and the units of the internal subset are skipped. -/
def doctypeWidth (mode : DoctypeMode) : List Char → Option Nat
  | [] => none
  | c :: rest =>
    match mode with
    | .outside =>
      if c = '>' then some 0
      else
        let next := if c = '[' then .subset else if c = '"' ∨ c = '\'' then .quoted c else .outside
        (doctypeWidth next rest).map (· + 1)
    | .quoted q => (doctypeWidth (if c = q then .outside else mode) rest).map (· + 1)
    | .subset => (doctypeWidth (.beginning (c :: rest)) rest).map (· + 1)
    | .comment (ahead + 1) => (doctypeWidth (.comment ahead) rest).map (· + 1)
    | .comment 0 =>
      let next := if c = '-' ∧ "->".toList.isPrefixOf rest then .untilBracket else .comment 0
      (doctypeWidth next rest).map (· + 1)
    | .instruction (ahead + 1) => (doctypeWidth (.instruction ahead) rest).map (· + 1)
    | .instruction 0 =>
      let next := if c = '?' ∧ rest.head? = some '>' then .untilBracket else .instruction 0
      (doctypeWidth next rest).map (· + 1)
    | .untilBracket => (doctypeWidth (if c = '>' then .subset else mode) rest).map (· + 1)
    | .declaration (some q) =>
      (doctypeWidth (if c = q then .declaration none else mode) rest).map (· + 1)
    | .declaration none =>
      let next :=
        if c = '>' then .subset
        else if c = '"' ∨ c = '\'' then .declaration (some c)
        else mode
      (doctypeWidth next rest).map (· + 1)
    | .afterSubset => if c = '>' then some 0 else (doctypeWidth mode rest).map (· + 1)

/-- The event of a construct that starts with an exclamation mark, given what follows the mark, and
    how many characters follow the opening bracket. -/
def scanDeclaration (offset : Nat) (rest : List Char) : Except Fault (Event × Nat) :=
  match rest with
  | '-' :: more =>
    match more with
    | '-' :: inside =>
      match Text.before? "-->".toList inside with
      | some body => .ok (.comment (String.ofList body), body.length + 6)
      | none => .error ⟨.unclosed .comment, offset⟩
    | _ => .error ⟨.unclosed .comment, offset⟩
  | '[' :: more =>
    if "CDATA[".toList.isPrefixOf more then
      match Text.before? "]]>".toList (more.drop 6) with
      | some body => .ok (.cdata (String.ofList body), body.length + 11)
      | none => .error ⟨.unclosed .cdata, offset⟩
    else .error ⟨.unclosed .cdata, offset⟩
  | c :: _ =>
    if c = 'D' ∨ c = 'd' then
      match doctypeWidth .outside rest with
      | none => .error ⟨.unclosed .doctype, offset⟩
      | some width =>
        let content := rest.take width
        if (content.take 7).map Char.toUpper ≠ "DOCTYPE".toList then
          .error ⟨.unclosed .doctype, offset⟩
        else if (content.drop 7).all isTagSpace then
          .error ⟨.namelessDoctype, offset + 2 + Text.byteLength content⟩
        else .ok (.doctype, width + 2)
    else .error ⟨.unknownMarkup, offset⟩
  | [] => .error ⟨.unknownMarkup, offset⟩

/-- The content starts as a declaration of the markup language does. -/
def opensDeclaration (content : List Char) : Bool :=
  "xml".toList.isPrefixOf content && (content.drop 3).head?.all fun c => isTagSpace c

/-- The event of a processing instruction, given what follows its question mark, and how many
    characters follow the opening bracket. -/
def scanInstruction (offset : Nat) (rest : List Char) : Except Fault (Event × Nat) :=
  match instructionWidth '?' rest with
  | some (width + 1) =>
    let content := rest.take width
    .ok (if opensDeclaration content then .declaration else .instruction content, width + 3)
  | some 0 => .error ⟨.unclosed .instruction, offset⟩
  | none =>
    let declares := "xml".toList.isPrefixOf rest &&
      (rest.drop 3).head?.all fun c => isTagSpace c || c == '?'
    .error ⟨.unclosed (if declares then .declaration else .instruction), offset⟩

/-- The name in a closing tag, without white space at its end unless it is nothing else. -/
def closingName (cs : List Char) : List Char :=
  if cs.all isTagSpace then cs else (cs.reverse.dropWhile isTagSpace).reverse

/-- The event of a tag, given what follows its opening bracket, and how many characters follow that
    bracket; `depth` elements are open. -/
def scanTagEvent (depth offset : Nat) (rest : List Char) : Except Fault (Event × Nat) :=
  match tagWidth none rest with
  | .error none => .error ⟨.unclosed .tag, offset⟩
  | .error (some quote) => .error ⟨.unclosed (.attributeValue quote), offset⟩
  | .ok width =>
    let content := rest.take width
    match content with
    | '/' :: name =>
      let name := String.ofList (closingName name)
      if depth = 0 then .error ⟨.strayClosingTag name, offset⟩ else .ok (.close name, width + 1)
    | _ =>
      if content.getLast? = some '/' then .ok (.empty (scanTag content.dropLast), width + 1)
      else .ok (.start (scanTag content), width + 1)

/-- The event that starts with `c`, and how many characters follow `c` in it. -/
def scanEvent (depth offset : Nat) (c : Char) (rest : List Char) : Except Fault (Event × Nat) :=
  match c, rest with
  | '<', '!' :: more => scanDeclaration offset more
  | '<', '?' :: more => scanInstruction offset more
  | '<', _ => scanTagEvent depth offset rest
  | '&', _ =>
    let name := rest.takeWhile fun d => d != ';' && d != '&' && d != '<'
    if rest[name.length]? = some ';' then .ok (.reference (String.ofList name), name.length + 1)
    else .error ⟨.unclosed .reference, offset⟩
  | _, _ =>
    let tail := rest.takeWhile fun d => d != '<' && d != '&'
    .ok (.text (String.ofList (c :: tail)), tail.length)

/-- The number of open elements after an event. -/
def Event.depthAfter (depth : Nat) : Event → Nat
  | start _ => depth + 1
  | close _ => depth - 1
  | _ => depth

/-- How a reading of markup ends: at the end of the text or at a fault. -/
inductive Ending where
  | complete (offset : Nat)
  | faulty (fault : Fault)
  deriving Repr, DecidableEq

/-- Events with their offsets, and how the reading ended. -/
structure Reading where
  events : List (Nat × Event)
  ending : Ending
  deriving Repr

/-- What takes a markup text apart into events. -/
abbrev Reader := String → Reading

/-- The reading with one more event at the front. -/
def Reading.cons (offset : Nat) (event : Event) (r : Reading) : Reading :=
  { r with events := (offset, event) :: r.events }

/-- The events of a text from an offset on, after `skip` characters of the event read last. -/
def readFrom : (skip : Nat) → (depth offset : Nat) → List Char → Reading
  | _, _, offset, [] => ⟨[], .complete offset⟩
  | skip + 1, depth, offset, c :: rest => readFrom skip depth (offset + c.utf8Size) rest
  | 0, depth, offset, c :: rest =>
    match scanEvent depth offset c rest with
    | .error fault => ⟨[], .faulty fault⟩
    | .ok (event, width) =>
      (readFrom width (event.depthAfter depth) (offset + c.utf8Size) rest).cons offset event

/-- The events of a text. A byte order mark at the front is left out and not counted. -/
def read : Reader := fun source =>
  match source.toList with
  | '\ufeff' :: rest => readFrom 0 0 0 rest
  | cs => readFrom 0 0 0 cs

end Stencil.Markup
