import Stencil.Markup.Error
import Stencil.Markup.Node

/-!
Start tags. The text of a tag is a name up to the first space, followed by attributes; positions in
it count bytes from the name on.
-/
namespace Stencil.Markup

/-- An attribute as it is written, and its value with the references in it resolved. -/
structure WrittenAttribute where
  key : String
  value : List Char
  decoded : Except ReferenceFault (List Char)
  deriving Repr

/-- A start tag: its name, and its attributes up to the first one that is malformed. -/
structure Tag where
  name : String
  attributes : List (Except (Nat × AttributeFault) WrittenAttribute)
  deriving Repr, Inhabited

/-- The attribute with its value decoded. -/
def WrittenAttribute.resolve (tag : String) (a : WrittenAttribute) : Except Cause Attribute :=
  if a.value.contains '<' then .error (.lessThanInValue a.key)
  else match a.decoded with
    | .ok value => .ok ⟨a.key, String.ofList value⟩
    | .error fault => .error (.reference a.key tag fault)

/-- The attribute that stands in a tag. -/
def attributeOf (tag : String) : Except (Nat × AttributeFault) WrittenAttribute → Except Cause Attribute
  | .error (place, fault) => .error (.malformedAttribute tag place fault)
  | .ok written => written.resolve tag

/-- The element that a start tag opens, without children. -/
def elementOfTag (tag : Tag) : Except Cause Element := do
  let attributes ← tag.attributes.mapM (attributeOf tag.name)
  return ⟨tag.name, attributes, []⟩

/-- White space between the parts of a tag. -/
def isTagSpace (c : Char) : Bool :=
  c == ' ' || c == '\t' || c == '\r' || c == '\n'

/-- The attribute whose key starts with `c` at a position of a tag, where `seen` are the keys before
    it with their positions, and the number of characters that it takes. The first character always
    belongs to the key. -/
def scanAttribute (length : Nat) (seen : List (String × Nat)) (position : Nat) (c : Char)
    (rest : List Char) : Except (Nat × AttributeFault) (WrittenAttribute × Nat) := do
  let tail := rest.takeWhile fun d => d != '=' && !isTagSpace d
  let key := String.ofList (c :: tail)
  let afterKey := rest.drop tail.length
  let keySpace := afterKey.takeWhile isTagSpace
  match afterKey.drop keySpace.length with
  | '=' :: afterEquals =>
    match seen.lookup key with
    | some first => throw (position, .duplicated first)
    | none => pure ()
    let valueSpace := afterEquals.takeWhile isTagSpace
    match afterEquals.drop valueSpace.length with
    | [] => throw (length, .expectedValue)
    | quote :: inside =>
      if quote = '"' ∨ quote = '\'' then
        let value := inside.takeWhile (· != quote)
        if value.length = inside.length then throw (length, .missingQuote quote)
        else
          return (⟨key, value, decodeValue value⟩,
            1 + tail.length + keySpace.length + 1 + valueSpace.length + 1 + value.length + 1)
      else throw (length - Text.byteLength (quote :: inside), .unquotedValue)
  | unexpected => throw (length - Text.byteLength unexpected, .expectedEquals)

/-- The attributes of a tag from a position on, after `skip` characters of the attribute read
    last. -/
def attributesFrom (length : Nat) :
    (skip : Nat) → (seen : List (String × Nat)) → (position : Nat) → List Char →
    List (Except (Nat × AttributeFault) WrittenAttribute)
  | _, _, _, [] => []
  | skip + 1, seen, position, c :: rest =>
    attributesFrom length skip seen (position + c.utf8Size) rest
  | 0, seen, position, c :: rest =>
    if isTagSpace c then attributesFrom length 0 seen (position + c.utf8Size) rest
    else
      match scanAttribute length seen position c rest with
      | .error fault => [.error fault]
      | .ok (written, width) =>
        .ok written :: attributesFrom length (width - 1) (seen ++ [(written.key, position)])
          (position + c.utf8Size) rest

/-- The tag that a text spells. -/
def scanTag (cs : List Char) : Tag :=
  let name := cs.takeWhile fun c => !isTagSpace c
  ⟨String.ofList name,
    attributesFrom (Text.byteLength cs) 0 [] (Text.byteLength name) (cs.drop name.length)⟩

end Stencil.Markup
