import Stencil.Number.Read
import Stencil.Text.Position

/-!
References in attribute values: the five named characters, and characters by number.
-/
namespace Stencil.Markup

/-- Why a number in a reference names no character. -/
inductive NumberFault where
  | sign
  | empty
  | invalidDigit
  | tooLarge
  | zero
  | notScalar (code : Nat)
  deriving Repr, DecidableEq

/-- The fault in words. -/
def NumberFault.message : NumberFault → String
  | sign => "unexpected number sign"
  | empty => "cannot parse integer from empty string"
  | invalidDigit => "invalid digit found in string"
  | tooLarge => "number too large to fit in target type"
  | zero => "0x0 character is not permitted in XML"
  | notScalar code => "`" ++ toString code ++ "` is not a valid codepoint"

/-- Why an attribute value cannot be decoded. Ranges count bytes of the value as written. -/
inductive ReferenceFault where
  | unterminated (start stop : Nat)
  | unknown (start stop : Nat) (name : String)
  | number (fault : NumberFault)
  deriving Repr, DecidableEq

/-- A range of bytes in words. -/
def rangeText (start stop : Nat) : String :=
  toString start ++ ".." ++ toString stop

/-- The fault in words. -/
def ReferenceFault.message : ReferenceFault → String
  | unterminated start stop =>
    "Error while escaping character at range " ++ rangeText start stop ++
      ": Cannot find ';' after '&'"
  | unknown start stop name =>
    "at " ++ rangeText start stop ++ ": unrecognized entity `" ++ name ++ "`"
  | number fault => "invalid character reference: " ++ fault.message

/-- The value of a digit in a base of at most sixteen. -/
def digitIn? (base : Nat) (c : Char) : Option Nat :=
  (Number.hexDigit? c).filter (· < base)

/-- The number that digits continue. It has at most 32 bits. -/
def codeFrom (base : Nat) (n : Nat) : List Char → Except NumberFault Nat
  | [] => .ok n
  | c :: rest =>
    match digitIn? base c with
    | none => .error .invalidDigit
    | some d => if base * n + d < Nat.pow 2 32 then codeFrom base (base * n + d) rest else .error .tooLarge

/-- A number without a sign. -/
def code (base : Nat) : List Char → Except NumberFault Nat
  | [] => .error .empty
  | '+' :: _ | '-' :: _ => .error .sign
  | digits => codeFrom base 0 digits

/-- The character that a reference by number names, after the number sign. -/
def numberedChar (cs : List Char) : Except NumberFault Char := do
  let n ← match cs with
    | 'x' :: digits => code 16 digits
    | digits => code 10 digits
  if n = 0 then throw .zero
  else if h : n.isValidChar then return Char.ofNatAux n h
  else throw (.notScalar n)

/-- The character that a name stands for. -/
def namedChar? : String → Option Char
  | "lt" => some '<'
  | "gt" => some '>'
  | "amp" => some '&'
  | "apos" => some '\''
  | "quot" => some '"'
  | _ => none

/-- The character of a reference whose name starts at a byte of the value. -/
def referencedChar (start : Nat) (name : List Char) : Except ReferenceFault Char :=
  match name with
  | '#' :: number => (numberedChar number).mapError .number
  | _ =>
    match namedChar? (String.ofList name) with
    | some c => .ok c
    | none => .error (.unknown start (start + Text.byteLength name) (String.ofList name))

/-- The characters of a value from an offset on, after `skip` characters of a reference that was
    resolved. -/
def decodeFrom (total : Nat) :
    (skip : Nat) → (offset : Nat) → List Char → Except ReferenceFault (List Char)
  | _, _, [] => .ok []
  | skip + 1, offset, c :: rest => decodeFrom total skip (offset + c.utf8Size) rest
  | 0, offset, c :: rest =>
    if c = '&' then
      let name := rest.takeWhile fun d => d != ';' && d != '&'
      if rest[name.length]? = some ';' then do
        let d ← referencedChar (offset + 1) name
        let others ← decodeFrom total (name.length + 1) (offset + 1) rest
        return d :: others
      else .error (.unterminated offset total)
    else do
      let others ← decodeFrom total 0 (offset + c.utf8Size) rest
      return c :: others

/-- The value with its references resolved. -/
def decodeValue (cs : List Char) : Except ReferenceFault (List Char) :=
  decodeFrom (Text.byteLength cs) 0 0 cs

end Stencil.Markup
