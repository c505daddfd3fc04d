import Stencil.Number.Read
import Stencil.Text.Blank
import Stencil.Text.Position

/-!
The tokens of an expression text, and how a text is cut into them. Each token carries the byte
offset at which it starts and the number of characters it takes; white space stands between tokens
and nothing else is left out.
-/
namespace Stencil.Expr

/-- An operator or bracket. -/
inductive Punct where
  | strictEq
  | strictNe
  | looseEq
  | looseNe
  | le
  | ge
  | and
  | or
  | not
  | lt
  | gt
  | plus
  | minus
  | star
  | slash
  | percent
  | question
  | colon
  | openParen
  | closeParen
  | openBracket
  | closeBracket
  | openBrace
  | closeBrace
  | comma
  | dot
  deriving Repr, DecidableEq

/-- The sign as written. -/
def Punct.text : Punct → String
  | strictEq => "==="
  | strictNe => "!=="
  | looseEq => "=="
  | looseNe => "!="
  | le => "<="
  | ge => ">="
  | and => "&&"
  | or => "||"
  | not => "!"
  | lt => "<"
  | gt => ">"
  | plus => "+"
  | minus => "-"
  | star => "*"
  | slash => "/"
  | percent => "%"
  | question => "?"
  | colon => ":"
  | openParen => "("
  | closeParen => ")"
  | openBracket => "["
  | closeBracket => "]"
  | openBrace => "\x7b"
  | closeBrace => "\x7d"
  | comma => ","
  | dot => "."

/-- All signs; one that begins another stands after it. -/
def Punct.all : List Punct :=
  [strictEq, strictNe, looseEq, looseNe, le, ge, and, or, not, lt, gt, plus, minus, star, slash,
   percent, question, colon, openParen, closeParen, openBracket, closeBracket, openBrace,
   closeBrace, comma, dot]

/-- The sign that a text starts with. -/
def Punct.leading? (cs : List Char) : Option Punct :=
  all.find? fun p => p.text.toList.isPrefixOf cs

/-- What a token stands for. -/
inductive Token where
  | number (x : Float)
  | text (s : String)
  | word (s : String)
  | punct (p : Punct)
  | eof
  deriving Inhabited

/-- A token at its place in a text. -/
structure Lexeme where
  token : Token
  offset : Nat
  /-- How many characters the token takes. -/
  width : Nat

/-- Why a text is not an expression. -/
inductive SyntaxCause where
  | malformedHex
  | wordAfterNumber
  | malformedNumber (text : String)
  | unterminatedText
  | malformedCodePoint
  | invalidCodePoint
  | assignment
  | unexpectedCharacter (c : Char)
  | empty
  | expectedProperty
  | call
  | unexpectedEnd
  | unexpectedPunct (p : Punct)
  | unsupportedWord (word : String)
  | expectedFieldName
  | expectedKey
  | expectedPunct (p : Punct)
  | trailingInput
  deriving Repr, DecidableEq

/-- The cause in words. -/
def SyntaxCause.message : SyntaxCause → String
  | malformedHex => "malformed hex literal"
  | wordAfterNumber => "identifier directly after number"
  | malformedNumber text => "malformed number `" ++ text ++ "`"
  | unterminatedText => "unterminated string literal"
  | malformedCodePoint => "malformed \\u escape"
  | invalidCodePoint => "invalid unicode scalar in \\u escape"
  | assignment => "assignment is not supported"
  | unexpectedCharacter c => "unexpected character `" ++ c.toString ++ "`"
  | empty => "empty expression"
  | expectedProperty => "expected property name after `.`"
  | call => "function calls are not supported"
  | unexpectedEnd => "unexpected end of expression"
  | unexpectedPunct p => "unexpected `" ++ p.text ++ "`"
  | unsupportedWord word => "`" ++ word ++ "` is not supported in template expressions"
  | expectedFieldName => "expected field name in context lookup"
  | expectedKey => "expected object key"
  | expectedPunct p => "expected `" ++ p.text ++ "`"
  | trailingInput => "unexpected trailing input"

/-- A fault of an expression text and the byte offset that it is reported at. -/
structure SyntaxError where
  cause : SyntaxCause
  offset : Nat
  deriving Repr, DecidableEq

/-- The fault and its place in words. -/
def SyntaxError.message (e : SyntaxError) : String :=
  e.cause.message ++ " at offset " ++ toString e.offset

/-- A character that a word may start with. -/
def isWordStart (c : Char) : Bool :=
  c.isAlpha || c == '_' || c == '$'

/-- A character that a word may go on with. -/
def isWordChar (c : Char) : Bool :=
  c.isAlphanum || c == '_' || c == '$'

/-- A hexadecimal digit. -/
def isHexDigit (c : Char) : Bool :=
  (Number.hexDigit? c).isSome

/-- How many characters continue a decimal after `previous`: digits, points, exponent marks, and a
    sign right after an exponent mark. -/
def decimalRun (previous : Char) : List Char → Nat
  | [] => 0
  | c :: rest =>
    if Number.isDigit c || c == '.' || c == 'e' || c == 'E' ||
        ((c == '+' || c == '-') && (previous == 'e' || previous == 'E')) then
      decimalRun c rest + 1
    else 0

/-- The token of a number that starts with `c`, and how many characters follow `c` in it. -/
def scanNumber (offset : Nat) (c : Char) (rest : List Char) : Except SyntaxError (Token × Nat) :=
  let hexDigits? := match c, rest with
    | '0', 'x' :: more | '0', 'X' :: more => some (more.takeWhile isHexDigit)
    | _, _ => none
  match hexDigits? with
  | some digits =>
    match Number.readHex? digits with
    | some n => .ok (.number (Float.ofNat n), digits.length + 1)
    | none => .error ⟨.malformedHex, offset⟩
  | none =>
    let width := decimalRun c rest
    let run := c :: rest.take width
    if (rest.drop width).head?.any fun d => d.isAlpha || d == '_' then
      .error ⟨.wordAfterNumber, offset + Text.byteLength run⟩
    else match Number.readDecimal? run with
      | some x => .ok (.number x, width)
      | none => .error ⟨.malformedNumber (String.ofList run), offset⟩

/-- The character that four hexadecimal digits name. -/
def codePoint? (digits : List Char) : Option Char :=
  match Number.readHexDigits? digits with
  | some n => if h : n.isValidChar then some (Char.ofNatAux n h) else none
  | none => none

/-- The character that a backslash gives to `c`, a code point apart. -/
def unescaped : Char → Char
  | 'n' => '\n'
  | 't' => '\t'
  | 'r' => '\r'
  | '0' => '\x00'
  | c => c

/-- The content of a quoted text after its opening quote, which stands at `start`, and how many
    characters it takes with the closing quote. -/
def scanText (quote : Char) (start : Nat) (offset : Nat) :
    List Char → Except SyntaxError (List Char × Nat)
  | [] => .error ⟨.unterminatedText, start⟩
  | '\\' :: 'u' :: a :: b :: c :: d :: rest =>
    if [a, b, c, d].all isHexDigit then
      match codePoint? [a, b, c, d] with
      | some point => do
        let (content, width) ← scanText quote start (offset + 6) rest
        return (point :: content, width + 6)
      | none => .error ⟨.invalidCodePoint, offset + 2⟩
    else .error ⟨.malformedCodePoint, offset + 2⟩
  | '\\' :: 'u' :: _ => .error ⟨.malformedCodePoint, offset + 2⟩
  | '\\' :: c :: rest => do
    let (content, width) ← scanText quote start (offset + 1 + c.utf8Size) rest
    return (unescaped c :: content, width + 2)
  | ['\\'] => .error ⟨.unterminatedText, start⟩
  | c :: rest =>
    if c = quote then .ok ([], 1)
    else do
      let (content, width) ← scanText quote start (offset + c.utf8Size) rest
      return (c :: content, width + 1)

/-- The token that starts with `c`, and how many characters follow `c` in it. -/
def scanToken (offset : Nat) (c : Char) (rest : List Char) : Except SyntaxError (Token × Nat) :=
  if Number.isDigit c || (c == '.' && rest.head?.any Number.isDigit) then
    scanNumber offset c rest
  else if c == '"' || c == '\'' then
    (scanText c offset (offset + 1) rest).map fun (content, width) =>
      (.text (String.ofList content), width)
  else if isWordStart c then
    let tail := rest.takeWhile isWordChar
    .ok (.word (String.ofList (c :: tail)), tail.length)
  else match Punct.leading? (c :: rest) with
    | some p => .ok (.punct p, p.text.length - 1)
    | none => .error ⟨if c = '=' then .assignment else .unexpectedCharacter c, offset⟩

/-- The lexemes of a text from an offset on, after `skip` characters that belong to the lexeme read
    last. The end of the text is the last lexeme. -/
def lexemesFrom : (skip : Nat) → (offset : Nat) → List Char → Except SyntaxError (List Lexeme)
  | _, offset, [] => .ok [⟨.eof, offset, 0⟩]
  | skip + 1, offset, c :: rest => lexemesFrom skip (offset + c.utf8Size) rest
  | 0, offset, c :: rest =>
    if Text.isBlank c then lexemesFrom 0 (offset + c.utf8Size) rest
    else do
      let (token, width) ← scanToken offset c rest
      let others ← lexemesFrom width (offset + c.utf8Size) rest
      return ⟨token, offset, width + 1⟩ :: others

/-- The lexemes of a text. -/
def lexemes (source : String) : Except SyntaxError (List Lexeme) :=
  lexemesFrom 0 0 source.toList

end Stencil.Expr
