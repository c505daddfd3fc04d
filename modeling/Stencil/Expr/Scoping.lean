import Stencil.Expr.Token
import Stencil.Fields

/-!
Scoped form of an expression text. Every bare word is replaced by a look-up of that name in the data
context; quoted texts, numbers, signs, words right after a point and reserved words stay as they are.
The text is read once from left to right by a small machine.
-/
namespace Stencil.Expr

/-- Words that never name a field: literals, operators in words, and global names. -/
def reservedWords : List String :=
  ["true", "false", "NaN", "null", "undefined", "debugger", "console", "window", "in",
   "instanceof", "new", "function", "return", "this", "typeof", "eval", "void", "Math",
   "RegExp", "Array", "Object", "Date", "Infinity", "parseInt", "parseFloat", "isNaN",
   "Number", "String", "Boolean", "JSON"]

/-- The look-up of a field, as written in a scoped text. -/
def lookupText (name : List Char) : List Char :=
  "context['".toList ++ name ++ "']".toList

/-- What the machine is in the middle of. -/
inductive ScopeMode where
  | plain
  | quoted (quote : Char)
  | number (hex : Bool)
  | word (read : List Char) (afterDot : Bool)
  deriving Repr, DecidableEq

/-- A word as it is written in the scoped text. -/
def scopedWord (word : List Char) (afterDot : Bool) : List Char :=
  if afterDot || reservedWords.contains (String.ofList word) then word else lookupText word

/-- What is written at a character outside quotes, words and numbers, and the mode after it. -/
def openMode (previous : Option Char) (c : Char) : List Char × ScopeMode :=
  if isWordStart c then ([], .word [c] (previous == some '.'))
  else if c == '"' || c == '\'' then ([c], .quoted c)
  else if Number.isDigit c then ([c], .number false)
  else ([c], .plain)

/-- The number goes on with `c` after `previous`. -/
def continuesNumber (hex : Bool) (previous : Option Char) (c : Char) : Bool :=
  c.isAlphanum || c == '.' || c == '_' ||
    ((c == '+' || c == '-') && (previous == some 'e' || previous == some 'E') && !hex)

/-- What is written at a character, and the mode after it. -/
def ScopeMode.step (mode : ScopeMode) (previous : Option Char) (c : Char) : List Char × ScopeMode :=
  match mode with
  | plain => openMode previous c
  | quoted quote => ([c], if c = quote ∧ previous ≠ some '\\' then plain else quoted quote)
  | number hex =>
    if continuesNumber hex previous c then ([c], number (hex || c == 'x' || c == 'X'))
    else openMode previous c
  | word read afterDot =>
    if isWordChar c then ([], word (read ++ [c]) afterDot)
    else
      let (written, next) := openMode previous c
      (scopedWord read afterDot ++ written, next)

/-- What is still to be written at the end of the text. -/
def ScopeMode.finish : ScopeMode → List Char
  | word read afterDot => scopedWord read afterDot
  | _ => []

/-- The scoped form of the characters after `previous`, read in a mode. -/
def scopeFrom (mode : ScopeMode) (previous : Option Char) : List Char → List Char
  | [] => mode.finish
  | c :: rest =>
    let (written, next) := mode.step previous c
    written ++ scopeFrom next (some c) rest

/-- The scoped form of an expression text. -/
def scopedText (source : String) : String :=
  String.ofList (scopeFrom .plain none source.toList)

/-- Scoped forms that were worked out before, by their sources. -/
abbrev ScopeCache := Fields String

/-- The scoped form of a text, taken from the cache if it is there, and the cache with it. -/
def ScopeCache.scopedText (cache : ScopeCache) (source : String) : String × ScopeCache :=
  match cache.get? source with
  | some form => (form, cache)
  | none => (Expr.scopedText source, cache.set source (Expr.scopedText source))

end Stencil.Expr
