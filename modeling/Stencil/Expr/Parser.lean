import Stencil.Expr
import Stencil.Expr.Scoping
import Stencil.Number.Format

/-!
Expressions read from lexemes. Operators bind by their power: an operand is read first, and then
every operator whose power reaches the least one wanted takes what stands to its left. Member access
and indexing bind tighter than any operator.
-/
namespace Stencil.Expr

/-- The binary operator of a sign with its power; the right operand is read with a power one
    higher, so that operators of one power group to the left. -/
def Punct.binary? : Punct → Option (BinaryOp × Nat)
  | or => some (.or, 3)
  | and => some (.and, 5)
  | looseEq => some (.looseEq, 7)
  | looseNe => some (.looseNe, 7)
  | strictEq => some (.strictEq, 7)
  | strictNe => some (.strictNe, 7)
  | lt => some (.lt, 9)
  | le => some (.le, 9)
  | gt => some (.gt, 9)
  | ge => some (.ge, 9)
  | plus => some (.add, 11)
  | minus => some (.sub, 11)
  | star => some (.mul, 13)
  | slash => some (.div, 13)
  | percent => some (.rem, 13)
  | _ => none

/-- The unary operator of a sign. -/
def Punct.unary? : Punct → Option UnaryOp
  | not => some .not
  | minus => some .neg
  | plus => some .plus
  | _ => none

/-- The power of the conditional operator. -/
def conditionalPower : Nat := 2

/-- The power with which the last operand of the conditional operator is read. -/
def alternativePower : Nat := 1

/-- The power with which the operand of a unary operator is read. -/
def unaryPower : Nat := 15

/-- The token at the front. -/
def peek : List Lexeme → Token
  | [] => .eof
  | l :: _ => l.token

/-- The offset at which a fault at the front is reported. -/
def frontOffset : List Lexeme → Nat
  | [] => 0
  | l :: _ => l.offset

/-- A fault at the front. -/
def fault {α : Type} (cause : SyntaxCause) (ls : List Lexeme) : Except SyntaxError α :=
  .error ⟨cause, frontOffset ls⟩

/-- What follows the given sign, if it stands at the front. -/
def eat? (p : Punct) : List Lexeme → Option (List Lexeme)
  | ⟨.punct q, _, _⟩ :: rest => if q = p then some rest else none
  | _ => none

/-- What follows the given sign, which has to stand at the front. -/
def expect (p : Punct) (ls : List Lexeme) : Except SyntaxError (List Lexeme) :=
  match eat? p ls with
  | some rest => .ok rest
  | none => fault (.expectedPunct p) ls

/-- The value that a word stands for by itself. -/
def constant? : String → Option Value
  | "true" => some (.bool true)
  | "false" => some (.bool false)
  | "null" => some .null
  | "undefined" => some .undefined
  | "NaN" => some (.number (0.0 / 0.0))
  | "Infinity" => some (.number (1.0 / 0.0))
  | _ => none

/-- The name in brackets after the word `context`. -/
def fieldName (ls : List Lexeme) : Except SyntaxError (String × List Lexeme) := do
  let inside ← expect .openBracket ls
  match peek inside with
  | .text name =>
    let rest ← expect .closeBracket inside.tail
    return (name, rest)
  | _ => fault .expectedFieldName inside.tail

/-- The key of an entry of an object. -/
def entryKey (ls : List Lexeme) : Except SyntaxError (String × List Lexeme) :=
  match peek ls with
  | .text s => .ok (s, ls.tail)
  | .number x => .ok (Number.text x, ls.tail)
  | .word w => if w = "context" then fieldName ls.tail else .ok (w, ls.tail)
  | _ => fault .expectedKey ls.tail

mutual

/-- An expression whose operators all have at least the given power. -/
def expression (fuel power : Nat) (ls : List Lexeme) : Except SyntaxError (Expr × List Lexeme) :=
  match fuel with
  | 0 => fault .unexpectedEnd ls
  | fuel + 1 => do
    let (left, rest) ← operand fuel ls
    operators fuel power left rest

/-- An operand with the unary operators before it. -/
def operand (fuel : Nat) (ls : List Lexeme) : Except SyntaxError (Expr × List Lexeme) :=
  match fuel with
  | 0 => fault .unexpectedEnd ls
  | fuel + 1 =>
    match peek ls with
    | .number x => .ok (.literal (.number x), ls.tail)
    | .text s => .ok (.literal (.string s), ls.tail)
    | .word w =>
      match constant? w with
      | some value => .ok (.literal value, ls.tail)
      | none =>
        if w = "typeof" then do
          let (e, rest) ← expression fuel unaryPower ls.tail
          return (.unary .kind e, rest)
        else if w = "context" then do
          let (name, rest) ← fieldName ls.tail
          return (.field name, rest)
        else fault (.unsupportedWord w) ls
    | .punct .openParen => do
      let (e, rest) ← expression fuel 0 ls.tail
      let rest ← expect .closeParen rest
      return (e, rest)
    | .punct .openBracket => do
      let (es, rest) ← items fuel ls.tail
      return (.array es, rest)
    | .punct .openBrace => do
      let (es, rest) ← entries fuel ls.tail
      return (.object es, rest)
    | .punct p =>
      match p.unary? with
      | some op => do
        let (e, rest) ← expression fuel unaryPower ls.tail
        return (.unary op e, rest)
      | none => fault (.unexpectedPunct p) ls
    | .eof => fault .unexpectedEnd ls

/-- The expression that `left` and the operators after it form. -/
def operators (fuel power : Nat) (left : Expr) (ls : List Lexeme) :
    Except SyntaxError (Expr × List Lexeme) :=
  match fuel with
  | 0 => fault .unexpectedEnd ls
  | fuel + 1 =>
    match peek ls with
    | .punct .dot =>
      match peek ls.tail with
      | .word name => operators fuel power (.member left name) ls.tail.tail
      | _ => fault .expectedProperty ls.tail.tail
    | .punct .openBracket => do
      let (key, rest) ← expression fuel 0 ls.tail
      let rest ← expect .closeBracket rest
      operators fuel power (.index left key) rest
    | .punct .openParen => fault .call ls
    | .punct .question =>
      if conditionalPower < power then .ok (left, ls)
      else do
        let (yes, rest) ← expression fuel 0 ls.tail
        let rest ← expect .colon rest
        let (no, rest) ← expression fuel alternativePower rest
        operators fuel power (.conditional left yes no) rest
    | .punct p =>
      match p.binary? with
      | some (op, level) =>
        if level < power then .ok (left, ls)
        else do
          let (right, rest) ← expression fuel (level + 1) ls.tail
          operators fuel power (.binary op left right) rest
      | none => .ok (left, ls)
    | _ => .ok (left, ls)

/-- The items of an array after its opening bracket; a comma may stand after the last. -/
def items (fuel : Nat) (ls : List Lexeme) : Except SyntaxError (List Expr × List Lexeme) :=
  match fuel with
  | 0 => fault .unexpectedEnd ls
  | fuel + 1 =>
    match eat? .closeBracket ls with
    | some rest => .ok ([], rest)
    | none => do
      let (item, rest) ← expression fuel 0 ls
      match eat? .comma rest with
      | some rest => do
        let (others, rest) ← items fuel rest
        return (item :: others, rest)
      | none => do
        let rest ← expect .closeBracket rest
        return ([item], rest)

/-- The entries of an object after its opening brace; a comma may stand after the last. -/
def entries (fuel : Nat) (ls : List Lexeme) :
    Except SyntaxError (List (String × Expr) × List Lexeme) :=
  match fuel with
  | 0 => fault .unexpectedEnd ls
  | fuel + 1 =>
    match eat? .closeBrace ls with
    | some rest => .ok ([], rest)
    | none => do
      let (key, rest) ← entryKey ls
      let rest ← expect .colon rest
      let (e, rest) ← expression fuel 0 rest
      match eat? .comma rest with
      | some rest => do
        let (others, rest) ← entries fuel rest
        return ((key, e) :: others, rest)
      | none => do
        let rest ← expect .closeBrace rest
        return ([(key, e)], rest)

end

/-- A depth of nesting that no expression of so many lexemes reaches. -/
def sufficientFuel (ls : List Lexeme) : Nat :=
  3 * ls.length + 3

/-- The expression that the lexemes form. -/
def ofLexemes (ls : List Lexeme) : Except SyntaxError Expr :=
  match peek ls with
  | .eof => .error ⟨.empty, 0⟩
  | _ => do
    let (e, rest) ← expression (sufficientFuel ls) 0 ls
    match peek rest with
    | .eof => return e
    | _ => fault .trailingInput rest

/-- The expression that a scoped text spells. -/
def ofScopedText (source : String) : Except SyntaxError Expr := do
  ofLexemes (← lexemes source)

end Stencil.Expr
