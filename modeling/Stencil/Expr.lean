import Stencil.Value

/-!
The expression language: its trees and its operators.
-/
namespace Stencil

/-- An operator before one operand. -/
inductive UnaryOp where
  | not
  | neg
  | plus
  | kind
  deriving Repr, DecidableEq

/-- The operator as written. -/
def UnaryOp.symbol : UnaryOp → String
  | not => "!"
  | neg => "-"
  | plus => "+"
  | kind => "typeof"

/-- An operator between two operands. -/
inductive BinaryOp where
  | mul
  | div
  | rem
  | add
  | sub
  | lt
  | le
  | gt
  | ge
  | looseEq
  | looseNe
  | strictEq
  | strictNe
  | and
  | or
  deriving Repr, DecidableEq

/-- The operator as written. -/
def BinaryOp.symbol : BinaryOp → String
  | mul => "*"
  | div => "/"
  | rem => "%"
  | add => "+"
  | sub => "-"
  | lt => "<"
  | le => "<="
  | gt => ">"
  | ge => ">="
  | looseEq => "=="
  | looseNe => "!="
  | strictEq => "==="
  | strictNe => "!=="
  | and => "&&"
  | or => "||"

/-- An expression. A field is read from the data context; the entries of an object stand as written,
    repeated keys included. -/
inductive Expr where
  | literal (value : Value)
  | field (name : String)
  | member (target : Expr) (name : String)
  | index (target key : Expr)
  | unary (op : UnaryOp) (operand : Expr)
  | binary (op : BinaryOp) (left right : Expr)
  | conditional (test yes no : Expr)
  | array (items : List Expr)
  | object (entries : List (String × Expr))
  deriving Inhabited

end Stencil
