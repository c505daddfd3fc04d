import Stencil.Expr.Eval
import Stencil.Expr.Parser

/-!
An expression together with the scoped text that it was read from.
-/
namespace Stencil

/-- An expression and its scoped text. -/
structure Expression where
  source : String
  root : Expr
  deriving Inhabited

namespace Expression

/-- The expression that a scoped text spells. -/
def ofScopedText (source : String) : Except Expr.SyntaxError Expression :=
  (Expr.ofScopedText source).map fun root => ⟨source, root⟩

/-- The expression that a text spells once its bare words are scoped. -/
def ofText (source : String) : Except Expr.SyntaxError Expression :=
  ofScopedText (Expr.scopedText source)

/-- The value of the expression in a data context. -/
def eval (data : Fields Value) (e : Expression) : Except Expr.EvalError Value :=
  e.root.eval data

end Expression

end Stencil
