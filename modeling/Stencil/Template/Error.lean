import Stencil.Expr.Token
import Stencil.Markup.Error

/-!
Why a template cannot be registered or compiled.
-/
namespace Stencil.Template

/-- What is wrong with the directives of a template. -/
inductive StructureFault where
  | severalBranches
  | loopWithBranch
  | loopWithoutName
  | unchained
  | textInChain
  | includesItself (template : String)
  deriving Repr, DecidableEq

/-- The fault in words. -/
def StructureFault.message : StructureFault → String
  | severalBranches => "only one conditional branching directive is allowed per node"
  | loopWithBranch => "t-foreach cannot share a node with t-if, t-elif or t-else"
  | loopWithoutName => "t-foreach requires a t-as name"
  | unchained => "t-elif and t-else directives must be preceded by a t-if or t-elif directive"
  | textInChain => "text is not allowed between branching directives"
  | includesItself template => "template `" ++ template ++ "` includes itself"

/-- Why a template cannot be registered or compiled. -/
inductive CompileError where
  | emptyMarkup (template : String)
  | malformedMarkup (template : String) (error : Markup.SourceError)
  | structure (fault : StructureFault)
  | unresolvedInclusion (template : String)
  | unknownNodeKind (kind : String)
  | invalidExpression (expr : String) (error : Expr.SyntaxError)
  | templateNotFound (template : String)
  /-- Captured content contains itself. -/
  | endlessContent
  deriving Repr, DecidableEq

/-- The error in words. -/
def CompileError.message : CompileError → String
  | emptyMarkup template =>
    "invalid template `" ++ template ++ "`: template should not be empty"
  | malformedMarkup template error => "invalid template `" ++ template ++ "`: " ++ error.message
  | .structure fault => "invalid directive structure: " ++ fault.message
  | unresolvedInclusion template =>
    "t-call target `" ++ template ++ "` is not a registered template"
  | unknownNodeKind kind => "cannot materialize " ++ kind ++ " node"
  | invalidExpression expr error => "invalid expression `" ++ expr ++ "`: " ++ error.message
  | templateNotFound template => "template `" ++ template ++ "` not found"
  | endlessContent => "captured content contains itself"

end Stencil.Template
