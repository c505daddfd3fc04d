import Stencil.Text.Search

/-!
Text with expressions between double braces.
-/
namespace Stencil.Template

/-- A part of an interpolated text. -/
inductive Piece where
  | literal (s : List Char)
  | expr (s : List Char)
  deriving Repr, DecidableEq

/-- The mark before an expression. -/
def openMark : List Char := ['\x7b', '\x7b']

/-- The mark after an expression. -/
def closeMark : List Char := ['\x7d', '\x7d']

/-- A literal part, which is left out if it is empty. -/
def literalPiece (cs : List Char) : List Piece :=
  if cs = [] then [] else [.literal cs]

/-- The parts of an interpolated text. An opening mark that is not followed by a closing one is
    literal. -/
def pieces (cs : List Char) : List Piece :=
  match _found : Text.before? openMark cs with
  | none => literalPiece cs
  | some literal =>
    match Text.before? closeMark (cs.drop (literal.length + 2)) with
    | none => literalPiece cs
    | some expr =>
      literalPiece literal ++ .expr expr :: pieces (cs.drop (literal.length + 2 + expr.length + 2))
termination_by cs.length
decreasing_by
  have marked := Text.length_add_le_of_before? _found
  simp only [openMark, List.length_cons, List.length_nil] at marked
  simp only [List.length_drop]
  omega

end Stencil.Template
