/-!
Positions in a source text. An offset counts bytes of the UTF-8 form; a position counts lines and
characters from one.
-/
namespace Stencil.Text

/-- The number of bytes that the characters take. -/
def byteLength (cs : List Char) : Nat :=
  cs.foldr (fun c bytes => c.utf8Size + bytes) 0

/-- The longest run of leading characters that takes at most `n` bytes. -/
def takeBytes (n : Nat) : List Char → List Char
  | [] => []
  | c :: rest => if c.utf8Size ≤ n then c :: takeBytes (n - c.utf8Size) rest else []

theorem byteLength_cons (c : Char) (cs : List Char) : byteLength (c :: cs) = c.utf8Size + byteLength cs :=
  rfl

theorem byteLength_append {before rest : List Char} :
    byteLength (before ++ rest) = byteLength before + byteLength rest := by
  induction before with
  | nil => exact (Nat.zero_add _).symm
  | cons c before ih => rw [List.cons_append, byteLength_cons, ih, byteLength_cons, Nat.add_assoc]

theorem takeBytes_append {before rest : List Char} : takeBytes (byteLength before) (before ++ rest) = before := by
  induction before with
  | nil =>
    cases rest with
    | nil => rfl
    | cons c rest =>
      rw [List.nil_append, takeBytes, if_neg]
      exact Nat.not_le_of_gt c.utf8Size_pos
  | cons c before ih =>
    rw [List.cons_append, takeBytes, byteLength_cons, if_pos (Nat.le_add_right _ _), Nat.add_sub_cancel_left, ih]

/-- A line and a column, both counted from one. -/
structure Position where
  line : Nat
  column : Nat
  deriving Repr, DecidableEq

/-- The position at the start of a text. -/
def Position.start : Position := ⟨1, 1⟩

/-- The position after one more character. -/
def Position.advance (p : Position) (c : Char) : Position :=
  if c = '\n' then ⟨p.line + 1, 1⟩ else ⟨p.line, p.column + 1⟩

/-- The position of a byte offset. An offset inside a character stands for the start of that
    character, and one past the end for the end. -/
def positionAt (source : String) (offset : Nat) : Position :=
  (takeBytes offset source.toList).foldl Position.advance .start

end Stencil.Text
