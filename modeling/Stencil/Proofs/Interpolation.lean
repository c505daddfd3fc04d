import Stencil.Template.Interpolation

/-!
How interpolated text is split. The pieces of a text, written one after the other with the marks around
each expression, are the text again. Marks may overlap, so that a text can be written by many rows of
pieces: a row is the one that splitting finds exactly if its expressions end at the first closing mark,
its literals at the first opening mark, and no expression is left in its last literal.
-/
namespace Stencil

/-! ### The first occurrence of a mark -/

namespace Text

theorem before?_eq_none {mark cs : List Char} : before? mark cs = none ↔ ¬ mark <:+: cs := by
  induction cs with
  | nil =>
    by_cases empty : mark = []
    · simp [before?, empty]
    · simp [before?, empty]
  | cons c rest ih =>
    rw [List.infix_cons_iff]
    by_cases here : mark <+: c :: rest
    · simp [before?, here]
    · simp [before?, here, ih]

/-- Characters in which no pair of `c` begins, also if one more `c` comes after them. -/
structure Clear (c : Char) (cs : List Char) : Prop where
  inside : ¬ [c, c] <:+: cs
  atEnd : cs.getLast? ≠ some c

theorem clear_nil (c : Char) : Clear c [] := by
  refine ⟨?_, ?_⟩ <;> simp

theorem clear_cons {c d : Char} {rest : List Char} :
    Clear c (d :: rest) ↔ ¬ [c, c] <+: d :: (rest ++ [c]) ∧ Clear c rest := by
  constructor
  · rintro ⟨inside, atEnd⟩
    rw [List.infix_cons_iff, not_or] at inside
    cases rest with
    | nil =>
      refine ⟨?_, clear_nil c⟩
      simpa [eq_comm] using atEnd
    | cons e rest =>
      refine ⟨?_, inside.2, by simpa using atEnd⟩
      simpa using inside.1
  · rintro ⟨front, inside, atEnd⟩
    refine ⟨?_, ?_⟩
    · rw [List.infix_cons_iff, not_or]
      refine ⟨fun here => front ?_, inside⟩
      exact here.trans (List.prefix_append (d :: rest) [c])
    · cases rest with
      | nil => simpa [eq_comm] using front
      | cons e rest => simpa using atEnd

/-- A pair is found where the characters before it are clear. -/
theorem before?_pair {c : Char} {cs found : List Char} :
    before? [c, c] cs = some found ↔ (∃ rest, cs = found ++ c :: c :: rest) ∧ Clear c found := by
  induction cs generalizing found with
  | nil => simp [before?]
  | cons d rest ih =>
    by_cases here : [c, c] <+: d :: rest
    · -- A longer row of characters before the pair would not be clear.
      have first : before? [c, c] (d :: rest) = some [] := by simp [before?, here]
      rw [first, Option.some.injEq]
      constructor
      · rintro rfl
        obtain ⟨more, split⟩ := here
        exact ⟨⟨more, split.symm⟩, clear_nil c⟩
      · rintro ⟨⟨more, split⟩, clear⟩
        cases found with
        | nil => rfl
        | cons e found =>
          obtain ⟨rfl, rfl⟩ := List.cons.inj split
          refine absurd ?_ (clear_cons.mp clear).1
          cases found with
          | nil => simpa using here
          | cons e found => simpa using here
    · have later : before? [c, c] (d :: rest) = (before? [c, c] rest).map (d :: ·) := by simp [before?, here]
      rw [later, Option.map_eq_some_iff]
      constructor
      · rintro ⟨found, foundRest, rfl⟩
        obtain ⟨⟨more, rfl⟩, clear⟩ := ih.mp foundRest
        refine ⟨⟨more, rfl⟩, clear_cons.mpr ⟨fun front => here ?_, clear⟩⟩
        cases found with
        | nil => simpa using front
        | cons e found => simpa using front
      · rintro ⟨⟨more, split⟩, clear⟩
        cases found with
        | nil =>
          refine absurd ?_ here
          rw [split]
          exact ⟨more, rfl⟩
        | cons e found =>
          obtain ⟨rfl, rfl⟩ := List.cons.inj split
          exact ⟨found, ih.mpr ⟨⟨more, rfl⟩, (clear_cons.mp clear).2⟩, rfl⟩

/-- No occurrence of a mark stands before the one that is found. -/
theorem length_le_of_before? {mark cs found before after : List Char} (first : before? mark cs = some found)
    (split : cs = before ++ mark ++ after) : found.length ≤ before.length := by
  induction cs generalizing found before with
  | nil =>
    have shorter := length_add_le_of_before? first
    simp only [List.length_nil] at shorter
    omega
  | cons c rest ih =>
    by_cases here : mark <+: c :: rest
    · have empty : [] = found := by simpa [before?, here] using first
      simp [← empty]
    · have later : before? mark (c :: rest) = (before? mark rest).map (c :: ·) := by simp [before?, here]
      rw [later] at first
      obtain ⟨found, foundRest, rfl⟩ := Option.map_eq_some_iff.mp first
      cases before with
      | nil => exact absurd ⟨after, by simpa using split.symm⟩ here
      | cons d before =>
        have shorter := ih foundRest (List.cons.inj split).2
        simpa using shorter

end Text

namespace Template

open Text

/-! ### Rows of pieces -/

/-- A piece as it is written. -/
def Piece.written : Piece → List Char
  | .literal s => s
  | .expr e => openMark ++ e ++ closeMark

/-- The text that pieces are written as, one after the other. -/
def written (row : List Piece) : List Char :=
  row.flatMap Piece.written

/-- Pieces that leave no mark unread. -/
structure Regular (row : List Piece) : Prop where
  /-- An expression contains no closing mark. -/
  expr : ∀ e, .expr e ∈ row → ¬ closeMark <:+: e
  /-- A literal is not empty. -/
  literal : ∀ s, .literal s ∈ row → s ≠ []
  /-- No two literals are adjacent. -/
  apart : ∀ s t, ¬ [.literal s, .literal t] <:+: row
  /-- A literal that another piece follows contains no opening mark. -/
  followed : ∀ s p, [.literal s, p] <:+: row → ¬ openMark <:+: s
  /-- In a literal at the end no closing mark follows an opening one. -/
  last : ∀ s before after, row.getLast? = some (.literal s) → s = before ++ openMark ++ after →
    ¬ closeMark <:+: after

/-- Pieces whose marks are the leftmost ones. -/
structure Leftmost (row : List Piece) : Prop where
  /-- An expression does not end with half of a closing mark. -/
  expr : ∀ e, .expr e ∈ row → e.getLast? ≠ some '\x7d'
  /-- A literal before an expression does not end with half of an opening mark. -/
  literal : ∀ s e, [.literal s, .expr e] <:+: row → s.getLast? ≠ some '\x7b'

/-- Characters in which no closing mark follows an opening one. -/
def Unclosed (s : List Char) : Prop :=
  ∀ before after, s = before ++ openMark ++ after → ¬ closeMark <:+: after

/-- The rows that splitting finds, along their pieces. -/
inductive Split : List Piece → Prop where
  | nil : Split []
  | last {s : List Char} (filled : s ≠ []) (unclosed : Unclosed s) : Split [.literal s]
  | expr {e : List Char} {rest : List Piece} (closed : Clear '\x7d' e) (more : Split rest) :
      Split (.expr e :: rest)
  | literal {s e : List Char} {rest : List Piece} (filled : s ≠ []) (opened : Clear '\x7b' s)
      (closed : Clear '\x7d' e) (more : Split rest) : Split (.literal s :: .expr e :: rest)

theorem Regular.tail {p : Piece} {rest : List Piece} (regular : Regular (p :: rest)) : Regular rest := by
  have inside : rest <:+: p :: rest := (List.suffix_cons p rest).isInfix
  refine ⟨?_, ?_, ?_, ?_, ?_⟩
  · exact fun e member => regular.expr e (List.mem_cons_of_mem p member)
  · exact fun s member => regular.literal s (List.mem_cons_of_mem p member)
  · exact fun s t adjacent => regular.apart s t (adjacent.trans inside)
  · exact fun s q adjacent => regular.followed s q (adjacent.trans inside)
  · intro s before after final
    apply regular.last
    cases rest with
    | nil => simp at final
    | cons q rest => simpa using final

theorem Leftmost.tail {p : Piece} {rest : List Piece} (leftmost : Leftmost (p :: rest)) : Leftmost rest :=
  ⟨fun e member => leftmost.expr e (List.mem_cons_of_mem p member),
    fun s e adjacent => leftmost.literal s e (adjacent.trans (List.suffix_cons p rest).isInfix)⟩

/-- An expression of such a row ends at the first closing mark. -/
theorem Regular.clear {e : List Char} {row : List Piece} (regular : Regular row) (leftmost : Leftmost row)
    (member : .expr e ∈ row) : Clear '\x7d' e :=
  ⟨regular.expr e member, leftmost.expr e member⟩

theorem split_of_regular : ∀ {row : List Piece}, Regular row → Leftmost row → Split row
  | [], _, _ => .nil
  | .expr _ :: _, regular, leftmost =>
    .expr (regular.clear leftmost List.mem_cons_self) (split_of_regular regular.tail leftmost.tail)
  | [.literal s], regular, _ =>
    .last (regular.literal s List.mem_cons_self) fun before after => regular.last s before after rfl
  | .literal s :: .literal t :: rest, regular, _ =>
    absurd (List.prefix_append [.literal s, .literal t] rest).isInfix (regular.apart s t)
  | .literal s :: .expr e :: rest, regular, leftmost => by
    have adjacent : [.literal s, .expr e] <:+: .literal s :: .expr e :: rest :=
      (List.prefix_append [.literal s, .expr e] rest).isInfix
    refine .literal (regular.literal s List.mem_cons_self)
      ⟨regular.followed s _ adjacent, leftmost.literal s e adjacent⟩ ?_
      (split_of_regular regular.tail.tail leftmost.tail.tail)
    exact regular.tail.clear leftmost.tail List.mem_cons_self

theorem Regular.expr_cons {e : List Char} {rest : List Piece} (closed : ¬ closeMark <:+: e) (regular : Regular rest) :
    Regular (.expr e :: rest) := by
  refine ⟨?_, ?_, ?_, ?_, ?_⟩
  · intro e' member
    rcases List.mem_cons.mp member with same | member
    · cases same
      exact closed
    · exact regular.expr e' member
  · simpa using regular.literal
  · simpa [List.infix_cons_iff] using regular.apart
  · simpa [List.infix_cons_iff] using regular.followed
  · intro s before after final
    apply regular.last
    cases rest with
    | nil => simp at final
    | cons q rest => simpa using final

theorem Regular.literal_cons {s e : List Char} {rest : List Piece} (filled : s ≠ []) (opened : ¬ openMark <:+: s)
    (regular : Regular (.expr e :: rest)) : Regular (.literal s :: .expr e :: rest) := by
  refine ⟨?_, ?_, ?_, ?_, ?_⟩
  · simpa using regular.expr
  · intro s' member
    rcases List.mem_cons.mp member with same | member
    · cases same
      exact filled
    · exact regular.literal s' member
  · intro s' t adjacent
    rcases List.infix_cons_iff.mp adjacent with front | inside
    · simp at front
    · exact regular.apart s' t inside
  · intro s' p adjacent
    rcases List.infix_cons_iff.mp adjacent with front | inside
    · simp only [List.cons_prefix_cons, Piece.literal.injEq] at front
      rw [front.1]
      exact opened
    · exact regular.followed s' p inside
  · intro s' before after final
    exact regular.last s' before after (by simpa using final)

theorem Leftmost.expr_cons {e : List Char} {rest : List Piece} (closed : e.getLast? ≠ some '\x7d')
    (leftmost : Leftmost rest) : Leftmost (.expr e :: rest) := by
  refine ⟨?_, ?_⟩
  · intro e' member
    rcases List.mem_cons.mp member with same | member
    · cases same
      exact closed
    · exact leftmost.expr e' member
  · simpa [List.infix_cons_iff] using leftmost.literal

theorem Leftmost.literal_cons {s e : List Char} {rest : List Piece} (opened : s.getLast? ≠ some '\x7b')
    (leftmost : Leftmost (.expr e :: rest)) : Leftmost (.literal s :: .expr e :: rest) := by
  refine ⟨?_, ?_⟩
  · simpa using leftmost.expr
  · intro s' e' adjacent
    rcases List.infix_cons_iff.mp adjacent with front | inside
    · simp only [List.cons_prefix_cons, Piece.literal.injEq] at front
      rw [front.1]
      exact opened
    · exact leftmost.literal s' e' inside

theorem Split.regular {row : List Piece} (split : Split row) : Regular row ∧ Leftmost row := by
  induction split with
  | nil => exact ⟨⟨by simp, by simp, by simp, by simp, by simp⟩, ⟨by simp, by simp⟩⟩
  | last filled unclosed =>
    refine ⟨⟨by simp, by simpa using filled, by simp [List.infix_cons_iff], by simp [List.infix_cons_iff], ?_⟩,
      ⟨by simp, by simp [List.infix_cons_iff]⟩⟩
    intro s before after final
    cases final
    exact unclosed before after
  | expr closed more ih => exact ⟨ih.1.expr_cons closed.inside, ih.2.expr_cons closed.atEnd⟩
  | literal filled opened closed more ih =>
    exact ⟨(ih.1.expr_cons closed.inside).literal_cons filled opened.inside,
      (ih.2.expr_cons closed.atEnd).literal_cons opened.atEnd⟩

/-! ### Splitting -/

/-- A text has no expression, or its first one stands between the leftmost marks. -/
theorem split_cases (cs : List Char) : Unclosed cs ∨ ∃ s e rest, Clear '\x7b' s ∧ Clear '\x7d' e ∧
    cs = s ++ openMark ++ (e ++ closeMark ++ rest) := by
  cases foundOpen : before? openMark cs with
  | none =>
    refine .inl fun before after split => absurd ?_ (before?_eq_none.mp foundOpen)
    exact ⟨before, after, split.symm⟩
  | some s =>
    obtain ⟨⟨inside, rfl⟩, opened⟩ := before?_pair.mp foundOpen
    cases foundClose : before? closeMark inside with
    | none =>
      -- Every opening mark stands after the first one, and so does all that follows it.
      refine .inl fun before after split closes => before?_eq_none.mp foundClose ?_
      have later := length_le_of_before? foundOpen split
      have behind : inside.drop (before.length - s.length) = after := by
        have total : before.length + 2 = s.length + 2 + (before.length - s.length) := by omega
        calc
          inside.drop (before.length - s.length)
              = (s ++ '\x7b' :: '\x7b' :: inside).drop (s.length + 2 + (before.length - s.length)) := by
            rw [← List.drop_drop]
            simp
          _ = (before ++ openMark ++ after).drop (before.length + 2) := by rw [split, total]
          _ = after := by simp [openMark]
      rw [← behind] at closes
      exact closes.trans (List.drop_suffix _ inside).isInfix
    | some e =>
      obtain ⟨⟨rest, rfl⟩, closed⟩ := before?_pair.mp foundClose
      exact .inr ⟨s, e, rest, opened, closed, by simp [openMark, closeMark]⟩

theorem pieces_of_unclosed {cs : List Char} (unclosed : Unclosed cs) : pieces cs = literalPiece cs := by
  rw [pieces]
  split
  · rfl
  next s foundOpen =>
    obtain ⟨⟨inside, rfl⟩, -⟩ := before?_pair.mp foundOpen
    have none : before? closeMark inside = none := before?_eq_none.mpr (unclosed s inside (by simp [openMark]))
    simp [none]

theorem pieces_of_clear {s e : List Char} (opened : Clear '\x7b' s) (closed : Clear '\x7d' e) (rest : List Char) :
    pieces (s ++ openMark ++ (e ++ closeMark ++ rest)) = literalPiece s ++ .expr e :: pieces rest := by
  have foundOpen : before? openMark (s ++ openMark ++ (e ++ closeMark ++ rest)) = some s :=
    before?_pair.mpr ⟨⟨e ++ closeMark ++ rest, by simp [openMark]⟩, opened⟩
  have foundClose : before? closeMark (e ++ closeMark ++ rest) = some e :=
    before?_pair.mpr ⟨⟨rest, by simp [closeMark]⟩, closed⟩
  have afterOpen : (s ++ openMark ++ (e ++ closeMark ++ rest)).drop (s.length + 2) = e ++ closeMark ++ rest := by
    simp [openMark]
  have afterClose : (s ++ openMark ++ (e ++ closeMark ++ rest)).drop (s.length + 2 + e.length + 2) = rest := by
    rw [Nat.add_assoc, ← List.drop_drop, afterOpen]
    simp [closeMark]
  rw [pieces]
  split
  next absent =>
    rw [foundOpen] at absent
    cases absent
  next s' found =>
    rw [foundOpen] at found
    cases found
    simp only [afterOpen, foundClose, afterClose]

theorem written_literalPiece (s : List Char) : written (literalPiece s) = s := by
  by_cases empty : s = []
  · simp [literalPiece, empty, written]
  · simp [literalPiece, empty, written, Piece.written]

theorem Split.prepend {s e : List Char} {row : List Piece} (opened : Clear '\x7b' s) (closed : Clear '\x7d' e)
    (split : Split row) : Split (literalPiece s ++ .expr e :: row) := by
  by_cases empty : s = []
  · simpa [literalPiece, empty] using Split.expr closed split
  · simpa [literalPiece, empty] using Split.literal empty opened closed split

theorem pieces_split (cs : List Char) : Split (pieces cs) ∧ written (pieces cs) = cs := by
  induction bound : cs.length using Nat.strongRecOn generalizing cs with
  | ind n ih =>
    rcases split_cases cs with unclosed | ⟨s, e, rest, opened, closed, rfl⟩
    · rw [pieces_of_unclosed unclosed]
      refine ⟨?_, written_literalPiece cs⟩
      by_cases empty : cs = []
      · simpa [literalPiece, empty] using Split.nil
      · simpa [literalPiece, empty] using Split.last empty unclosed
    · have shorter : rest.length < n := by
        rw [← bound]
        simp only [openMark, List.length_append, List.length_cons]
        omega
      obtain ⟨split, same⟩ := ih rest.length shorter rest rfl
      rw [pieces_of_clear opened closed]
      refine ⟨split.prepend opened closed, ?_⟩
      have front := written_literalPiece s
      rw [written] at same front
      simp [written, Piece.written, same, front]

/-- Such a row is found again in what it is written as. -/
theorem Split.pieces_written {row : List Piece} (split : Split row) : pieces (written row) = row := by
  induction split with
  | nil => exact pieces_of_unclosed (by simp [Unclosed, openMark, written])
  | @last s filled unclosed =>
    have same : written [.literal s] = s := by simp [written, Piece.written]
    rw [same, pieces_of_unclosed unclosed, literalPiece, if_neg filled]
  | @expr e rest closed more ih =>
    have first := pieces_of_clear (clear_nil _) closed (written rest)
    rw [ih] at first
    simpa [written, Piece.written, literalPiece] using first
  | @literal s e rest filled opened closed more ih =>
    have first := pieces_of_clear opened closed (written rest)
    rw [ih] at first
    simpa [written, Piece.written, literalPiece, filled] using first

/-- Splitting is lossless and canonical: of all rows of pieces, the one that is found is written as the
    text, leaves no mark unread and has its marks leftmost, and no other row does. -/
theorem pieces_eq_iff (cs : List Char) (row : List Piece) :
    row = pieces cs ↔ written row = cs ∧ Regular row ∧ Leftmost row := by
  constructor
  · rintro rfl
    obtain ⟨split, same⟩ := pieces_split cs
    exact ⟨same, split.regular⟩
  · rintro ⟨rfl, regular, leftmost⟩
    exact (split_of_regular regular leftmost).pieces_written.symm

end Template

end Stencil
