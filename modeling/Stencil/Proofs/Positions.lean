import Mathlib.Data.Prod.Lex
import Mathlib.Order.Bounds.Defs
import Stencil.Text.Position

/-!
Lines and columns of a source text. The position of an offset is that of the last boundary between characters up
to it (`takeBytes_isGreatest`). Its line counts the newlines before that boundary and its column the characters
since the last of them (`Position.Marks`), and every further character leads to a later position
(`Position.advance_later`), so that positions are ordered as the boundaries are.
-/
namespace Stencil.Text

/-! ### Boundaries -/

/-- An offset that cuts no character: it lies between two characters or at an end of the text. -/
def Boundary (source : String) (offset : Nat) : Prop :=
  String.Pos.Raw.IsValid source ⟨offset⟩

theorem utf8ByteSize_ofList (cs : List Char) : (String.ofList cs).utf8ByteSize = byteLength cs := by
  induction cs with
  | nil => rfl
  | cons c cs ih =>
    rw [String.ofList_cons, String.utf8ByteSize_append, String.utf8ByteSize_singleton, ih, byteLength_cons]

theorem byteLength_toList (s : String) : byteLength s.toList = s.utf8ByteSize := by
  rw [← utf8ByteSize_ofList, String.ofList_toList]

theorem boundary_iff {source : String} {offset : Nat} :
    Boundary source offset ↔ ∃ before after, source.toList = before ++ after ∧ byteLength before = offset := by
  rw [Boundary, String.Pos.Raw.isValid_iff_exists_append]
  constructor
  · rintro ⟨s, t, rfl, ended⟩
    refine ⟨s.toList, t.toList, String.toList_append, ?_⟩
    rw [byteLength_toList]
    exact (congrArg String.Pos.Raw.byteIdx ended).symm
  · rintro ⟨before, after, cut, rfl⟩
    refine ⟨.ofList before, .ofList after, ?_, ?_⟩
    · rw [← String.ofList_append, ← cut, String.ofList_toList]
    · rw [String.rawEndPos, utf8ByteSize_ofList]

section taken

variable {n : Nat} {cs before after : List Char}

theorem takeBytes_prefix (n : Nat) (cs : List Char) : takeBytes n cs <+: cs := by
  fun_induction takeBytes n cs with
  | case1 => exact List.prefix_refl []
  | case2 n c rest fits ih => exact List.cons_prefix_cons.mpr ⟨rfl, ih⟩
  | case3 => exact List.nil_prefix

theorem byteLength_takeBytes_le (n : Nat) (cs : List Char) : byteLength (takeBytes n cs) ≤ n := by
  fun_induction takeBytes n cs with
  | case1 => exact Nat.zero_le _
  | case2 n c rest fits ih =>
    rw [byteLength_cons]
    omega
  | case3 => exact Nat.zero_le _

theorem byteLength_le_takeBytes (fits : byteLength before ≤ n) :
    byteLength before ≤ byteLength (takeBytes n (before ++ after)) := by
  induction before generalizing n with
  | nil => exact Nat.zero_le _
  | cons c before ih =>
    rw [byteLength_cons] at fits
    rw [List.cons_append, takeBytes, if_pos (by omega), byteLength_cons, byteLength_cons]
    exact Nat.add_le_add_left (ih (by omega)) _

end taken

/-- The characters taken up to an offset end at the last boundary that is not past it. -/
theorem takeBytes_isGreatest (source : String) (offset : Nat) :
    IsGreatest {b | Boundary source b ∧ b ≤ min offset source.utf8ByteSize}
      (byteLength (takeBytes offset source.toList)) := by
  have below := byteLength_takeBytes_le offset source.toList
  constructor
  · obtain ⟨after, cut⟩ := takeBytes_prefix offset source.toList
    have whole := congrArg byteLength cut
    rw [byteLength_append, byteLength_toList] at whole
    exact ⟨boundary_iff.mpr ⟨_, after, cut.symm, rfl⟩, by omega⟩
  · rintro b ⟨boundary, fits⟩
    obtain ⟨before, after, cut, rfl⟩ := boundary_iff.mp boundary
    rw [cut]
    exact byteLength_le_takeBytes (by omega)

/-! ### Lines and columns -/

/-- The characters that a text has before the start of a line. -/
def StartsLine (lines : List Char) : Prop :=
  lines = [] ∨ lines.getLast? = some '\n'

/-- The characters before a position: its line is one more than the newlines among them, and they end as many
    characters after the start of that line as its column says. -/
structure Position.Marks (p : Position) (before : List Char) : Prop where
  line : p.line = before.count '\n' + 1
  column : ∃ lines current, before = lines ++ current ∧ StartsLine lines ∧ '\n' ∉ current ∧
    current.length = p.column - 1 ∧ 1 ≤ p.column

theorem Position.start_marks : start.Marks [] :=
  ⟨rfl, [], [], rfl, .inl rfl, List.not_mem_nil, rfl, Nat.le_refl _⟩

/-- One more character leads to the next line or to the next column. -/
theorem Position.Marks.advance {p : Position} {before : List Char} (marks : p.Marks before) (c : Char) :
    (p.advance c).Marks (before ++ [c]) := by
  by_cases newline : c = '\n'
  · subst newline
    rw [Position.advance, if_pos rfl]
    constructor
    · simp [marks.line]
    · exact ⟨before ++ ['\n'], [], by simp, .inr (by simp), List.not_mem_nil, rfl, Nat.le_refl _⟩
  · obtain ⟨lines, current, rfl, start, inside, width, least⟩ := marks.column
    rw [Position.advance, if_neg newline]
    constructor
    · simp [marks.line, newline]
    · refine ⟨lines, current ++ [c], by simp, start, ?_, ?_, Nat.succ_pos _⟩
      · simp [inside, Ne.symm newline]
      · rw [List.length_append, List.length_singleton]
        show current.length + 1 = p.column
        omega

theorem Position.Marks.foldl {p : Position} {before : List Char} (marks : p.Marks before) (cs : List Char) :
    (cs.foldl Position.advance p).Marks (before ++ cs) := by
  induction cs generalizing p before with
  | nil => simpa using marks
  | cons c cs ih => simpa using ih (marks.advance c)

/-! ### The order of positions -/

/-- Positions are compared by line and within a line by column. -/
def Position.key (p : Position) : Nat ×ₗ Nat :=
  toLex (p.line, p.column)

theorem Position.advance_later (p : Position) (c : Char) : p.key < (p.advance c).key := by
  rw [Position.advance, Position.key, Position.key, Prod.Lex.toLex_lt_toLex]
  by_cases newline : c = '\n'
  · simp [newline]
  · simp [newline]

theorem Position.foldl_later (p : Position) (cs : List Char) : p.key ≤ (cs.foldl Position.advance p).key := by
  induction cs generalizing p with
  | nil => exact le_refl _
  | cons c cs ih => exact (p.advance_later c).le.trans (ih (p.advance c))

theorem positionAt_byteLength {source : String} {before after : List Char} (cut : source.toList = before ++ after) :
    positionAt source (byteLength before) = before.foldl Position.advance .start := by
  rw [positionAt, cut, takeBytes_append]

theorem positionAt_strictMonoOn (source : String) :
    StrictMonoOn (fun b => (positionAt source b).key) {b | Boundary source b} := by
  intro b first b' second less
  obtain ⟨before, after, cut, rfl⟩ := boundary_iff.mp first
  obtain ⟨before', after', cut', rfl⟩ := boundary_iff.mp second
  -- of two boundaries the later one has all characters before the earlier one and at least one more
  obtain ⟨c, more, rfl⟩ : ∃ c more, before' = before ++ c :: more := by
    rcases List.append_eq_append_iff.mp (cut.symm.trans cut') with ⟨more, rfl, -⟩ | ⟨more, rfl, -⟩
    · cases more with
      | nil => simp at less
      | cons c more => exact ⟨c, more, rfl⟩
    · rw [byteLength_append] at less
      omega
  show (positionAt source _).key < (positionAt source _).key
  rw [positionAt_byteLength cut, positionAt_byteLength cut', List.foldl_append, List.foldl_cons]
  exact lt_of_lt_of_le (Position.advance_later _ c) (Position.foldl_later _ more)

/-- The position of an offset is the line and the column of the last boundary that is not past it, and different
    boundaries have different positions, in the same order. -/
theorem positionAt_faithful (source : String) :
    (∀ offset, ∃ before after, source.toList = before ++ after ∧
      IsGreatest {b | Boundary source b ∧ b ≤ min offset source.utf8ByteSize} (byteLength before) ∧
      (positionAt source offset).Marks before) ∧
    StrictMonoOn (fun b => (positionAt source b).key) {b | Boundary source b} ∧
    Set.InjOn (positionAt source) {b | Boundary source b} := by
  refine ⟨fun offset => ?_, positionAt_strictMonoOn source, fun b first b' second same => ?_⟩
  · obtain ⟨after, cut⟩ := takeBytes_prefix offset source.toList
    exact ⟨_, after, cut.symm, takeBytes_isGreatest source offset, Position.start_marks.foldl _⟩
  · exact (positionAt_strictMonoOn source).injOn first second (congrArg Position.key same)

end Stencil.Text
