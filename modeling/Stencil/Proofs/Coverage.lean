import Mathlib.Logic.Relation
import Stencil.Proofs.Positions
import Stencil.Proofs.Scoping

/-!
How lexemes lie in their text. Every lexeme starts and stops at a boundary between characters, the lexemes follow
one another up to the end of the text, and what none of them takes is white space (`Covers`). The characters of a
lexeme spell its token whatever follows them (`Spells.alone`), so that they are read as that token by themselves.
Every step of the scan leads from a boundary to a boundary (`Scan.Next.stands`), also inside quoted texts and on the
way to a fault, which is reported at a boundary as well (`Scan.Refuses.boundary`).
-/
namespace Stencil.Expr

open Stateful
open Text (Boundary boundary_iff)

/-- The offset at which a lexeme ends. -/
def Lexeme.stop (source : String) (l : Lexeme) : Nat :=
  l.offset + Text.byteLength (l.spelling source)

/-- The lexeme takes the byte at an offset. -/
def Lexeme.Takes (source : String) (l : Lexeme) (byte : Nat) : Prop :=
  l.offset ≤ byte ∧ byte < l.stop source

/-- A white-space character between lexemes: `before` stands before it, and no lexeme reaches into it. -/
structure Gap (source : String) (ls : List Lexeme) (before : List Char) (c : Char) : Prop where
  stands : ∃ after, source.toList = before ++ c :: after
  blank : Text.isBlank c = true
  apart : ∀ l ∈ ls, l.stop source ≤ Text.byteLength before ∨ Text.byteLength before + c.utf8Size ≤ l.offset

/-- Lexemes that cover a text: the end of the text is the last one and no other, they start and stop at boundaries,
    one after the other, the bytes that they leave out are those of the white space between them, and each is read
    from its own characters. -/
structure Covers (source : String) (ls : List Lexeme) : Prop where
  ends : ∃ others, ls = others ++ [⟨.eof, source.utf8ByteSize, 0⟩] ∧ ∀ l ∈ others, l.token ≠ .eof
  cuts : ∀ l ∈ ls, Boundary source l.offset ∧ Boundary source (l.stop source)
  ordered : ls.Pairwise fun l m => l.offset < m.offset ∧ l.stop source ≤ m.offset
  gaps : ∀ byte < source.utf8ByteSize, (¬ ∃ l ∈ ls, l.Takes source byte) ↔
    ∃ before c, Gap source ls before c ∧ Text.byteLength before ≤ byte ∧ byte < Text.byteLength before + c.utf8Size
  reread : ∀ l ∈ ls, l.token ≠ .eof → lexemes (String.ofList (l.spelling source)) =
    .ok [⟨l.token, 0, l.width⟩, ⟨.eof, l.stop source - l.offset, 0⟩]

/-! ### A token by itself -/

theorem decimalRun_alone {c : Char} {tail rest : List Char} (run : decimalRun c (tail ++ rest) = tail.length) :
    decimalRun c tail = tail.length := by
  induction tail generalizing c with
  | nil => rfl
  | cons d tail ih =>
    rw [List.cons_append, decimalRun] at run
    rw [decimalRun]
    split at run
    · next goes => rw [if_pos goes, ih (Nat.succ.inj run), List.length_cons]
    · cases run

/-- What spells a token spells it at the end of a text as well. -/
theorem Spells.alone {t : Token} {spelling : List Char} {next : Option Char} (spells : Spells t spelling next) :
    Spells t spelling none := by
  cases spells with
  | word start inside stop => exact .word start inside (by simp)
  | text opens quoted => exact .text opens quoted
  | decimal start run stop read => exact .decimal start (by simpa using decimalRun_alone run) (by simp) read
  | hex marked inside stop read => exact .hex marked inside (by simp) read
  | @punct p _ stop => exact .punct (by cases p <;> simp [Punct.Stops])

theorem Spells.lexemes {t : Token} {spelling : List Char} {next : Option Char} (spells : Spells t spelling next) :
    lexemes (String.ofList spelling) = .ok [⟨t, 0, spelling.length⟩, ⟨.eof, Text.byteLength spelling, 0⟩] := by
  have cut : Cut 0 (spelling ++ []) _ := .token spells.alone .done
  rw [List.append_nil, Nat.zero_add] at cut
  rw [Expr.lexemes, String.toList_ofList]
  exact cut.lexemesFrom

theorem Spells.byteLength_pos {spelling : List Char} {next : Option Char} {t : Token}
    (spells : Spells t spelling next) : 0 < Text.byteLength spelling := by
  obtain ⟨c, tail, rfl⟩ := spells.exists_cons
  rw [Text.byteLength_cons]
  exact Nat.add_pos_left c.utf8Size_pos _

/-! ### Lexemes in their text -/

theorem StandsAt.boundary {source : String} {offset : Nat} {cs : List Char} (stands : StandsAt source offset cs) :
    Boundary source offset := by
  obtain ⟨before, cut, rfl⟩ := stands
  exact boundary_iff.mpr ⟨before, cs, cut, rfl⟩

theorem StandsAt.stop {source : String} {offset : Nat} {t : Token} {spelling rest : List Char}
    (stands : StandsAt source offset (spelling ++ rest)) :
    Lexeme.stop source ⟨t, offset, spelling.length⟩ = offset + Text.byteLength spelling := by
  rw [Lexeme.stop, stands.spelled]

section cuts

variable {source : String} {offset : Nat} {cs : List Char} {ls : List Lexeme}

theorem Cut.ends (cut : Cut offset cs ls) :
    ∃ others, ls = others ++ [⟨.eof, offset + Text.byteLength cs, 0⟩] ∧ ∀ l ∈ others, l.token ≠ .eof := by
  induction cut with
  | done => exact ⟨[], rfl, by simp⟩
  | blank _ _ ih =>
    obtain ⟨others, rfl, plain⟩ := ih
    exact ⟨others, by rw [Text.byteLength_cons, Nat.add_assoc], plain⟩
  | @token offset t spelling rest ls spells _ ih =>
    obtain ⟨others, rfl, plain⟩ := ih
    refine ⟨⟨t, offset, spelling.length⟩ :: others, ?_, List.forall_mem_cons.mpr ⟨spells.ne_eof, plain⟩⟩
    rw [Text.byteLength_append, Nat.add_assoc, List.cons_append]

/-- Every lexeme stands in the text where it was cut off, and its characters spell its token there. -/
theorem Cut.stands (cut : Cut offset cs ls) (stands : StandsAt source offset cs) :
    ∀ l ∈ ls, ∃ rest, offset ≤ l.offset ∧ StandsAt source l.offset (l.spelling source ++ rest) ∧
      (l.token ≠ .eof → Spells l.token (l.spelling source) rest.head? ∧ l.width = (l.spelling source).length) := by
  induction cut with
  | @done offset =>
    intro l member
    obtain rfl := List.mem_singleton.mp member
    have empty : Lexeme.spelling source ⟨.eof, offset, 0⟩ = [] := List.take_zero
    exact ⟨[], Nat.le_refl _, by rw [empty]; exact stands, fun other => absurd rfl other⟩
  | blank _ _ ih =>
    intro l member
    obtain ⟨rest, later, found⟩ := ih stands.next l member
    exact ⟨rest, by omega, found⟩
  | @token offset t spelling rest ls spells _ ih =>
    intro l member
    rcases List.mem_cons.mp member with rfl | member
    · have spelled : Lexeme.spelling source ⟨t, offset, spelling.length⟩ = spelling := stands.spelled
      exact ⟨rest, Nat.le_refl _, by rw [spelled]; exact stands, fun _ => by rw [spelled]; exact ⟨spells, rfl⟩⟩
    · obtain ⟨rest, later, found⟩ := ih stands.append l member
      exact ⟨rest, by omega, found⟩

theorem Cut.ordered (cut : Cut offset cs ls) (stands : StandsAt source offset cs) :
    ls.Pairwise fun l m => l.offset < m.offset ∧ l.stop source ≤ m.offset := by
  induction cut with
  | done => exact List.pairwise_singleton ..
  | blank _ _ ih => exact ih stands.next
  | @token offset t spelling rest ls spells others ih =>
    refine List.pairwise_cons.mpr ⟨fun m member => ?_, ih stands.append⟩
    obtain ⟨-, later, -⟩ := others.stands stands.append m member
    have width := spells.byteLength_pos
    exact ⟨by show offset < m.offset; omega, stands.stop ▸ later⟩

/-- A byte that no lexeme takes belongs to a white-space character from the offset on. -/
theorem Cut.gap (cut : Cut offset cs ls) (stands : StandsAt source offset cs) {byte : Nat} (reached : offset ≤ byte)
    (below : byte < offset + Text.byteLength cs) (free : ¬ ∃ l ∈ ls, l.Takes source byte) :
    ∃ before c, Gap source ls before c ∧ offset ≤ Text.byteLength before ∧ Text.byteLength before ≤ byte ∧
      byte < Text.byteLength before + c.utf8Size := by
  induction cut with
  | done =>
    rw [show Text.byteLength [] = 0 from rfl] at below
    omega
  | @blank offset c rest ls blank others ih =>
    by_cases inside : byte < offset + c.utf8Size
    · have apart : ∀ l ∈ ls, l.stop source ≤ offset ∨ offset + c.utf8Size ≤ l.offset := by
        intro l member
        obtain ⟨-, later, -⟩ := others.stands stands.next l member
        exact .inr later
      obtain ⟨before, shown, rfl⟩ := stands
      exact ⟨before, c, ⟨⟨rest, shown⟩, blank, apart⟩, Nat.le_refl _, reached, inside⟩
    · rw [Text.byteLength_cons] at below
      obtain ⟨before, d, gap, later, within⟩ := ih stands.next (by omega) (by omega) free
      exact ⟨before, d, gap, by omega, within⟩
  | @token offset t spelling rest ls spells _ ih =>
    have stop := stands.stop (t := t)
    by_cases inside : byte < offset + Text.byteLength spelling
    · exact absurd ⟨_, List.mem_cons_self, reached, stop ▸ inside⟩ free
    · rw [Text.byteLength_append] at below
      have others : ¬ ∃ l ∈ ls, l.Takes source byte := by
        rintro ⟨l, member, takes⟩
        exact free ⟨l, List.mem_cons_of_mem _ member, takes⟩
      obtain ⟨before, d, gap, later, within⟩ := ih stands.append (by omega) (by omega) others
      refine ⟨before, d, ⟨gap.stands, gap.blank, List.forall_mem_cons.mpr ⟨.inl ?_, gap.apart⟩⟩, by omega, within⟩
      omega

theorem Cut.covers (cut : Cut 0 source.toList ls) : Covers source ls := by
  have stands : StandsAt source 0 source.toList := ⟨[], rfl, rfl⟩
  have whole : 0 + Text.byteLength source.toList = source.utf8ByteSize := by
    rw [Nat.zero_add, Text.byteLength_toList]
  refine ⟨whole ▸ cut.ends, fun l member => ?_, cut.ordered stands, fun byte below => ?_, fun l member other => ?_⟩
  · obtain ⟨rest, -, found, -⟩ := cut.stands stands l member
    exact ⟨found.boundary, found.append.boundary⟩
  · constructor
    · intro free
      obtain ⟨before, c, gap, -, within⟩ := cut.gap stands (Nat.zero_le _) (whole ▸ below) free
      exact ⟨before, c, gap, within⟩
    · rintro ⟨before, c, gap, reached, inside⟩ ⟨l, member, first, last⟩
      rcases gap.apart l member with earlier | later <;> omega
  · obtain ⟨rest, -, -, found⟩ := cut.stands stands l member
    obtain ⟨spells, width⟩ := found other
    rw [spells.lexemes, width, Lexeme.stop, Nat.add_sub_cancel_left]

end cuts

/-! ### Where the scan stands -/

/-- A place of the scan: the offset that it has got to and the characters that are still ahead. -/
inductive Scan where
  /-- Before the next lexeme, or inside the lexeme read last with `skip` characters of it to go. -/
  | along (skip offset : Nat) (ahead : List Char)
  /-- In a quoted text whose opening quote stands at `start`. -/
  | quoted (quote : Char) (start offset : Nat) (ahead : List Char)

namespace Scan

def offset : Scan → Nat
  | along _ offset _ => offset
  | quoted _ _ offset _ => offset

def ahead : Scan → List Char
  | along _ _ ahead => ahead
  | quoted _ _ _ ahead => ahead

/-- The character opens a quoted text. -/
def Opens (c : Char) : Prop :=
  c = '"' ∨ c = '\''

/-- One step of the scan, for each way in which it goes on. -/
inductive Next : Scan → Scan → Prop where
  | skip {skip offset c rest} : Next (.along (skip + 1) offset (c :: rest)) (.along skip (offset + c.utf8Size) rest)
  | blank {offset c rest} (blank : Text.isBlank c = true) :
      Next (.along 0 offset (c :: rest)) (.along 0 (offset + c.utf8Size) rest)
  | token {offset c rest t width} (seen : Text.isBlank c = false) (read : scanToken offset c rest = .ok (t, width)) :
      Next (.along 0 offset (c :: rest)) (.along width (offset + c.utf8Size) rest)
  | opened {offset c rest} (opens : Opens c) : Next (.along 0 offset (c :: rest)) (.quoted c offset (offset + 1) rest)
  | plain {quote start offset c rest} (bare : c ≠ '\\') (inside : c ≠ quote) :
      Next (.quoted quote start offset (c :: rest)) (.quoted quote start (offset + c.utf8Size) rest)
  | escape {quote start offset c rest} (short : c ≠ 'u') :
      Next (.quoted quote start offset ('\\' :: c :: rest)) (.quoted quote start (offset + 1 + c.utf8Size) rest)
  | codePoint {quote start offset a b c d rest point} (digits : [a, b, c, d].all isHexDigit = true)
      (named : codePoint? [a, b, c, d] = some point) :
      Next (.quoted quote start offset ('\\' :: 'u' :: a :: b :: c :: d :: rest))
        (.quoted quote start (offset + 6) rest)

/-- The scan ends where it stands, with a fault. -/
inductive Refuses : Scan → SyntaxError → Prop where
  | token {offset c rest e} (seen : Text.isBlank c = false) (bare : ¬ Opens c)
      (refused : scanToken offset c rest = .error e) : Refuses (.along 0 offset (c :: rest)) e
  | ended {quote start offset} : Refuses (.quoted quote start offset []) ⟨.unterminatedText, start⟩
  | cutShort {quote start offset} : Refuses (.quoted quote start offset ['\\']) ⟨.unterminatedText, start⟩
  | malformed {quote start offset rest}
      (short : ∀ a b c d more, rest = a :: b :: c :: d :: more → ¬ [a, b, c, d].all isHexDigit = true) :
      Refuses (.quoted quote start offset ('\\' :: 'u' :: rest)) ⟨.malformedCodePoint, offset + 2⟩
  | invalid {quote start offset a b c d rest} (digits : [a, b, c, d].all isHexDigit = true)
      (unnamed : codePoint? [a, b, c, d] = none) :
      Refuses (.quoted quote start offset ('\\' :: 'u' :: a :: b :: c :: d :: rest)) ⟨.invalidCodePoint, offset + 2⟩

/-- What is read from the place on is refused. -/
def Fails (e : SyntaxError) : Scan → Prop
  | along skip offset ahead => lexemesFrom skip offset ahead = .error e
  | quoted quote start offset ahead => scanText quote start offset ahead = .error e

/-- The place lies in the text: what is ahead is the text from the offset on, and an opening quote stands at a
    boundary. -/
def Stands (source : String) : Scan → Prop
  | along _ offset ahead => StandsAt source offset ahead
  | quoted _ start offset ahead => Boundary source start ∧ StandsAt source offset ahead

section steps

variable {source : String} {s t : Scan} {e : SyntaxError} {c : Char} {offset : Nat} {rest : List Char}

theorem Opens.size (opens : Opens c) : c.utf8Size = 1 := by
  rcases opens with rfl | rfl <;> rfl

theorem Opens.not_blank (opens : Opens c) : Text.isBlank c = false := by
  rcases opens with rfl | rfl <;> rfl

theorem Opens.scanToken (opens : Opens c) : scanToken offset c rest =
    (scanText c offset (offset + 1) rest).map fun r => (.text (String.ofList r.1), r.2) := by
  rcases opens with rfl | rfl <;> rfl

/-- Wherever the scan goes, it stands in the text. -/
theorem Next.stands (next : Next s t) (stands : s.Stands source) : t.Stands source := by
  cases next with
  | skip => exact StandsAt.next stands
  | blank _ => exact StandsAt.next stands
  | token _ _ => exact StandsAt.next stands
  | opened opens => exact ⟨StandsAt.boundary stands, opens.size ▸ StandsAt.next stands⟩
  | plain _ _ => exact ⟨stands.1, stands.2.next⟩
  | escape _ => exact ⟨stands.1, stands.2.next.next⟩
  | @codePoint quote start offset a b c d rest point digits _ =>
    have visible : ∀ x ∈ ['\\', 'u', a, b, c, d], Visible x := by
      refine List.forall_mem_cons.mpr ⟨by decide, List.forall_mem_cons.mpr ⟨by decide, fun x member => ?_⟩⟩
      exact visible_of_isHexDigit (List.all_eq_true.mp digits x member)
    have width : Text.byteLength ['\\', 'u', a, b, c, d] = 6 := byteLength_of_visible visible
    have after : StandsAt source (offset + Text.byteLength ['\\', 'u', a, b, c, d]) rest := stands.2.append
    exact ⟨stands.1, width ▸ after⟩

theorem Stands.standsAt (stands : s.Stands source) : StandsAt source s.offset s.ahead := by
  cases s with
  | along => exact stands
  | quoted => exact stands.2

/-- Every place that the scan comes to lies in the text. -/
theorem stands_of_reached (reached : Relation.ReflTransGen Next (.along 0 0 source.toList) s) : s.Stands source := by
  induction reached with
  | refl => exact ⟨[], rfl, rfl⟩
  | tail _ next ih => exact next.stands ih

end steps

end Scan

/-! ### Faults -/

section faults

variable {source : String} {s t : Scan} {offset : Nat} {c : Char} {cs rest : List Char} {e : SyntaxError}

open Scan Relation

theorem scanNumber_boundary (stands : StandsAt source offset (c :: rest))
    (failed : scanNumber offset c rest = .error e) : Boundary source e.offset := by
  unfold scanNumber at failed
  dsimp only at failed
  split at failed
  · split at failed
    · cases failed
    · cases failed
      exact stands.boundary
  · split at failed
    · cases failed
      rw [← List.take_append_drop (decimalRun c rest) rest, ← List.cons_append] at stands
      exact stands.append.boundary
    · split at failed
      · cases failed
      · cases failed
        exact stands.boundary

theorem scanToken_boundary (stands : StandsAt source offset (c :: rest)) (bare : ¬ Opens c)
    (failed : scanToken offset c rest = .error e) : Boundary source e.offset := by
  by_cases starts : StartsNumber c rest
  · rw [scanToken_number starts] at failed
    exact scanNumber_boundary stands failed
  · rw [scanToken_other starts] at failed
    split at failed
    · next opens =>
      exact absurd ((Bool.or_eq_true _ _).mp opens |>.imp beq_iff_eq.mp beq_iff_eq.mp) bare
    · split at failed
      · cases failed
      · split at failed
        · cases failed
        · cases failed
          exact stands.boundary

theorem Scan.Refuses.boundary (refuses : s.Refuses e) (stands : s.Stands source) : Boundary source e.offset := by
  cases refuses with
  | token _ bare refused => exact scanToken_boundary stands bare refused
  | ended => exact stands.1
  | cutShort => exact stands.1
  | malformed _ => exact stands.2.next.next.boundary
  | invalid _ _ => exact stands.2.next.next.boundary

/-- A fault that lies ahead is the fault of the place before. -/
theorem Scan.Next.fails (next : s.Next t) (fails : t.Fails e) : s.Fails e := by
  unfold Fails at fails ⊢
  cases next with
  | skip => exact fails
  | blank blank => simp only [lexemesFrom, if_pos blank, fails]
  | token seen read =>
    simp only [lexemesFrom, seen, read]
    exact bind_eq_error.mpr (.inr ⟨_, rfl, bind_eq_error.mpr (.inl fails)⟩)
  | opened opens =>
    simp only [lexemesFrom, opens.not_blank, opens.scanToken, fails]
    rfl
  | plain bare inside =>
    simp only [scanText_plain bare, if_neg inside]
    exact bind_eq_error.mpr (.inl fails)
  | escape short =>
    simp only [scanText_escape short]
    exact bind_eq_error.mpr (.inl fails)
  | codePoint digits named =>
    simp only [scanText, if_pos digits, named]
    exact bind_eq_error.mpr (.inl fails)

theorem Scan.Refuses.fails (refuses : s.Refuses e) : s.Fails e := by
  unfold Fails
  cases refuses with
  | token seen _ refused =>
    simp only [lexemesFrom, seen, refused]
    rfl
  | ended => rfl
  | cutShort => rfl
  | @malformed quote start offset rest short =>
    rcases rest with _ | ⟨a, _ | ⟨b, _ | ⟨c, _ | ⟨d, rest⟩⟩⟩⟩
    · rfl
    · rfl
    · rfl
    · rfl
    · simp only [scanText, if_neg (short a b c d rest rfl)]
  | invalid digits unnamed => simp only [scanText, if_pos digits, unnamed]

theorem refuses_of_scanText {quote : Char} {start : Nat} (failed : scanText quote start offset cs = .error e) :
    ∃ t, ReflTransGen Next (.quoted quote start offset cs) t ∧ t.Refuses e := by
  induction offset, cs using scanText.induct quote with
  | case1 offset =>
    cases failed
    exact ⟨_, .refl, .ended⟩
  | case2 offset a b c d rest digits point named ih =>
    rw [scanText, if_pos digits, named] at failed
    rcases bind_eq_error.mp failed with inner | ⟨_, _, same⟩
    · obtain ⟨t, reached, refuses⟩ := ih inner
      exact ⟨t, .head (.codePoint digits named) reached, refuses⟩
    · cases same
  | case3 offset a b c d rest digits unnamed =>
    rw [scanText, if_pos digits, unnamed] at failed
    cases failed
    exact ⟨_, .refl, .invalid digits unnamed⟩
  | case4 offset a b c d rest others =>
    rw [scanText, if_neg others] at failed
    cases failed
    refine ⟨_, .refl, .malformed ?_⟩
    rintro _ _ _ _ _ ⟨⟩
    exact others
  | case5 offset tail short =>
    rw [scanText] at failed
    · cases failed
      exact ⟨_, .refl, .malformed fun a b c d more same => absurd same (short a b c d more)⟩
    · exact short
  | case6 offset c rest _ short ih =>
    rw [scanText_escape short] at failed
    rcases bind_eq_error.mp failed with inner | ⟨_, _, same⟩
    · obtain ⟨t, reached, refuses⟩ := ih inner
      exact ⟨t, .head (.escape short) reached, refuses⟩
    · cases same
  | case7 offset =>
    cases failed
    exact ⟨_, .refl, .cutShort⟩
  | case8 offset rest _ _ longer last =>
    have bare := ne_backslash longer last
    rw [scanText_plain bare, if_pos rfl] at failed
    cases failed
  | case9 offset c rest _ _ longer last other ih =>
    have bare := ne_backslash longer last
    rw [scanText_plain bare, if_neg other] at failed
    rcases bind_eq_error.mp failed with inner | ⟨_, _, same⟩
    · obtain ⟨t, reached, refuses⟩ := ih inner
      exact ⟨t, .head (.plain bare other) reached, refuses⟩
    · cases same

theorem refuses_of_lexemesFrom {skip : Nat} (failed : lexemesFrom skip offset cs = .error e) :
    ∃ t, ReflTransGen Next (.along skip offset cs) t ∧ t.Refuses e := by
  induction cs generalizing skip offset with
  | nil => cases failed
  | cons c rest ih =>
    cases skip with
    | succ skip =>
      obtain ⟨t, reached, refuses⟩ := ih failed
      exact ⟨t, .head .skip reached, refuses⟩
    | zero =>
      rw [lexemesFrom] at failed
      split at failed
      · next blank =>
        obtain ⟨t, reached, refuses⟩ := ih failed
        exact ⟨t, .head (.blank blank) reached, refuses⟩
      · next seen =>
        have seen : Text.isBlank c = false := Bool.not_eq_true _ ▸ seen
        rcases bind_eq_error.mp failed with scanned | ⟨⟨t, width⟩, scanned, failed⟩
        · by_cases opens : Opens c
          · rw [opens.scanToken] at scanned
            cases text : scanText c offset (offset + 1) rest with
            | ok read =>
              rw [text] at scanned
              cases scanned
            | error fault =>
              rw [text] at scanned
              cases scanned
              obtain ⟨t, reached, refuses⟩ := refuses_of_scanText text
              exact ⟨t, .head (.opened opens) reached, refuses⟩
          · exact ⟨_, .refl, .token seen opens scanned⟩
        · rcases bind_eq_error.mp failed with behind | ⟨_, _, same⟩
          · obtain ⟨t, reached, refuses⟩ := ih behind
            exact ⟨t, .head (.token seen scanned) reached, refuses⟩
          · cases same

/-- A text is refused from a place on just if the scan comes from there to a place that refuses it. -/
theorem Scan.fails_iff : s.Fails e ↔ ∃ t, ReflTransGen Next s t ∧ t.Refuses e := by
  constructor
  · intro fails
    cases s with
    | along skip offset ahead => exact refuses_of_lexemesFrom fails
    | quoted quote start offset ahead => exact refuses_of_scanText fails
  · rintro ⟨t, reached, refuses⟩
    induction reached using ReflTransGen.head_induction_on with
    | refl => exact refuses.fails
    | head next _ ih => exact next.fails ih

end faults

/-- The scanner covers its text: what it gives are lexemes that cover the text, and what it refuses it refuses at a
    boundary of the text. Wherever it stands in between, it stands at a boundary, with the rest of the text ahead. -/
theorem lexemes_cover (source : String) :
    (∀ ls, lexemes source = .ok ls → Covers source ls) ∧
    (∀ e, lexemes source = .error e → Boundary source e.offset ∧ e.offset ≤ source.utf8ByteSize) ∧
    ∀ place, Relation.ReflTransGen Scan.Next (.along 0 0 source.toList) place →
      Boundary source place.offset ∧ StandsAt source place.offset place.ahead := by
  refine ⟨fun ls read => (cut_of_lexemesFrom read).covers, fun e failed => ?_, fun place reached => ?_⟩
  · obtain ⟨place, reached, refuses⟩ := Scan.fails_iff (s := .along 0 0 source.toList).mp failed
    have boundary := refuses.boundary (Scan.stands_of_reached reached)
    exact ⟨boundary, boundary.le_rawEndPos⟩
  · have stands := (Scan.stands_of_reached reached).standsAt
    exact ⟨stands.boundary, stands⟩

/-- A wide character, an escape of it, and a hexadecimal number that hangs on an operator. -/
def wideSource : String :=
  "'é\\u00e9' !==0x1F"

def wideLexemes : List Lexeme :=
  [⟨.text "éé", 0, 9⟩, ⟨.punct .strictNe, 11, 3⟩, ⟨.number (Float.ofNat 31), 14, 4⟩, ⟨.eof, 18, 0⟩]

theorem wide_lexemes_cover : lexemes wideSource = .ok wideLexemes ∧ Covers wideSource wideLexemes ∧
    lexemes "'é' ü" = .error ⟨.unexpectedCharacter 'ü', 5⟩ ∧ Boundary "'é' ü" 5 ∧
    Relation.ReflTransGen Scan.Next (.along 0 0 wideSource.toList)
      (.quoted '\'' 0 9 [ '\'', ' ', '!', '=', '=', '0', 'x', '1', 'F']) ∧ Boundary wideSource 9 := by
  have read : lexemes wideSource = .ok wideLexemes := by rfl
  have failed : lexemes "'é' ü" = .error ⟨.unexpectedCharacter 'ü', 5⟩ := by rfl
  have reached : Relation.ReflTransGen Scan.Next (.along 0 0 wideSource.toList)
      (.quoted '\'' 0 9 [ '\'', ' ', '!', '=', '=', '0', 'x', '1', 'F']) := by
    refine .head (.opened (.inr rfl)) (.head (.plain (by decide) (by decide)) (.single ?_))
    have named : codePoint? ['0', '0', 'e', '9'] = some 'é' := rfl
    exact .codePoint rfl named
  exact ⟨read, (lexemes_cover _).1 _ read, failed, ((lexemes_cover _).2.1 _ failed).1, reached,
    ((lexemes_cover _).2.2 _ reached).1⟩

end Stencil.Expr
