import Stencil.Proofs.Scoping

/-!
Expressions as texts, and back. A tree is printed as pieces: names of fields stand bare, texts stand between
quotes, and parentheses stand only where the strata of the grammar need them. What is printed is scoped and
cut into the tokens of the pieces (`Fits.lexes`), and these derive the tree (`derives_pieces`).
-/
namespace Stencil.Expr

/-! ### Pieces -/

/-- A part of a printed text. -/
inductive Piece where
  | blank
  | sign (p : Punct)
  /-- A constant, or an operator in letters. -/
  | word (w : String)
  /-- The name of a field. -/
  | name (w : String)
  /-- A point and the name of a member. -/
  | member (w : String)
  | number (digits : List Char) (x : Float)
  | text (s : String)

/-- The character by its four hexadecimal digits. -/
def codePointText (c : Char) : List Char :=
  '\\' :: 'u' :: [c.toNat / 4096, c.toNat / 256 % 16, c.toNat / 16 % 16, c.toNat % 16].map Nat.digitChar

/-- A control character. -/
def isControl (c : Char) : Bool :=
  c.toNat < 32 || 127 ≤ c.toNat && c.toNat < 160

/-- A character of a text, as it stands between quotes. -/
def quotedChar (c : Char) : List Char :=
  if c == '\'' || c == '\\' || isControl c then codePointText c else [c]

namespace Piece

def spelling : Piece → List Char
  | blank => [' ']
  | sign p => p.text.toList
  | word w | name w => w.toList
  | member w => '.' :: w.toList
  | number digits _ => digits
  | text s => '\'' :: (s.toList.flatMap quotedChar ++ ['\''])

/-- The tokens of a piece, once the names of fields are replaced by look-ups. -/
def tokens : Piece → List Token
  | blank => []
  | sign p => [.punct p]
  | word w => [.word w]
  | name w => lookupTokens w
  | member w => [.punct .dot, .word w]
  | number _ x => [.number x]
  | text s => [.text s]

end Piece

/-- The characters of pieces. -/
def spell (ps : List Piece) : List Char :=
  ps.flatMap Piece.spelling

/-! ### Printing -/

/-- The stratum of a tree by its outermost operator. -/
def Stratum.ofExpr : Expr → Stratum
  | .conditional .. => conditional
  | .binary op .. => of op
  | .unary .. => unary
  | .member .. | .index .. => access
  | .literal _ | .field _ | .array _ | .object _ => primary

def parenthesized (ps : List Piece) : List Piece :=
  .sign .openParen :: (ps ++ [.sign .closeParen])

/-- The pieces of a tree where a stratum is wanted. -/
def enclosed (s : Stratum) (e : Expr) (ps : List Piece) : List Piece :=
  if s.power ≤ (Stratum.ofExpr e).power then ps else parenthesized ps

def unaryPieces : UnaryOp → List Piece
  | .not => [.sign .not]
  | .neg => [.sign .minus]
  | .plus => [.sign .plus]
  | .kind => [.word "typeof", .blank]

section printing

variable (numeral : Float → List Char)

/-- A number is written as its numeral: in digits, or as a word. -/
def literalPiece : Value → Piece
  | .string s => .text s
  | .number x => if (numeral x).all Number.isDigit then .number (numeral x) x else .word (String.ofList (numeral x))
  | .bool b => .word (if b then "true" else "false")
  | .null => .word "null"
  | _ => .word "undefined"

/-- A number in digits, whose point would be taken for a part of it. -/
def isDigits : Expr → Bool
  | .literal (.number x) => (numeral x).all Number.isDigit
  | _ => false

/-- The pieces of a tree before a point. -/
def beforePoint (e : Expr) (ps : List Piece) : List Piece :=
  if isDigits numeral e then parenthesized ps else enclosed .access e ps

mutual

def pieces : Expr → List Piece
  | .literal value => [literalPiece numeral value]
  | .field name => [.name name]
  | .member target name => beforePoint numeral target (pieces target) ++ [.member name]
  | .index target key =>
    enclosed .access target (pieces target) ++ .sign .openBracket :: (pieces key ++ [.sign .closeBracket])
  | .unary op operand => unaryPieces op ++ enclosed .unary operand (pieces operand)
  | .binary op left right =>
    enclosed (.of op) left (pieces left) ++ .blank :: .sign (.of op) :: .blank ::
      enclosed (Stratum.of op).tighter right (pieces right)
  | .conditional test yes no =>
    enclosed .or test (pieces test) ++ .blank :: .sign .question :: .blank ::
      (pieces yes ++ .blank :: .sign .colon :: .blank :: pieces no)
  | .array items => .sign .openBracket :: (itemPieces items ++ [.sign .closeBracket])
  | .object entries => .sign .openBrace :: (entryPieces entries ++ [.sign .closeBrace])

def itemPieces : List Expr → List Piece
  | [] => []
  | [e] => pieces e
  | e :: f :: rest => pieces e ++ .sign .comma :: .blank :: itemPieces (f :: rest)

def entryPieces : List (String × Expr) → List Piece
  | [] => []
  | [(key, e)] => .text key :: .sign .colon :: .blank :: pieces e
  | (key, e) :: f :: rest =>
    .text key :: .sign .colon :: .blank :: (pieces e ++ .sign .comma :: .blank :: entryPieces (f :: rest))

end

/-- An expression as a text. -/
def print (e : Expr) : String :=
  String.ofList (spell (pieces numeral e))

end printing

/-! ### Texts between quotes -/

section texts

variable {c : Char} {content : List Char} {previous : Option Char}

theorem hexDigit?_digitChar : ∀ n < 16, Number.hexDigit? (Nat.digitChar n) = some n := by
  decide

/-- The four digits of a code point name the character. -/
theorem codePoint?_digits (small : c.toNat < 65536) :
    let digits := [c.toNat / 4096, c.toNat / 256 % 16, c.toNat / 16 % 16, c.toNat % 16].map Nat.digitChar
    digits.all isHexDigit = true ∧ codePoint? digits = some c := by
  have first := hexDigit?_digitChar (c.toNat / 4096) (by omega)
  have second := hexDigit?_digitChar (c.toNat / 256 % 16) (by omega)
  have third := hexDigit?_digitChar (c.toNat / 16 % 16) (by omega)
  have fourth := hexDigit?_digitChar (c.toNat % 16) (by omega)
  have value :
      16 * (16 * (16 * (c.toNat / 4096) + c.toNat / 256 % 16) + c.toNat / 16 % 16) + c.toNat % 16 = c.toNat := by
    omega
  have valid : c.toNat.isValidChar := c.valid
  intro digits
  constructor
  · simp [digits, isHexDigit, first, second, third, fourth]
  · have read : Number.readHexDigits? digits = some c.toNat := by
      simp [digits, Number.readHexDigits?, List.foldlM, first, second, third, fourth, value]
    rw [codePoint?, read]
    exact dif_pos valid

theorem quoted_content : Quoted '\'' content (content.flatMap quotedChar) := by
  induction content with
  | nil => exact .nil
  | cons c content ih =>
    rw [List.flatMap_cons, quotedChar]
    split
    · next marked =>
      have small : c.toNat < 65536 := by
        simp only [isControl, Bool.or_eq_true, Bool.and_eq_true, beq_iff_eq, decide_eq_true_eq,
          ← Char.toNat_inj] at marked
        simp at marked
        omega
      obtain ⟨digits, named⟩ := codePoint?_digits small
      exact .codePoint digits named ih
    · next bare =>
      simp only [Bool.or_eq_true, beq_iff_eq, not_or] at bare
      exact .plain bare.1.1 bare.1.2 ih

theorem getLast?_quoted (closes : previous ≠ some '\\') :
    (content.flatMap quotedChar).getLast?.or previous ≠ some '\\' := by
  induction content generalizing previous with
  | nil => exact closes
  | cons c content ih =>
    rw [List.flatMap_cons, quotedChar]
    split
    · have last : some (Nat.digitChar (c.toNat % 16)) ≠ some '\\' := by
        have digit := hexDigit?_digitChar (c.toNat % 16) (by omega)
        rintro same
        rw [Option.some.inj same] at digit
        cases digit
      simp only [codePointText, List.map_cons, List.map_nil, List.cons_append, List.nil_append, getLast?_cons_or]
      exact ih last
    · next bare =>
      simp only [Bool.or_eq_true, beq_iff_eq, not_or] at bare
      rw [List.singleton_append, getLast?_cons_or]
      exact ih (by simpa using bare.1.2)

end texts

/-! ### Pieces that fit together -/

/-- A word as the scanner cuts it. -/
def isName (w : String) : Bool :=
  match w.toList with
  | [] => false
  | c :: tail => isWordStart c && tail.all isWordChar

namespace Piece

/-- A piece that is read as it is meant. -/
def Valid : Piece → Prop
  | blank | text _ => True
  | sign p => p ≠ .dot
  | word w => isName w = true ∧ w ∈ reservedWords
  | name w => isName w = true ∧ w ∉ reservedWords
  | member w => isName w = true
  | number digits x => digits ≠ [] ∧ digits.all Number.isDigit = true ∧ Number.ofDecimal (Number.ofDigits digits) 0 = x

/-- A piece that ends before `next`. -/
def Ends : Piece → Option Char → Prop
  | blank, _ | text _, _ => True
  | sign p, next => p.Stops next
  | word _, next | name _, next | member _, next => ∀ d ∈ next, isWordChar d = false
  | number .., next => ∀ d ∈ next, isWordChar d = false ∧ d ≠ '.'

end Piece

/-- Every piece is read as it is meant, and ends where the next one starts. -/
def Fits : List Piece → Prop
  | [] => True
  | p :: rest => p.Valid ∧ p.Ends (spell rest).head? ∧ Fits rest

section fits

variable {w : String} {c : Char} {tail digits rest : List Char} {previous : Option Char} {ps : List Piece}

theorem exists_of_isName (name : isName w = true) :
    ∃ c tail, w = String.ofList (c :: tail) ∧ isWordStart c = true ∧ ∀ d ∈ tail, isWordChar d = true := by
  rw [isName] at name
  split at name
  · cases name
  · next c tail shown =>
    rw [Bool.and_eq_true, List.all_eq_true] at name
    exact ⟨c, tail, by rw [← shown, String.ofList_toList], name.1, name.2⟩

theorem decimalRun_digits (digit : Number.isDigit c = true) (inside : ∀ d ∈ tail, Number.isDigit d = true)
    (stop : ∀ d ∈ rest.head?, isWordChar d = false ∧ d ≠ '.') :
    decimalRun c (tail ++ rest.head?.toList) = tail.length := by
  induction tail generalizing c with
  | nil =>
    cases front : rest.head? with
    | none => rfl
    | some d =>
      obtain ⟨other, point⟩ := stop d front
      rw [Bool.eq_false_iff, Ne, isWordChar_iff, not_or] at other
      have mark : ∀ m, isWordStart m = true → d ≠ m := fun m start same => other.1 (same ▸ start)
      have sign : ∀ m, Number.isDigit m = false → c ≠ m := by
        rintro m bare rfl
        rw [bare] at digit
        cases digit
      simp [decimalRun, other.2, point, mark 'e' (by decide), mark 'E' (by decide), sign 'e' (by decide),
        sign 'E' (by decide)]
  | cons d tail ih =>
    obtain ⟨first, others⟩ := List.forall_mem_cons.mp inside
    rw [List.cons_append, decimalRun, if_pos (by simp [first]), ih first others, List.length_cons]

theorem readDecimal?_digits (digit : Number.isDigit c = true) (inside : ∀ d ∈ tail, Number.isDigit d = true) :
    Number.readDecimal? (c :: tail) = some (Number.ofDecimal (Number.ofDigits (c :: tail)) 0) := by
  have all : ∀ d ∈ c :: tail, Number.isDigit d = true := List.forall_mem_cons.mpr ⟨digit, inside⟩
  have whole : (c :: tail).takeWhile Number.isDigit = c :: tail := by
    rw [← List.append_nil (c :: tail), List.takeWhile_append_of_pos all, List.takeWhile_nil]
  have after : (c :: tail).dropWhile Number.isDigit = [] := by
    rw [← List.append_nil (c :: tail), List.dropWhile_append_of_pos all, List.dropWhile_nil]
  have unsigned : Number.readUnsigned? (c :: tail) = some (Number.ofDecimal (Number.ofDigits (c :: tail)) 0) := by
    simp [Number.readUnsigned?, whole, after, Number.readExponent?]
  rw [← unsigned, Number.readDecimal?.eq_def]
  split
  · next shown =>
    cases shown
    exact absurd digit (by decide)
  · next shown =>
    cases shown
    exact absurd digit (by decide)
  · rfl

theorem lexes_digits {ts : List Token} (digit : Number.isDigit c = true) (inside : ∀ d ∈ tail, Number.isDigit d = true)
    (ends : ∀ d ∈ rest.head?, isWordChar d = false ∧ d ≠ '.') (others : ∀ p, Lexes (scopeFrom .plain p rest) ts) :
    Lexes (scopeFrom .plain previous (c :: tail ++ rest))
      (.number (Number.ofDecimal (Number.ofDigits (c :: tail)) 0) :: ts) := by
  have run := decimalRun_digits digit inside ends
  have other := not_isWordStart_of_stop fun d front => (ends d front).1
  have stop : ∀ d ∈ rest.head?, d.isAlpha = false ∧ d ≠ '_' := by
    intro d front
    have other := other d front
    simp only [isWordStart, Bool.or_eq_false_iff, beq_eq_false_iff_ne] at other
    exact other.1
  obtain ⟨p, written⟩ := scopeFrom_decimal (.inl digit) run stop
  rw [written]
  refine (others p).token ?_
  rw [startsAlike_plain.head?_eq other]
  exact .decimal (.inl digit) run stop (readDecimal?_digits digit inside)

theorem lexes_quoted {ts : List Token} {s : String} (others : Lexes (scopeFrom .plain (some '\'') rest) ts) :
    Lexes (scopeFrom .plain previous ('\'' :: (s.toList.flatMap quotedChar ++ ['\'']) ++ rest)) (.text s :: ts) := by
  have closes : ('\'' :: s.toList.flatMap quotedChar).getLast? ≠ some '\\' := by
    have last : (s.toList.flatMap quotedChar).getLast?.or (some '\'') ≠ some '\\' := getLast?_quoted (by decide)
    rw [← getLast?_cons_or, Option.or_none] at last
    exact last
  have quoted : Quoted '\'' s.toList (s.toList.flatMap quotedChar) := quoted_content
  rw [scopeFrom_text (.inr rfl) quoted closes]
  have whole := others.token (.text (.inr rfl) quoted)
  rw [String.ofList_toList] at whole
  exact whole

/-- What is printed is scoped and cut into the tokens of its pieces. -/
theorem Fits.lexes (fits : Fits ps)
    (quiet : previous = some '.' → ∀ d ∈ (spell ps).head?, isWordStart d = false) :
    Lexes (scopeFrom .plain previous (spell ps)) (ps.flatMap Piece.tokens ++ [.eof]) := by
  -- before every piece the text is scoped from outside quotes, words and numbers; of what is already written
  -- only a point right before the piece matters
  induction ps generalizing previous with
  | nil => exact lexes_nil
  | cons p ps ih =>
    obtain ⟨valid, ends, others⟩ := fits
    rw [spell, List.flatMap_cons, ← spell] at quiet ⊢
    rw [List.flatMap_cons, List.append_assoc]
    cases p with
    | blank =>
      rw [Piece.spelling, List.singleton_append, scopeFrom_inert (by decide)]
      exact (ih others (by rintro ⟨⟩)).blank (by decide)
    | sign p =>
      have last : p.text.toList.getLast?.or previous ≠ some '.' := mt p.getLast?_text.mp valid
      rw [Piece.spelling, scopeFrom_signs p.inert]
      exact (ih others (absurd · last)).sign rfl (startsAlike_plain.stops ends)
    | word w =>
      obtain ⟨name, reserved⟩ := valid
      obtain ⟨c, tail, rfl, start, inside⟩ := exists_of_isName name
      rw [Piece.spelling, String.toList_ofList]
      refine lexes_word start inside ends (fun p last => ih others (absurd · last)) ?_
      rw [List.contains_iff_mem.mpr reserved, Bool.or_true]
    | name w =>
      obtain ⟨name, other⟩ := valid
      obtain ⟨c, tail, rfl, start, inside⟩ := exists_of_isName name
      rw [Piece.spelling, String.toList_ofList] at quiet ⊢
      have undotted : previous ≠ some '.' := by
        intro point
        rw [quiet point c rfl] at start
        cases start
      refine lexes_name start inside ends (fun p last => ih others (absurd · last)) ?_
      simpa [undotted] using other
    | member w =>
      obtain ⟨c, tail, rfl, start, inside⟩ := exists_of_isName valid
      rw [Piece.spelling, String.toList_ofList, List.cons_append, scopeFrom_inert (by decide)]
      have named : Lexes (scopeFrom .plain (some '.') (c :: tail ++ spell ps)) _ :=
        lexes_word start inside ends (fun p last => ih others (absurd · last)) rfl
      have front : Punct.dot.Stops (c :: tail ++ spell ps).head? := stops_of_isWordStart start
      exact named.sign (p := .dot) rfl (startsAlike_plain.stops front)
    | number digits x =>
      obtain ⟨nonempty, inside, rfl⟩ := valid
      obtain ⟨c, tail, rfl⟩ := List.exists_cons_of_ne_nil nonempty
      rw [List.all_eq_true] at inside
      obtain ⟨digit, inside⟩ := List.forall_mem_cons.mp inside
      have other := not_isWordStart_of_stop fun d front => (ends d front).1
      exact lexes_digits digit inside ends fun p => ih others fun _ => other
    | text s => exact lexes_quoted (ih others (by rintro ⟨⟩))

end fits

/-! ### Printed trees -/

section trees

variable (numeral : Float → List Char)

/-- The numeral of a number stands for it: in digits, or as a constant. -/
def HasNumeral (x : Float) : Prop :=
  numeral x ≠ [] ∧ (numeral x).all Number.isDigit = true ∧ Number.ofDecimal (Number.ofDigits (numeral x)) 0 = x ∨
    (String.ofList (numeral x), Value.number x) ∈ constants

/-- A value that can be written as a literal. -/
def LiteralPrintable : Value → Prop
  | .number x => HasNumeral numeral x
  | .string _ | .bool _ | .null | .undefined => True
  | .array _ | .object _ | .function _ => False

mutual

/-- A tree that can be written: its literals can, its fields and members have names, and no field has the name
    of a reserved word. -/
def Printable : Expr → Prop
  | .literal value => LiteralPrintable numeral value
  | .field name => isName name = true ∧ name ∉ reservedWords
  | .member target name => Printable target ∧ isName name = true
  | .index target key => Printable target ∧ Printable key
  | .unary _ operand => Printable operand
  | .binary _ left right => Printable left ∧ Printable right
  | .conditional test yes no => Printable test ∧ Printable yes ∧ Printable no
  | .array items => ItemsPrintable items
  | .object entries => EntriesPrintable entries

def ItemsPrintable : List Expr → Prop
  | [] => True
  | e :: rest => Printable e ∧ ItemsPrintable rest

def EntriesPrintable : List (String × Expr) → Prop
  | [] => True
  | (_, e) :: rest => Printable e ∧ EntriesPrintable rest

end

variable {numeral} {e : Expr} {ps rest : List Piece} {s : Stratum}

theorem constants_named : ∀ entry ∈ constants, isName entry.1 = true ∧ entry.1 ∈ reservedWords := by
  simp only [constants, List.forall_mem_cons]
  decide

/-- A number whose numeral is a constant is not written in digits. -/
theorem not_digits_of_constant {x : Float} (listed : (String.ofList (numeral x), Value.number x) ∈ constants) :
    ¬ (numeral x).all Number.isDigit = true := by
  obtain ⟨c, tail, shown, start, -⟩ := exists_of_isName (constants_named _ listed).1
  rw [String.ofList_injective shown, List.all_cons, not_isDigit_of_isWordStart start]
  exact Bool.false_ne_true

/-! #### Tokens -/

theorem Derives.whole {ts : List Token} (derived : Derives (.expr s e) ts) : Derives (.expr .conditional e) ts :=
  derived.loosen (by cases s <;> decide)

theorem derives_parenthesized (derived : Derives (.expr (.ofExpr e) e) (ps.flatMap Piece.tokens)) :
    Derives (.expr s e) ((parenthesized ps).flatMap Piece.tokens) := by
  have shown : (parenthesized ps).flatMap Piece.tokens =
      .punct .openParen :: (ps.flatMap Piece.tokens ++ [.punct .closeParen]) := by
    simp [parenthesized, List.flatMap_append, Piece.tokens]
  rw [shown]
  exact (Derives.group derived.whole).loosen (by cases s <;> decide)

theorem derives_enclosed (derived : Derives (.expr (.ofExpr e) e) (ps.flatMap Piece.tokens)) :
    Derives (.expr s e) ((enclosed s e ps).flatMap Piece.tokens) := by
  rw [enclosed]
  split
  · next tight => exact derived.loosen tight
  · exact derives_parenthesized derived

theorem derives_literal {value : Value} (printable : LiteralPrintable numeral value) :
    Derives (.expr .primary (.literal value)) ([literalPiece numeral value].flatMap Piece.tokens) := by
  cases value with
  | string s => exact .text s
  | number x =>
    rw [literalPiece]
    rcases printable with ⟨-, digits, -⟩ | listed
    · rw [if_pos digits]
      exact .number x
    · rw [if_neg (not_digits_of_constant listed)]
      exact .constant listed
  | bool b => cases b <;> exact .constant (by simp [constants])
  | null | undefined => exact .constant (by simp [constants])
  | _ => exact absurd printable id

theorem tokens_unary (op : UnaryOp) : (unaryPieces op).flatMap Piece.tokens = [.of op] := by
  cases op <;> rfl

mutual

theorem derives_pieces : ∀ e : Expr, Printable numeral e →
    Derives (.expr (.ofExpr e) e) ((pieces numeral e).flatMap Piece.tokens)
  | .literal value, printable => by
    rw [pieces]
    exact derives_literal printable
  | .field name, _ => by
    rw [pieces]
    exact .field name
  | .member target name, printable => by
    have inside := derives_pieces target printable.1
    rw [pieces, List.flatMap_append, beforePoint]
    refine .member name ?_
    split
    · exact derives_parenthesized inside
    · exact derives_enclosed inside
  | .index target key, printable => by
    have first := derives_pieces target printable.1
    have second := derives_pieces key printable.2
    simp only [pieces, List.flatMap_append, List.flatMap_cons, List.flatMap_nil, Piece.tokens, List.cons_append,
      List.nil_append]
    exact .index (derives_enclosed first) second.whole
  | .unary op operand, printable => by
    have inside := derives_pieces operand printable
    rw [pieces, List.flatMap_append, tokens_unary]
    exact .unary op (derives_enclosed inside)
  | .binary op left right, printable => by
    have first := derives_pieces left printable.1
    have second := derives_pieces right printable.2
    simp only [pieces, List.flatMap_append, List.flatMap_cons, Piece.tokens, List.cons_append, List.nil_append]
    exact .binary op (derives_enclosed first) (derives_enclosed second)
  | .conditional test yes no, printable => by
    have first := derives_pieces test printable.1
    have second := derives_pieces yes printable.2.1
    have third := derives_pieces no printable.2.2
    simp only [pieces, List.flatMap_append, List.flatMap_cons, Piece.tokens, List.cons_append, List.nil_append]
    exact .conditional (derives_enclosed first) second.whole third.whole
  | .array items, printable => by
    have inside := derives_items items printable
    simp only [pieces, List.flatMap_append, List.flatMap_cons, List.flatMap_nil, Piece.tokens, List.cons_append,
      List.nil_append]
    exact .array inside
  | .object entries, printable => by
    have inside := derives_entries entries printable
    simp only [pieces, List.flatMap_append, List.flatMap_cons, List.flatMap_nil, Piece.tokens, List.cons_append,
      List.nil_append]
    exact .object inside

theorem derives_items : ∀ items : List Expr, ItemsPrintable numeral items →
    Derives (.items items) ((itemPieces numeral items).flatMap Piece.tokens)
  | [], _ => by
    rw [itemPieces]
    exact .noItems
  | [e], printable => by
    rw [itemPieces]
    exact .lastItem (derives_pieces e printable.1).whole
  | e :: f :: rest, printable => by
    have first := derives_pieces e printable.1
    have others := derives_items (f :: rest) printable.2
    simp only [itemPieces, List.flatMap_append, List.flatMap_cons, Piece.tokens, List.cons_append, List.nil_append]
    exact .item first.whole others

theorem derives_entries : ∀ entries : List (String × Expr), EntriesPrintable numeral entries →
    Derives (.entries entries) ((entryPieces numeral entries).flatMap Piece.tokens)
  | [], _ => by
    rw [entryPieces]
    exact .noEntries
  | [(key, e)], printable => by
    have value := derives_pieces e printable.1
    simp only [entryPieces, List.flatMap_cons, Piece.tokens, List.cons_append, List.nil_append]
    exact .lastEntry (.text key) value.whole
  | (key, e) :: f :: rest, printable => by
    have value := derives_pieces e printable.1
    have others := derives_entries (f :: rest) printable.2
    simp only [entryPieces, List.flatMap_append, List.flatMap_cons, Piece.tokens, List.cons_append, List.nil_append]
    exact .entry (.text key) value.whole others

end

/-! #### Characters -/

/-- A tree whose text may stand before a point: no operator is outermost, and it is no number in digits. -/
def TakesPoint (numeral : Float → List Char) (e : Expr) : Prop :=
  Stratum.access.power ≤ (Stratum.ofExpr e).power ∧ isDigits numeral e = false

/-- The text of a tree ends before `next`. -/
def EndsBefore (numeral : Float → List Char) (e : Expr) (next : Option Char) : Prop :=
  ∀ d ∈ next, isWordChar d = false ∧ (d = '.' → TakesPoint numeral e)

/-- The pieces fit before whatever their tree may end before. -/
def FitsBefore (numeral : Float → List Char) (e : Expr) (ps : List Piece) : Prop :=
  ∀ rest, Fits rest → EndsBefore numeral e (spell rest).head? → Fits (ps ++ rest)

/-- A character that can end any tree. -/
def Closing (next : Option Char) : Prop :=
  ∀ d ∈ next, isWordChar d = false ∧ d ≠ '.'

theorem closing_some {c : Char} (other : isWordChar c = false) (point : c ≠ '.') : Closing (some c) := by
  rintro d ⟨⟩
  exact ⟨other, point⟩

theorem Closing.endsBefore {next : Option Char} (closing : Closing next) : EndsBefore numeral e next :=
  fun d front => ⟨(closing d front).1, fun point => absurd point (closing d front).2⟩

theorem EndsBefore.closing {next : Option Char} (ends : EndsBefore numeral e next)
    (loose : (Stratum.ofExpr e).power < Stratum.access.power) : Closing next :=
  fun d front => ⟨(ends d front).1, fun point => Nat.not_le_of_gt loose ((ends d front).2 point).1⟩

theorem Fits.sign {p : Punct} (others : Fits rest) (other : p ≠ .dot) (stop : p.Stops (spell rest).head?) :
    Fits (.sign p :: rest) :=
  ⟨other, stop, others⟩

theorem Fits.blank (others : Fits rest) : Fits (.blank :: rest) :=
  ⟨trivial, trivial, others⟩

/-- An operator stands between blanks. -/
theorem Fits.operator {p : Punct} (others : Fits rest) (other : p ≠ .dot) :
    Fits (.blank :: .sign p :: .blank :: rest) := by
  refine (others.blank.sign other ?_).blank
  have front : (spell (.blank :: rest)).head? = some ' ' := rfl
  rw [front]
  have digit : ∀ d ∈ some ' ', Number.isDigit d = false := by
    rintro d ⟨⟩
    decide
  cases p <;> first | exact trivial | exact digit | (rintro ⟨⟩)

theorem FitsBefore.parenthesized (inside : FitsBefore numeral e ps) (others : Fits rest) :
    Fits (parenthesized ps ++ rest) := by
  rw [Expr.parenthesized, List.cons_append, List.append_assoc, List.singleton_append]
  have closed : Fits (.sign .closeParen :: rest) := others.sign (by decide) trivial
  exact (inside _ closed (closing_some (by decide) (by decide)).endsBefore).sign (by decide) trivial

theorem FitsBefore.enclosed (inside : FitsBefore numeral e ps) (others : Fits rest)
    (closing : Closing (spell rest).head?) :
    Fits (enclosed s e ps ++ rest) := by
  rw [Expr.enclosed]
  split
  · exact inside rest others closing.endsBefore
  · exact inside.parenthesized others

theorem FitsBefore.beforePoint (inside : FitsBefore numeral e ps) (others : Fits rest)
    (ends : ∀ d ∈ (spell rest).head?, isWordChar d = false) : Fits (beforePoint numeral e ps ++ rest) := by
  rw [Expr.beforePoint]
  split
  · exact inside.parenthesized others
  · next plain =>
    rw [Expr.enclosed]
    split
    · next tight => exact inside rest others fun d front => ⟨ends d front, fun _ => ⟨tight, by simpa using plain⟩⟩
    · exact inside.parenthesized others

theorem literal_valid {value : Value} (printable : LiteralPrintable numeral value) :
    (literalPiece numeral value).Valid := by
  cases value with
  | string s => trivial
  | number x =>
    rw [literalPiece]
    rcases printable with ⟨nonempty, digits, value⟩ | listed
    · rw [if_pos digits]
      exact ⟨nonempty, digits, value⟩
    · rw [if_neg (not_digits_of_constant listed)]
      exact constants_named _ listed
  | bool b => cases b <;> exact ⟨by decide, by decide⟩
  | null | undefined => exact ⟨by decide, by decide⟩
  | _ => exact absurd printable id

theorem Piece.Valid.front {p : Piece} (valid : p.Valid) (other : ∀ q, p ≠ .sign q) :
    ∃ d more, p.spelling = d :: more ∧ d ≠ '=' := by
  have named {w : String} (name : isName w = true) : ∃ d more, w.toList = d :: more ∧ d ≠ '=' := by
    obtain ⟨c, tail, rfl, start, -⟩ := exists_of_isName name
    refine ⟨c, tail, String.toList_ofList, ?_⟩
    rintro rfl
    exact absurd start (by decide)
  cases p with
  | blank => exact ⟨' ', [], rfl, by decide⟩
  | sign q => exact absurd rfl (other q)
  | word w => exact named valid.1
  | name w => exact named valid.1
  | member w => exact ⟨'.', _, rfl, by decide⟩
  | number digits x =>
    obtain ⟨nonempty, inside, -⟩ := valid
    obtain ⟨c, tail, rfl⟩ := List.exists_cons_of_ne_nil nonempty
    refine ⟨c, tail, rfl, ?_⟩
    rintro rfl
    simp [Number.isDigit] at inside
  | text s => exact ⟨'\'', _, rfl, by decide⟩

/-- Pieces whose text does not start with a sign that would join a negation before it. -/
def StartsApart (ps : List Piece) : Prop :=
  ∃ d more, spell ps = d :: more ∧ d ≠ '='

theorem StartsApart.enclosed (apart : StartsApart ps) : StartsApart (enclosed s e ps) := by
  rw [Expr.enclosed]
  split
  · exact apart
  · exact ⟨'(', _, rfl, by decide⟩

theorem StartsApart.append {qs : List Piece} (apart : StartsApart ps) : StartsApart (ps ++ qs) := by
  obtain ⟨d, more, shown, other⟩ := apart
  exact ⟨d, more ++ spell qs, by rw [spell, List.flatMap_append, ← spell, shown]; rfl, other⟩

theorem Piece.Valid.startsApart {p : Piece} (valid : p.Valid) (other : ∀ q, p ≠ .sign q) : StartsApart [p] := by
  rw [StartsApart, spell, List.flatMap_singleton]
  exact valid.front other

theorem startsApart_pieces : ∀ e : Expr, Printable numeral e → StartsApart (pieces numeral e)
  | .literal value, printable => by
    rw [pieces]
    refine (literal_valid printable).startsApart fun q => ?_
    cases value with
    | number x =>
      rw [literalPiece]
      split <;> rintro ⟨⟩
    | _ => rintro ⟨⟩
  | .field name, printable => by
    rw [pieces]
    exact Piece.Valid.startsApart (p := .name name) printable (by rintro q ⟨⟩)
  | .member target name, printable => by
    rw [pieces, beforePoint]
    refine StartsApart.append ?_
    split
    · exact ⟨'(', _, rfl, by decide⟩
    · exact (startsApart_pieces target printable.1).enclosed
  | .index target key, printable => by
    rw [pieces]
    exact (startsApart_pieces target printable.1).enclosed.append
  | .unary op operand, _ => by
    rw [pieces]
    refine StartsApart.append ?_
    cases op with
    | not => exact ⟨'!', _, rfl, by decide⟩
    | neg => exact ⟨'-', _, rfl, by decide⟩
    | plus => exact ⟨'+', _, rfl, by decide⟩
    | kind => exact ⟨'t', _, rfl, by decide⟩
  | .binary op left right, printable => by
    rw [pieces]
    exact (startsApart_pieces left printable.1).enclosed.append
  | .conditional test yes no, printable => by
    rw [pieces]
    exact (startsApart_pieces test printable.1).enclosed.append
  | .array items, _ => by
    rw [pieces]
    exact ⟨'[', _, rfl, by decide⟩
  | .object entries, _ => by
    rw [pieces]
    exact ⟨'\x7b', _, rfl, by decide⟩

theorem fits_literal {value : Value} (printable : LiteralPrintable numeral value) :
    FitsBefore numeral (.literal value) [literalPiece numeral value] := by
  intro rest others ends
  refine ⟨literal_valid printable, ?_, others⟩
  have word : ∀ d ∈ (spell rest).head?, isWordChar d = false := fun d front => (ends d front).1
  cases value with
  | string s => trivial
  | number x =>
    rw [literalPiece]
    split
    · next digits =>
      -- a number in digits does not take a point
      refine fun d front => ⟨word d front, fun point => ?_⟩
      have plain := ((ends d front).2 point).2
      rw [isDigits, digits] at plain
      cases plain
    · exact word
  | _ => exact word

theorem fits_unary {op : UnaryOp} (others : Fits rest) (apart : StartsApart rest) :
    Fits (unaryPieces op ++ rest) := by
  cases op with
  | not =>
    obtain ⟨d, more, shown, other⟩ := apart
    refine others.sign (by decide) ?_
    rw [shown]
    exact fun same => other (Option.some.inj same)
  | neg | plus => exact others.sign (by decide) trivial
  | kind => exact ⟨⟨by decide, by decide⟩, by rintro d ⟨⟩; decide, others.blank⟩

mutual

theorem fits_pieces : ∀ e : Expr, Printable numeral e → FitsBefore numeral e (pieces numeral e)
  | .literal value, printable => by
    rw [pieces]
    exact fits_literal printable
  | .field name, printable => by
    intro rest others ends
    rw [pieces]
    exact ⟨printable, fun d front => (ends d front).1, others⟩
  | .member target name, printable => by
    intro rest others ends
    have named : Fits (.member name :: rest) := ⟨printable.2, fun d front => (ends d front).1, others⟩
    rw [pieces, List.append_assoc]
    exact (fits_pieces target printable.1).beforePoint named (by rintro d ⟨⟩; decide)
  | .index target key, printable => by
    intro rest others ends
    have closed : Fits (.sign .closeBracket :: rest) := others.sign (by decide) trivial
    have inside := fits_pieces key printable.2 _ closed (closing_some (by decide) (by decide)).endsBefore
    rw [pieces, List.append_assoc, List.cons_append, List.append_assoc]
    exact (fits_pieces target printable.1).enclosed (inside.sign (by decide) trivial)
      (closing_some (by decide) (by decide))
  | .unary op operand, printable => by
    intro rest others ends
    have inside := fits_pieces operand printable
    rw [pieces, List.append_assoc]
    have closing := ends.closing (show Stratum.unary.power < Stratum.access.power by decide)
    refine fits_unary (inside.enclosed others closing) ?_
    exact (startsApart_pieces operand printable).enclosed.append
  | .binary op left right, printable => by
    intro rest others ends
    -- the right operand ends where the whole tree does, so that no point follows it
    have loose : (Stratum.of op).power < Stratum.access.power := by cases op <;> decide
    have second := (fits_pieces right printable.2).enclosed (s := (Stratum.of op).tighter) others (ends.closing loose)
    rw [pieces, List.append_assoc]
    exact (fits_pieces left printable.1).enclosed (second.operator (by cases op <;> decide))
      (closing_some (by decide) (by decide))
  | .conditional test yes no, printable => by
    intro rest others ends
    have closing := ends.closing (show Stratum.conditional.power < Stratum.access.power by decide)
    have third := fits_pieces no printable.2.2 rest others closing.endsBefore
    have second := fits_pieces yes printable.2.1 _ (third.operator (p := .colon) (by decide))
      (closing_some (by decide) (by decide)).endsBefore
    have first := (fits_pieces test printable.1).enclosed (s := .or) (second.operator (p := .question) (by decide))
      (closing_some (by decide) (by decide))
    rw [pieces]
    simpa using first
  | .array items, printable => by
    intro rest others ends
    have closed : Fits (.sign .closeBracket :: rest) := others.sign (by decide) trivial
    rw [pieces, List.cons_append, List.append_assoc]
    exact (fits_items items printable _ closed (closing_some (by decide) (by decide))).sign (by decide) trivial
  | .object entries, printable => by
    intro rest others ends
    have closed : Fits (.sign .closeBrace :: rest) := others.sign (by decide) trivial
    rw [pieces, List.cons_append, List.append_assoc]
    exact (fits_entries entries printable _ closed (closing_some (by decide) (by decide))).sign (by decide) trivial

theorem fits_items : ∀ items : List Expr, ItemsPrintable numeral items → ∀ rest, Fits rest →
    Closing (spell rest).head? → Fits (itemPieces numeral items ++ rest)
  | [], _ => by
    intro rest others closing
    rw [itemPieces]
    exact others
  | [e], printable => by
    intro rest others closing
    rw [itemPieces]
    exact fits_pieces e printable.1 rest others closing.endsBefore
  | e :: f :: more, printable => by
    intro rest others closing
    have behind := fits_items (f :: more) printable.2 rest others closing
    have comma : Fits (.sign .comma :: .blank :: _) := behind.blank.sign (by decide) trivial
    rw [itemPieces, List.append_assoc]
    exact fits_pieces e printable.1 _ comma (closing_some (by decide) (by decide)).endsBefore

theorem fits_entries : ∀ entries : List (String × Expr), EntriesPrintable numeral entries → ∀ rest, Fits rest →
    Closing (spell rest).head? → Fits (entryPieces numeral entries ++ rest)
  | [], _ => by
    intro rest others closing
    rw [entryPieces]
    exact others
  | [(key, e)], printable => by
    intro rest others closing
    have value := fits_pieces e printable.1 rest others closing.endsBefore
    rw [entryPieces]
    exact ⟨trivial, trivial, value.blank.sign (by decide) trivial⟩
  | (key, e) :: f :: more, printable => by
    intro rest others closing
    have behind := fits_entries (f :: more) printable.2 rest others closing
    have comma : Fits (.sign .comma :: .blank :: _) := behind.blank.sign (by decide) trivial
    have value := fits_pieces e printable.1 _ comma (closing_some (by decide) (by decide)).endsBefore
    rw [entryPieces]
    simp only [List.cons_append, List.append_assoc]
    exact ⟨trivial, trivial, value.blank.sign (by decide) trivial⟩

end

/-- Every tree that can be written is read back from its text. -/
theorem ofText_print (printable : Printable numeral e) :
    Expression.ofText (print numeral e) = .ok ⟨scopedText (print numeral e), e⟩ := by
  have fits := fits_pieces e printable [] trivial (by rintro d ⟨⟩)
  rw [List.append_nil] at fits
  have lexes : Lexes (scopeFrom .plain none (print numeral e).toList)
      ((pieces numeral e).flatMap Piece.tokens ++ [.eof]) := by
    rw [print, String.toList_ofList]
    exact fits.lexes (by rintro ⟨⟩)
  exact lexes.ofText (derives_pieces e printable).whole

end trees

/-- Numbers by their texts. -/
def textNumeral (x : Float) : List Char :=
  (Number.text x).toList

/-- A tree in which every kind of node stands. -/
def variedTree : Expr :=
  .conditional
    (.binary .or (.unary .not (.binary .le (.field "context") (.literal (.number (Float.ofNat 12)))))
      (.unary .kind (.member (.literal (.number (Float.ofNat 7))) "typeof")))
    (.binary .sub (.field "e5") (.binary .sub (.field "$a") (.literal (.number (0.0 / 0.0)))))
    (.index (.object [("it's\n", .array [.literal .undefined, .literal (.bool true)]), ("", .field "x_1")])
      (.literal (.string "a\\'")))

theorem variedTree_ofText_print :
    Printable textNumeral variedTree ∧
    print textNumeral variedTree = "!(context <= 12) || typeof (7).typeof ? e5 - ($a - NaN) : " ++
      "\x7b'it\\u0027s\\u000a': [undefined, true], '': x_1\x7d['a\\u005c\\u0027']" ∧
    Expression.ofText (print textNumeral variedTree) = .ok ⟨scopedText (print textNumeral variedTree), variedTree⟩ := by
  have twelve : HasNumeral textNumeral (Float.ofNat 12) := .inl (by decide +kernel)
  have seven : HasNumeral textNumeral (Float.ofNat 7) := .inl (by decide +kernel)
  have nan : HasNumeral textNumeral (0.0 / 0.0) := by
    have shown : String.ofList (textNumeral (0.0 / 0.0)) = "NaN" := by decide +kernel
    right
    simp [shown, constants]
  have fields : ∀ w ∈ ["context", "e5", "$a", "x_1"], isName w = true ∧ w ∉ reservedWords := by decide +kernel
  have member : isName "typeof" = true := by decide +kernel
  have printable : Printable textNumeral variedTree := by
    simp [variedTree, Printable, ItemsPrintable, EntriesPrintable, LiteralPrintable, twelve, seven, nan, fields, member]
  refine ⟨printable, ?_, ofText_print printable⟩
  decide +kernel

end Stencil.Expr
