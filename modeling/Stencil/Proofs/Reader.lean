import Mathlib.Data.List.Forall2
import Stencil.Proofs.Building
import Stencil.Proofs.Fields
import Stencil.Proofs.Lexing

/-!
What is relied on when markup is read: markup that is put together from tags, texts and references is split into
them again, and references to ampersands and quotes in values are decoded (`Reader.Faithful`). `Markup.read` does so
(`read_faithful`); it scans each piece as its own event, whatever follows.
-/
namespace Stencil.Markup

open Stateful

/-! ### Names -/

/-- A character that a name may start with. All characters beyond ASCII count as letters. -/
def isNameLetter (c : Char) : Bool :=
  c.isAlpha || c == '_' || c == ':' || decide (128 ≤ c.toNat)

/-- A character of a name. -/
def isNameChar (c : Char) : Bool :=
  isNameLetter c || c.isDigit || c == '-' || c == '.'

/-- A plain name of a tag or an attribute. -/
def isName (s : String) : Bool :=
  match s.toList with
  | [] => false
  | c :: rest => isNameLetter c && rest.all isNameChar

/-- Characters that have a meaning in tags. -/
def tagMarks : List Char :=
  [' ', '\t', '\r', '\n', '=', '"', '\'', '>', '<', '/', '!', '?', '&']

theorem isNameChar_mark : tagMarks.any isNameChar = false := by decide

theorem ne_of_isNameChar {c : Char} (mark : Char) (plain : isNameChar c = true) (marked : mark ∈ tagMarks) :
    c ≠ mark := by
  rintro rfl
  exact List.any_eq_false.mp isNameChar_mark c marked plain

theorem isTagSpace_of_isNameChar {c : Char} (plain : isNameChar c = true) : isTagSpace c = false := by
  have space := ne_of_isNameChar ' ' plain (by decide)
  have tab := ne_of_isNameChar '\t' plain (by decide)
  have carriage := ne_of_isNameChar '\r' plain (by decide)
  have line := ne_of_isNameChar '\n' plain (by decide)
  simp [isTagSpace, space, tab, carriage, line]

/-- A name is not empty and has only characters of names. -/
theorem isName_toList {s : String} (name : isName s = true) :
    ∃ c rest, s.toList = c :: rest ∧ ∀ d ∈ c :: rest, isNameChar d = true := by
  unfold isName at name
  cases spelled : s.toList with
  | nil => simp [spelled] at name
  | cons c rest =>
    simp only [spelled, Bool.and_eq_true, List.all_eq_true] at name
    refine ⟨c, rest, rfl, List.forall_mem_cons.mpr ⟨?_, name.2⟩⟩
    simp [isNameChar, name.1]

/-! ### Pieces of markup -/

/-- A part of markup that makes one event. Values stand as they are written between double quotes. -/
inductive Piece where
  | start (name : String) (attributes : List (String × List Char))
  | close (name : String)
  | text (s : List Char)
  | reference (name : List Char)

/-- An attribute with a space before it. -/
def spelledAttribute (a : String × List Char) : List Char :=
  ' ' :: (a.1.toList ++ '=' :: '"' :: (a.2 ++ ['"']))

/-- A start tag without its angle brackets. -/
def spelledTag (name : String) (attributes : List (String × List Char)) : List Char :=
  name.toList ++ attributes.flatMap spelledAttribute

namespace Piece

/-- The piece as it stands in markup. -/
def spelling : Piece → List Char
  | start name attributes => '<' :: (spelledTag name attributes ++ ['>'])
  | close name => '<' :: '/' :: (name.toList ++ ['>'])
  | text s => s
  | reference name => '&' :: (name ++ [';'])

/-- The piece is a run of text. -/
def isText : Piece → Bool
  | text _ => true
  | _ => false

/-- The number of open elements after a piece. -/
def depthAfter (depth : Nat) : Piece → Nat
  | start _ _ => depth + 1
  | close _ => depth - 1
  | _ => depth

/-- The piece may stand in markup before `next` where `depth` elements are open. Its characters have no other
    meaning and are none that readers may change. -/
def Fits (depth : Nat) (next : Option Piece) : Piece → Prop
  | start name attributes =>
    isName name = true ∧ (attributes.map Prod.fst).Nodup ∧
      ∀ a ∈ attributes, isName a.1 = true ∧ ∀ c ∈ a.2, c ∉ ['"', '<', '\t', '\r', '\n']
  | close name => 0 < depth ∧ isName name = true
  | text s => s ≠ [] ∧ (∀ c ∈ s, c ∉ ['<', '&', '\r']) ∧ next.all (!·.isText) = true
  | reference name => ∀ c ∈ name, c ∉ [';', '&', '<', '\r']

end Piece

/-- The pieces may follow each other in markup where `depth` elements are open. -/
def Proper (depth : Nat) : List Piece → Prop
  | [] => True
  | piece :: rest => piece.Fits depth rest.head? ∧ Proper (piece.depthAfter depth) rest

/-- The second value is the first with its references to ampersands and quotes resolved. -/
inductive Decodes : List Char → List Char → Prop
  | nil : Decodes [] []
  | ampersand {rest value : List Char} (others : Decodes rest value) : Decodes ("&amp;".toList ++ rest) ('&' :: value)
  | quote {rest value : List Char} (others : Decodes rest value) : Decodes ("&quot;".toList ++ rest) ('"' :: value)
  | other {c : Char} {rest value : List Char} (plain : c ≠ '&') (others : Decodes rest value) :
    Decodes (c :: rest) (c :: value)

/-- The attribute is read with its key and its value, and the value is decoded. -/
def ReadsAttribute (a : String × List Char) (read : Except (Nat × AttributeFault) WrittenAttribute) : Prop :=
  ∃ decoded, read = .ok ⟨a.1, a.2, decoded⟩ ∧ ∀ value, Decodes a.2 value → decoded = .ok value

/-- The event says what the piece says. -/
inductive Piece.ReadsAs : Piece → Event → Prop
  | start {name : String} {attributes : List (String × List Char)} {tag : Tag} (named : tag.name = name)
    (each : List.Forall₂ ReadsAttribute attributes tag.attributes) : ReadsAs (.start name attributes) (.start tag)
  | close (name : String) : ReadsAs (.close name) (.close name)
  | text (s : List Char) : ReadsAs (.text s) (.text (String.ofList s))
  | reference (name : List Char) : ReadsAs (.reference name) (.reference (String.ofList name))

/-- A reader that can be relied on. -/
structure Reader.Faithful (reader : Reader) : Prop where
  /-- Markup that starts with a tag is split into its pieces, up to its end. -/
  splits : ∀ name attributes rest, Proper 0 (.start name attributes :: rest) →
    ∃ events stop,
      reader (String.ofList ((Piece.start name attributes :: rest).flatMap Piece.spelling)) =
        ⟨events, .complete stop⟩ ∧
      List.Forall₂ Piece.ReadsAs (.start name attributes :: rest) (events.map Prod.snd)
  /-- White space is text. -/
  blank : ∀ source, Text.isBlankText source = true → ∀ entry ∈ (reader source).events, ∃ s, entry.2 = .text s

/-! ### Where tags end -/

/-- The characters close no tag and leave no quote open. -/
def Enclosed (cs : List Char) : Prop :=
  ∀ rest, tagWidth none (cs ++ rest) = (tagWidth none rest).map (· + cs.length)

theorem Enclosed.append {first second : List Char} (before : Enclosed first) (after : Enclosed second) :
    Enclosed (first ++ second) := by
  intro rest
  rw [List.append_assoc, before, after]
  cases tagWidth none rest with
  | error quote => rfl
  | ok width =>
    simp only [Except.map, List.length_append, Except.ok.injEq]
    omega

theorem enclosed_nil : Enclosed [] := by
  intro rest
  rw [List.nil_append]
  cases tagWidth none rest <;> rfl

theorem Enclosed.flatMap {α : Type} {f : α → List Char} {items : List α} (each : ∀ a ∈ items, Enclosed (f a)) :
    Enclosed (items.flatMap f) := by
  induction items with
  | nil => exact enclosed_nil
  | cons a rest ih =>
    obtain ⟨first, others⟩ := List.forall_mem_cons.mp each
    rw [List.flatMap_cons]
    exact first.append (ih others)

theorem enclosed_char {c : Char} (bracket : c ≠ '>') (double : c ≠ '"') (single : c ≠ '\'') : Enclosed [c] := by
  intro rest
  simp [tagWidth, bracket, double, single]

theorem enclosed_plain {cs : List Char} (plain : ∀ c ∈ cs, isNameChar c = true) : Enclosed cs := by
  rw [← List.flatMap_singleton' cs]
  refine .flatMap fun c among => ?_
  have name := plain c among
  exact enclosed_char (ne_of_isNameChar '>' name (by decide)) (ne_of_isNameChar '"' name (by decide))
    (ne_of_isNameChar '\'' name (by decide))

theorem tagWidth_quoted {value : List Char} (inside : '"' ∉ value) (rest : List Char) :
    tagWidth (some '"') (value ++ '"' :: rest) = (tagWidth none rest).map (· + (value.length + 1)) := by
  induction value with
  | nil => simp [tagWidth]
  | cons c value ih =>
    rw [List.mem_cons, not_or] at inside
    rw [List.cons_append, tagWidth, if_neg (Ne.symm inside.1), ih inside.2]
    cases tagWidth none rest with
    | error quote => rfl
    | ok width => simp [Except.map, Nat.add_assoc]

theorem enclosed_quoted {value : List Char} (inside : '"' ∉ value) : Enclosed ('"' :: (value ++ ['"'])) := by
  intro rest
  rw [List.cons_append, List.append_assoc, List.singleton_append, tagWidth, tagWidth_quoted inside]
  cases tagWidth none rest with
  | error quote => simp [Except.map]
  | ok width => simp [Except.map, Nat.add_assoc]

theorem tagWidth_of_enclosed {cs : List Char} (enclosed : Enclosed cs) (rest : List Char) :
    tagWidth none (cs ++ '>' :: rest) = .ok cs.length := by
  rw [enclosed]
  simp [tagWidth, Except.map]

theorem enclosed_attribute {a : String × List Char} (named : isName a.1 = true) (inside : '"' ∉ a.2) :
    Enclosed (spelledAttribute a) := by
  obtain ⟨c, rest, spelled, plain⟩ := isName_toList named
  rw [← spelled] at plain
  have space : Enclosed [' '] := enclosed_char (by decide) (by decide) (by decide)
  have equals : Enclosed ['='] := enclosed_char (by decide) (by decide) (by decide)
  exact space.append ((enclosed_plain plain).append (equals.append (enclosed_quoted inside)))

theorem enclosed_tag {name : String} {attributes : List (String × List Char)} (named : isName name = true)
    (plain : ∀ a ∈ attributes, isName a.1 = true ∧ '"' ∉ a.2) : Enclosed (spelledTag name attributes) := by
  obtain ⟨c, rest, spelled, chars⟩ := isName_toList named
  rw [← spelled] at chars
  refine (enclosed_plain chars).append (.flatMap fun a among => ?_)
  exact enclosed_attribute (plain a among).1 (plain a among).2

/-! ### Tags as events -/

theorem scanEvent_tag {c : Char} (mark : c ≠ '!') (question : c ≠ '?') (depth offset : Nat) (rest : List Char) :
    scanEvent depth offset '<' (c :: rest) = scanTagEvent depth offset (c :: rest) := by
  unfold scanEvent
  split <;> simp_all

/-- A start tag does not begin or end as another construct does. -/
theorem spelledTag_ends {name : String} (attributes : List (String × List Char)) (named : isName name = true) :
    ∃ c rest, spelledTag name attributes = c :: rest ∧ c ≠ '!' ∧ c ≠ '?' ∧ c ≠ '/' ∧
      (spelledTag name attributes).getLast? ≠ some '/' := by
  obtain ⟨c, rest, spelled, chars⟩ := isName_toList named
  have first := chars c List.mem_cons_self
  refine ⟨c, rest ++ attributes.flatMap spelledAttribute, ?_, ne_of_isNameChar '!' first (by decide),
    ne_of_isNameChar '?' first (by decide), ne_of_isNameChar '/' first (by decide), ?_⟩
  · rw [spelledTag, spelled, List.cons_append]
  · rcases List.eq_nil_or_concat attributes with rfl | ⟨before, last, rfl⟩
    · rw [spelledTag, List.flatMap_nil, List.append_nil, spelled]
      intro slash
      exact ne_of_isNameChar '/' (chars '/' (List.mem_of_getLast? slash)) (by decide) rfl
    · rw [spelledTag, List.concat_eq_append, List.flatMap_append, List.flatMap_singleton, spelledAttribute]
      simp only [← List.cons_append, ← List.append_assoc, List.getLast?_concat]
      decide

/-- A start tag is read as such whatever follows it. -/
theorem scanEvent_start {name : String} {attributes : List (String × List Char)} (named : isName name = true)
    (plain : ∀ a ∈ attributes, isName a.1 = true ∧ '"' ∉ a.2) (depth offset : Nat) (rest : List Char) :
    scanEvent depth offset '<' (spelledTag name attributes ++ '>' :: rest) =
      .ok (.start (scanTag (spelledTag name attributes)), (spelledTag name attributes).length + 1) := by
  have width := tagWidth_of_enclosed (enclosed_tag named plain) rest
  obtain ⟨c, tail, spelled, mark, question, slash, last⟩ := spelledTag_ends attributes named
  rw [spelled] at width last ⊢
  rw [List.cons_append, scanEvent_tag mark question, ← List.cons_append, scanTagEvent, width]
  simp only [List.take_left]
  split
  · simp_all
  · rw [if_neg last]

theorem closingName_of_name {name : String} (named : isName name = true) : closingName name.toList = name.toList := by
  obtain ⟨c, rest, spelled, chars⟩ := isName_toList named
  have space (d : Char) (among : d ∈ name.toList) : isTagSpace d = false :=
    isTagSpace_of_isNameChar (chars d (spelled ▸ among))
  have some : ¬ name.toList.all isTagSpace = true := by
    rw [spelled, List.all_cons, isTagSpace_of_isNameChar (chars c List.mem_cons_self), Bool.false_and]
    decide
  rw [closingName, if_neg some]
  have reversed : name.toList.reverse.dropWhile isTagSpace = name.toList.reverse := by
    cases backwards : name.toList.reverse with
    | nil => rfl
    | cons d others =>
      rw [List.dropWhile_cons_of_neg]
      rw [space d (List.mem_reverse.mp (backwards ▸ List.mem_cons_self))]
      decide
  rw [reversed, List.reverse_reverse]

/-- A closing tag is read as such whatever follows it. -/
theorem scanEvent_close {name : String} (named : isName name = true) (depth offset : Nat) (rest : List Char) :
    scanEvent (depth + 1) offset '<' ('/' :: (name.toList ++ '>' :: rest)) =
      .ok (.close name, name.toList.length + 2) := by
  obtain ⟨c, tail, spelled, chars⟩ := isName_toList named
  rw [← spelled] at chars
  have slash : Enclosed ['/'] := enclosed_char (by decide) (by decide) (by decide)
  have width := tagWidth_of_enclosed (slash.append (enclosed_plain chars)) rest
  rw [scanEvent_tag (by decide) (by decide)]
  simp only [List.cons_append, List.nil_append] at width
  rw [scanTagEvent, width]
  simp only [List.length_cons, List.take_succ_cons, List.take_left, closingName_of_name named]
  rw [if_neg (Nat.succ_ne_zero depth), String.ofList_toList]

theorem scanEvent_reference {name : List Char} (inside : ∀ d ∈ name, (d ≠ ';' ∧ d ≠ '&') ∧ d ≠ '<')
    (depth offset : Nat) (rest : List Char) :
    scanEvent depth offset '&' (name ++ ';' :: rest) = .ok (.reference (String.ofList name), name.length + 1) := by
  have kept : (name ++ ';' :: rest).takeWhile (fun d => d != ';' && d != '&' && d != '<') = name :=
    Expr.takeWhile_append (fun d among => by simp [inside d among]) (by simp)
  simp only [scanEvent, kept]
  rw [if_pos (by simp)]

theorem scanEvent_text {c : Char} {tail rest : List Char} (less : c ≠ '<') (ampersand : c ≠ '&')
    (inside : ∀ d ∈ tail, d ≠ '<' ∧ d ≠ '&') (stop : ∀ d ∈ rest.head?, d = '<' ∨ d = '&') (depth offset : Nat) :
    scanEvent depth offset c (tail ++ rest) = .ok (.text (String.ofList (c :: tail)), tail.length) := by
  have kept : (tail ++ rest).takeWhile (fun d => d != '<' && d != '&') = tail := by
    refine Expr.takeWhile_append (fun d among => by simp [inside d among]) fun d front => ?_
    rcases stop d front with rfl | rfl <;> rfl
  unfold scanEvent
  split
  · exact absurd rfl less
  · exact absurd rfl less
  · exact absurd rfl less
  · exact absurd rfl ampersand
  · simp only [kept]

/-! ### Attributes -/

theorem decodeFrom_of_decodes {cs value : List Char} (decodes : Decodes cs value) (total offset : Nat) :
    decodeFrom total 0 offset cs = .ok value := by
  induction decodes generalizing offset with
  | nil => rfl
  | @ampersand rest value _ ih =>
    show decodeFrom total 0 offset ('&' :: 'a' :: 'm' :: 'p' :: ';' :: rest) = _
    simp [decodeFrom, referencedChar, namedChar?, ih]
    rfl
  | @quote rest value _ ih =>
    show decodeFrom total 0 offset ('&' :: 'q' :: 'u' :: 'o' :: 't' :: ';' :: rest) = _
    simp [decodeFrom, referencedChar, namedChar?, ih]
    rfl
  | other plain _ ih =>
    rw [decodeFrom, if_neg plain, ih]
    rfl

/-- An attribute is scanned as it is written, whatever follows it. -/
theorem scanAttribute_spelled {length position : Nat} {seen : List (String × Nat)} {name : String} {c : Char}
    {tail value : List Char} (spelled : name.toList = c :: tail) (plain : ∀ d ∈ tail, isNameChar d = true)
    (fresh : seen.lookup name = none) (inside : '"' ∉ value) (rest : List Char) :
    scanAttribute length seen position c (tail ++ '=' :: '"' :: (value ++ '"' :: rest)) =
      .ok (⟨name, value, decodeValue value⟩, tail.length + value.length + 4) := by
  have key : (tail ++ '=' :: '"' :: (value ++ '"' :: rest)).takeWhile (fun d => d != '=' && !isTagSpace d) = tail := by
    refine Expr.takeWhile_append (fun d among => ?_) (by simp)
    simp [ne_of_isNameChar '=' (plain d among) (by decide), isTagSpace_of_isNameChar (plain d among)]
  have quoted : (value ++ '"' :: rest).takeWhile (· != '"') = value := by
    refine Expr.takeWhile_append (fun d among => ?_) (by simp)
    simpa using fun same : d = '"' => inside (same ▸ among)
  have spaces (d : Char) (more : List Char) (other : isTagSpace d = false) : (d :: more).takeWhile isTagSpace = [] :=
    List.takeWhile_cons_of_neg (by simp [other])
  have named : String.ofList (c :: tail) = name := by rw [← spelled, String.ofList_toList]
  have longer : value.length ≠ (value ++ '"' :: rest).length := by simp
  simp only [scanAttribute, key, List.drop_left, spaces '=' _ rfl, List.length_nil, List.drop_zero, named, fresh,
    spaces '"' _ rfl, quoted]
  rw [if_pos (.inl trivial), if_neg longer]
  simp only [pure, Except.pure, Except.ok.injEq, Prod.mk.injEq, true_and]
  omega

theorem attributesFrom_skip (length : Nat) (seen : List (String × Nat)) (piece rest : List Char) (position : Nat) :
    ∃ later, attributesFrom length piece.length seen position (piece ++ rest) =
      attributesFrom length 0 seen later rest := by
  induction piece generalizing position with
  | nil => exact ⟨position, rfl⟩
  | cons c piece ih => exact ih (position + c.utf8Size)

/-- An attribute whose name is not there already is read as it is written, and reading goes on after it. -/
theorem attributesFrom_attribute (length : Nat) {a : String × List Char} (named : isName a.1 = true)
    (inside : '"' ∉ a.2) {seen : List (String × Nat)} (fresh : a.1 ∉ seen.map Prod.fst) (position : Nat)
    (more : List Char) :
    ∃ place later, attributesFrom length 0 seen position (spelledAttribute a ++ more) =
      .ok ⟨a.1, a.2, decodeValue a.2⟩ :: attributesFrom length 0 (seen ++ [(a.1, place)]) later more := by
  obtain ⟨c, tail, spelled, chars⟩ := isName_toList named
  obtain ⟨first, tails⟩ := List.forall_mem_cons.mp chars
  -- what follows the first character of the name, and where it is
  let body := tail ++ '=' :: '"' :: (a.2 ++ ['"'])
  let place := position + ' '.utf8Size
  obtain ⟨later, skipped⟩ := attributesFrom_skip length (seen ++ [(a.1, place)]) body more (place + c.utf8Size)
  refine ⟨place, later, ?_⟩
  have layout : spelledAttribute a ++ more = ' ' :: c :: (body ++ more) := by
    simp [spelledAttribute, spelled, body]
  have scanned : scanAttribute length seen place c (body ++ more) =
      .ok (⟨a.1, a.2, decodeValue a.2⟩, body.length + 1) := by
    have regroup : body ++ more = tail ++ '=' :: '"' :: (a.2 ++ '"' :: more) := by
      simp [body]
    rw [regroup, scanAttribute_spelled spelled tails (Fields.get?_eq_none.mpr fresh) inside]
    simp only [body, List.length_append, List.length_cons, List.length_nil, Except.ok.injEq, Prod.mk.injEq, true_and]
    omega
  have letter : ¬isTagSpace c = true := by simp [isTagSpace_of_isNameChar first]
  rw [layout, attributesFrom, if_pos (by rfl), attributesFrom, if_neg letter, scanned]
  dsimp only
  rw [Nat.add_sub_cancel, skipped]

theorem attributesFrom_spelled (length : Nat) {attributes : List (String × List Char)}
    (plain : ∀ a ∈ attributes, isName a.1 = true ∧ '"' ∉ a.2) (distinct : (attributes.map Prod.fst).Nodup)
    (seen : List (String × Nat)) (fresh : ∀ a ∈ attributes, a.1 ∉ seen.map Prod.fst) (position : Nat) :
    List.Forall₂ ReadsAttribute attributes
      (attributesFrom length 0 seen position (attributes.flatMap spelledAttribute)) := by
  induction attributes generalizing seen position with
  | nil => exact .nil
  | cons a rest ih =>
    obtain ⟨⟨named, inside⟩, others⟩ := List.forall_mem_cons.mp plain
    obtain ⟨unseen, unseenLater⟩ := List.forall_mem_cons.mp fresh
    obtain ⟨once, apart⟩ := List.nodup_cons.mp distinct
    obtain ⟨place, later, read⟩ :=
      attributesFrom_attribute length named inside unseen position (rest.flatMap spelledAttribute)
    have freshLater : ∀ b ∈ rest, b.1 ∉ (seen ++ [(a.1, place)]).map Prod.fst := by
      intro b among found
      rw [List.map_append, List.mem_append, List.map_singleton, List.mem_singleton] at found
      rcases found with old | same
      · exact unseenLater b among old
      · exact once (List.mem_map.mpr ⟨b, among, same⟩)
    rw [List.flatMap_cons, read]
    refine .cons ⟨_, rfl, fun value decodes => ?_⟩ (ih others apart _ freshLater later)
    exact decodeFrom_of_decodes decodes _ _

/-- A start tag is scanned as it is written. -/
theorem scanTag_spelled {name : String} {attributes : List (String × List Char)} (named : isName name = true)
    (plain : ∀ a ∈ attributes, isName a.1 = true ∧ '"' ∉ a.2) (distinct : (attributes.map Prod.fst).Nodup) :
    Piece.ReadsAs (.start name attributes) (.start (scanTag (spelledTag name attributes))) := by
  obtain ⟨c, rest, spelled, chars⟩ := isName_toList named
  rw [← spelled] at chars
  have key : (spelledTag name attributes).takeWhile (fun c => !isTagSpace c) = name.toList := by
    refine Expr.takeWhile_append (fun d among => by simp [isTagSpace_of_isNameChar (chars d among)]) fun d front => ?_
    cases attributes with
    | nil => cases front
    | cons a others =>
      obtain rfl : ' ' = d := by simpa [spelledAttribute] using front
      rfl
  refine .start ?_ ?_
  · rw [scanTag, key, String.ofList_toList]
  · rw [scanTag, key, spelledTag, List.drop_left]
    exact attributesFrom_spelled _ plain distinct [] (fun a _ => List.not_mem_nil) _

/-! ### Reading -/

/-- The characters are read as the pieces up to their end. -/
def Splits (depth : Nat) (cs : List Char) (pieces : List Piece) : Prop :=
  ∀ offset, ∃ placed stop, readFrom 0 depth offset cs = ⟨placed, .complete stop⟩ ∧
    List.Forall₂ Piece.ReadsAs pieces (placed.map Prod.snd)

theorem splits_nil (depth : Nat) : Splits depth [] [] :=
  fun offset => ⟨[], offset, rfl, .nil⟩

theorem readFrom_skip (depth : Nat) (piece rest : List Char) (offset : Nat) :
    ∃ later, readFrom piece.length depth offset (piece ++ rest) = readFrom 0 depth later rest := by
  induction piece generalizing offset with
  | nil => exact ⟨offset, rfl⟩
  | cons c piece ih => exact ih (offset + c.utf8Size)

theorem Splits.cons {depth : Nat} {c : Char} {tail rest : List Char} {event : Event} {piece : Piece}
    {pieces : List Piece} (reads : piece.ReadsAs event)
    (scanned : ∀ offset, scanEvent depth offset c (tail ++ rest) = .ok (event, tail.length))
    (others : Splits (event.depthAfter depth) rest pieces) :
    Splits depth (c :: (tail ++ rest)) (piece :: pieces) := by
  intro offset
  obtain ⟨later, skipped⟩ := readFrom_skip (event.depthAfter depth) tail rest (offset + c.utf8Size)
  obtain ⟨placed, stop, read, same⟩ := others later
  refine ⟨(offset, event) :: placed, stop, ?_, .cons reads same⟩
  rw [readFrom, scanned]
  dsimp only
  rw [skipped, read]
  rfl

/-- What follows a run of text starts with a mark. -/
theorem head?_spelling {pieces : List Piece} (apart : pieces.head?.all (!·.isText) = true) :
    ∀ d ∈ (pieces.flatMap Piece.spelling).head?, d = '<' ∨ d = '&' := by
  cases pieces with
  | nil => rintro d ⟨⟩
  | cons piece rest =>
    intro d first
    cases piece with
    | text s => cases apart
    | start name attributes => exact .inl (Option.some.inj first).symm
    | close name => exact .inl (Option.some.inj first).symm
    | reference name => exact .inr (Option.some.inj first).symm

/-- Proper pieces are read one after the other. -/
theorem splits_of_proper {depth : Nat} {pieces : List Piece} (proper : Proper depth pieces) :
    Splits depth (pieces.flatMap Piece.spelling) pieces := by
  induction pieces generalizing depth with
  | nil => exact splits_nil depth
  | cons piece rest ih =>
    obtain ⟨fits, later⟩ := proper
    have others := ih later
    rw [List.flatMap_cons]
    cases piece with
    | start name attributes =>
      obtain ⟨named, distinct, values⟩ := fits
      have plain : ∀ a ∈ attributes, isName a.1 = true ∧ '"' ∉ a.2 := fun a among =>
        ⟨(values a among).1, fun quote => (values a among).2 '"' quote (by decide)⟩
      rw [Piece.spelling, List.cons_append]
      refine .cons (scanTag_spelled named plain distinct) (fun offset => ?_) others
      rw [List.append_assoc, List.singleton_append, scanEvent_start named plain, List.length_append]
      rfl
    | close name =>
      obtain ⟨inside, named⟩ := fits
      obtain ⟨outer, rfl⟩ := Nat.exists_eq_add_one.mpr inside
      rw [Piece.spelling, List.cons_append]
      refine .cons (.close name) (fun offset => ?_) others
      rw [List.cons_append, List.append_assoc, List.singleton_append, scanEvent_close named]
      simp
    | text s =>
      obtain ⟨filled, chars, apart⟩ := fits
      obtain ⟨c, tail, rfl⟩ := List.exists_cons_of_ne_nil filled
      have marks : ∀ d ∈ c :: tail, d ≠ '<' ∧ d ≠ '&' := by
        intro d among
        have plain := chars d among
        simp only [List.mem_cons, not_or] at plain
        exact ⟨plain.1, plain.2.1⟩
      obtain ⟨⟨less, ampersand⟩, inside⟩ := List.forall_mem_cons.mp marks
      rw [Piece.spelling, List.cons_append]
      exact .cons (.text _) (fun offset => scanEvent_text less ampersand inside (head?_spelling apart) _ _) others
    | reference name =>
      have inside : ∀ d ∈ name, (d ≠ ';' ∧ d ≠ '&') ∧ d ≠ '<' := by
        intro d among
        have plain := fits d among
        simp only [List.mem_cons, not_or] at plain
        exact ⟨⟨plain.1, plain.2.1⟩, plain.2.2.1⟩
      rw [Piece.spelling, List.cons_append]
      refine .cons (.reference name) (fun offset => ?_) others
      rw [List.append_assoc, List.singleton_append, scanEvent_reference inside, List.length_append]
      rfl

theorem ne_of_isBlank {c : Char} (blank : Text.isBlank c = true) : c ≠ '<' ∧ c ≠ '&' ∧ c ≠ '\ufeff' := by
  refine ⟨?_, ?_, ?_⟩ <;> rintro rfl <;> revert blank <;> decide

theorem readFrom_blank {cs : List Char} (blank : ∀ c ∈ cs, Text.isBlank c = true) (offset : Nat) :
    ∀ entry ∈ (readFrom 0 0 offset cs).events, ∃ s, entry.2 = .text s := by
  cases cs with
  | nil => exact List.forall_mem_nil _
  | cons c rest =>
    have marks : ∀ d ∈ c :: rest, d ≠ '<' ∧ d ≠ '&' := fun d among =>
      ⟨(ne_of_isBlank (blank d among)).1, (ne_of_isBlank (blank d among)).2.1⟩
    obtain ⟨⟨less, ampersand⟩, inside⟩ := List.forall_mem_cons.mp marks
    have whole : Splits 0 (c :: (rest ++ [])) [.text (c :: rest)] :=
      .cons (.text _) (scanEvent_text less ampersand inside (by rintro d ⟨⟩) 0) (splits_nil 0)
    obtain ⟨placed, stop, read, reads⟩ := whole offset
    rw [List.append_nil] at read
    rw [read]
    intro entry among
    rw [List.forall₂_cons_left_iff] at reads
    obtain ⟨event, others, text, none, same⟩ := reads
    cases text
    cases none
    have one : entry.2 ∈ [Event.text (String.ofList (c :: rest))] := same ▸ List.mem_map_of_mem among
    exact ⟨_, List.mem_singleton.mp one⟩

/-- Markup is read as it was put together. -/
theorem read_faithful : Reader.Faithful read where
  splits name attributes rest proper := by
    obtain ⟨placed, stop, same, reads⟩ := splits_of_proper proper 0
    refine ⟨placed, stop, ?_, reads⟩
    rw [read, String.toList_ofList]
    exact same
  blank source blank := by
    have each : ∀ c ∈ source.toList, Text.isBlank c = true := List.all_eq_true.mp blank
    unfold read
    split
    · next rest spelled =>
      have first := each '\ufeff' (spelled ▸ List.mem_cons_self)
      exact absurd rfl (ne_of_isBlank first).2.2
    · exact readFrom_blank each 0

end Stencil.Markup
