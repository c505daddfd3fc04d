import Stencil.Document.Tree
import Stencil.Proofs.Reader
import Stencil.Template.Directive

/-!
Static markup: elements with plain attributes and texts, as they are written. What is written is read back as the
same tree by any reader that can be relied on (`parse_written`). It is put together from pieces that may follow each
other, and whatever events these are read as build the tree.
-/
namespace Stencil.Markup

open Stateful

/-! ### Static markup -/

/-- Text without tags in which every ampersand starts a reference that ends with a semicolon; `open?` says whether a
    reference is open before it. Readers may change carriage returns. -/
def isData (open? : Bool) : List Char → Bool
  | [] => !open?
  | c :: rest =>
    if c = '<' ∨ c = '\r' ∨ (open? ∧ c = '&') then false
    else isData (if open? then c != ';' else c == '&') rest

/-- The attribute is no directive, and its value has no tags and no white space that readers may change. -/
def Attribute.isStatic (a : Attribute) : Bool :=
  isName a.name && !"t-".toList.isPrefixOf a.name.toList &&
    a.value.toList.all fun c => c != '<' && c != '\t' && c != '\r' && c != '\n'

mutual

/-- A tree of elements that are always written with a closing tag, and of texts. -/
def Node.isStatic : Node → Bool
  | .element name attributes children =>
    isName name && name != Template.wrapper && !Tree.voidTags.contains name && attributes.all Attribute.isStatic &&
      decide (attributes.map Attribute.name).Nodup && areStatic children
  | .text s => s != "" && isData false s.toList
  | _ => false

/-- Trees of which no two texts follow each other. -/
def Node.areStatic : List Node → Bool
  | [] => true
  | node :: rest => node.isStatic && (node.isElement || rest.head?.all Node.isElement) && areStatic rest

end

/-- What is static about an element apart from its children. -/
structure StaticTag (el : Element) : Prop where
  named : isName el.name = true
  visible : el.name ≠ Template.wrapper
  closed : el.name ∉ Tree.voidTags
  attributes : ∀ a ∈ el.attributes, a.isStatic = true
  distinct : (el.attributes.map Attribute.name).Nodup

/-- The rows that `Node.areStatic` accepts, as they are put together. -/
inductive StaticRow : List Node → Prop
  | nil : StaticRow []
  | element {el : Element} {rest : List Node} (tag : StaticTag el) (inner : StaticRow el.children)
      (others : StaticRow rest) : StaticRow (el.toNode :: rest)
  | text {s : String} {rest : List Node} (filled : s ≠ "") (data : isData false s.toList = true)
      (next : rest.head?.all Node.isElement = true) (others : StaticRow rest) : StaticRow (.text s :: rest)

theorem Node.isStatic_toNode {el : Element} :
    el.toNode.isStatic = true ↔ StaticTag el ∧ Node.areStatic el.children = true := by
  have each : el.toNode.isStatic = true ↔ ((((isName el.name = true ∧ el.name ≠ Template.wrapper) ∧
      el.name ∉ Tree.voidTags) ∧ ∀ a ∈ el.attributes, a.isStatic = true) ∧
        (el.attributes.map Attribute.name).Nodup) ∧ Node.areStatic el.children = true := by
    simp [Element.toNode, Node.isStatic]
  rw [each]
  constructor
  · rintro ⟨⟨⟨⟨⟨named, visible⟩, closed⟩, attributes⟩, distinct⟩, inner⟩
    exact ⟨⟨named, visible, closed, attributes, distinct⟩, inner⟩
  · rintro ⟨⟨named, visible, closed, attributes, distinct⟩, inner⟩
    exact ⟨⟨⟨⟨⟨named, visible⟩, closed⟩, attributes⟩, distinct⟩, inner⟩

theorem Node.areStatic_cons {node : Node} {rest : List Node} :
    Node.areStatic (node :: rest) = true ↔
      (node.isStatic = true ∧ (node.isElement = true ∨ rest.head?.all Node.isElement = true)) ∧
        Node.areStatic rest = true := by
  simp [Node.areStatic]

theorem StaticRow.of_areStatic : ∀ nodes : List Node, Node.areStatic nodes = true → StaticRow nodes
  | [], _ => .nil
  | .element name attributes children :: rest, static => by
    obtain ⟨⟨whole, -⟩, later⟩ := Node.areStatic_cons.mp static
    obtain ⟨tag, inner⟩ := (@Node.isStatic_toNode ⟨name, attributes, children⟩).mp whole
    exact .element tag (of_areStatic children inner) (of_areStatic rest later)
  | .text s :: rest, static => by
    obtain ⟨⟨whole, apart⟩, later⟩ := Node.areStatic_cons.mp static
    obtain ⟨filled, data⟩ : s ≠ "" ∧ isData false s.toList = true := by simpa [Node.isStatic] using whole
    exact .text filled data (apart.resolve_left (by rintro ⟨⟩)) (of_areStatic rest later)
  | .comment _ :: _, static | .cdata _ :: _, static | .instruction _ _ :: _, static => by
    cases (Node.areStatic_cons.mp static).1.1

theorem StaticRow.of_isStatic {el : Element} (static : el.toNode.isStatic = true) :
    StaticTag el ∧ StaticRow el.children :=
  (Node.isStatic_toNode.mp static).imp_right (of_areStatic el.children)

theorem StaticRow.singleton {el : Element} (static : el.toNode.isStatic = true) : StaticRow [el.toNode] :=
  .element (of_isStatic static).1 (of_isStatic static).2 .nil

/-! ### How it is written -/

/-- A character as it stands in a quoted value. -/
def writtenChar (c : Char) : List Char :=
  if c = '&' then "&amp;".toList else if c = '"' then "&quot;".toList else [c]

/-- An attribute with its value as it is written. -/
def writtenValue (a : Attribute) : String × List Char :=
  (a.name, a.value.toList.flatMap writtenChar)

mutual

/-- A tree as it is written. -/
def written : Node → List Char
  | .element name attributes children =>
    '<' :: (spelledTag name (attributes.map writtenValue) ++
      '>' :: (writtenRow children ++ '<' :: '/' :: (name.toList ++ ['>'])))
  | .text s => s.toList
  | _ => []

/-- Trees as they are written, one after the other. -/
def writtenRow : List Node → List Char
  | [] => []
  | node :: rest => written node ++ writtenRow rest

end

/-! ### Attributes -/

theorem mem_written {d : Char} {value : List Char} (among : d ∈ value.flatMap writtenChar) :
    d ∈ "&amp;&quot;".toList ∨ d ∈ value ∧ d ≠ '"' := by
  obtain ⟨c, member, inside⟩ := List.mem_flatMap.mp among
  unfold writtenChar at inside
  by_cases ampersand : c = '&'
  · rw [if_pos ampersand] at inside
    exact .inl (List.mem_append_left "&quot;".toList inside)
  · rw [if_neg ampersand] at inside
    by_cases quote : c = '"'
    · rw [if_pos quote] at inside
      exact .inl (List.mem_append_right "&amp;".toList inside)
    · rw [if_neg quote, List.mem_singleton] at inside
      subst inside
      exact .inr ⟨member, quote⟩

theorem Attribute.isStatic_iff {a : Attribute} : a.isStatic = true ↔
    (isName a.name = true ∧ "t-".toList.isPrefixOf a.name.toList = false) ∧
      ∀ c ∈ a.value.toList, ((c ≠ '<' ∧ c ≠ '\t') ∧ c ≠ '\r') ∧ c ≠ '\n' := by
  simp [Attribute.isStatic]

theorem decodes_written (value : List Char) : Decodes (value.flatMap writtenChar) value := by
  induction value with
  | nil => exact .nil
  | cons c rest ih =>
    rw [List.flatMap_cons, writtenChar]
    by_cases ampersand : c = '&'
    · rw [if_pos ampersand, ampersand]
      exact .ampersand ih
    · rw [if_neg ampersand]
      by_cases quote : c = '"'
      · rw [if_pos quote, quote]
        exact .quote ih
      · rw [if_neg quote]
        exact .other ampersand ih

/-- Nothing in a written value ends it or may be changed. -/
theorem Attribute.fits_of_isStatic {a : Attribute} (static : a.isStatic = true) :
    isName (writtenValue a).1 = true ∧ ∀ c ∈ (writtenValue a).2, c ∉ ['"', '<', '\t', '\r', '\n'] := by
  obtain ⟨⟨named, -⟩, clean⟩ := Attribute.isStatic_iff.mp static
  refine ⟨named, fun c among => ?_⟩
  rcases mem_written among with reference | ⟨member, quote⟩
  · have others : ("&amp;&quot;".toList.all fun d => decide (d ∉ ['"', '<', '\t', '\r', '\n'])) = true := by decide
    exact of_decide_eq_true (List.all_eq_true.mp others c reference)
  · obtain ⟨⟨⟨less, tab⟩, carriage⟩, line⟩ := clean c member
    simp [quote, less, tab, carriage, line]

/-- The attribute that is read is the one that was written. -/
theorem attributeOf_written {a : Attribute} (static : a.isStatic = true) (tag : String)
    {read : Except (Nat × AttributeFault) WrittenAttribute} (reads : ReadsAttribute (writtenValue a) read) :
    attributeOf tag read = .ok a := by
  obtain ⟨decoded, rfl, decodes⟩ := reads
  have less : ¬ (writtenValue a).2.contains '<' = true := by
    intro found
    exact (Attribute.fits_of_isStatic static).2 '<' (List.contains_iff_mem.mp found) (by decide)
  have value : decoded = .ok a.value.toList := decodes _ (decodes_written _)
  rw [attributeOf, WrittenAttribute.resolve, if_neg less, value]
  dsimp only
  rw [String.ofList_toList]
  rfl

/-- A start tag opens the element that it was written for. -/
theorem elementOfTag_written {attributes : List Attribute} (static : ∀ a ∈ attributes, a.isStatic = true) {tag : Tag}
    (reads : List.Forall₂ ReadsAttribute (attributes.map writtenValue) tag.attributes) :
    elementOfTag tag = .ok ⟨tag.name, attributes, []⟩ := by
  obtain ⟨name, given⟩ := tag
  have resolved : given.mapM (attributeOf name) = .ok attributes := by
    induction attributes generalizing given with
    | nil =>
      cases reads
      rfl
    | cons a rest ih =>
      obtain ⟨first, others⟩ := List.forall_mem_cons.mp static
      cases reads with
      | cons one more =>
        rw [List.mapM_cons, attributeOf_written first name one, ih others _ more]
        rfl
  rw [elementOfTag, resolved]
  rfl

/-! ### Texts -/

theorem isData_reference {cs : List Char} (data : isData true cs = true) :
    ∃ name more, cs = name ++ ';' :: more ∧ (∀ d ∈ name, d ∉ [';', '&', '<', '\r']) ∧ isData false more = true := by
  induction cs with
  | nil => cases data
  | cons c rest ih =>
    rw [isData] at data
    split at data
    · cases data
    · next other =>
      simp only [not_or, not_and] at other
      by_cases last : c = ';'
      · subst last
        exact ⟨[], rest, rfl, List.forall_mem_nil _, data⟩
      · rw [if_pos rfl, bne_iff_ne.mpr last] at data
        obtain ⟨name, more, rfl, inside, after⟩ := ih data
        refine ⟨c :: name, more, rfl, List.forall_mem_cons.mpr ⟨?_, inside⟩, after⟩
        simp [last, other.1, other.2.1, other.2.2 trivial]

theorem isData_run {cs : List Char} (data : isData false cs = true) :
    ∃ tail more, cs = tail ++ more ∧ (∀ d ∈ tail, d ∉ ['<', '&', '\r']) ∧ isData false more = true ∧
      ∀ d ∈ more.head?, d = '&' := by
  induction cs with
  | nil => exact ⟨[], [], rfl, List.forall_mem_nil _, rfl, by rintro d ⟨⟩⟩
  | cons c rest ih =>
    by_cases ampersand : c = '&'
    · refine ⟨[], c :: rest, rfl, List.forall_mem_nil _, data, ?_⟩
      rintro d ⟨⟩
      exact ampersand
    · rw [isData] at data
      split at data
      · cases data
      · next other =>
        simp only [not_or] at other
        rw [if_neg (by decide), beq_false_of_ne ampersand] at data
        obtain ⟨tail, more, rfl, inside, after, stop⟩ := ih data
        refine ⟨c :: tail, more, rfl, List.forall_mem_cons.mpr ⟨?_, inside⟩, after, stop⟩
        simp [ampersand, other.1, other.2.1]

theorem appendText_concat_text (s t : String) (before : List Node) :
    Builder.appendText s (before ++ [.text t]) = before ++ [.text (t ++ s)] := by
  simp [Builder.appendText]

theorem appendText_appendText (s t : String) (children : List Node) :
    Builder.appendText t (Builder.appendText s children) = Builder.appendText (s ++ t) children := by
  rcases List.eq_nil_or_concat children with rfl | ⟨before, last, rfl⟩
  · exact appendText_concat_text t s []
  · rw [List.concat_eq_append]
    cases last with
    | text r => rw [appendText_concat_text, appendText_concat_text, appendText_concat_text, String.append_assoc]
    | _ =>
      simp only [Builder.appendText, List.getLast?_concat]
      rw [List.dropLast_concat]

/-- Text after what is no text is a child of its own. -/
theorem appendText_of_apart {children : List Node} (apart : children.getLast?.all Node.isElement = true) (s : String) :
    Builder.appendText s children = children ++ [.text s] := by
  unfold Builder.appendText
  split
  · next last =>
    rw [last] at apart
    cases apart
  · rfl

/-- What follows is no text. -/
def Ends (rest : List Piece) : Prop :=
  rest.head?.all (!·.isText) = true

/-- The pieces spell a text, may stand before what is no text, and add the text to the innermost open element,
    whatever events they are read as. -/
structure TextPieces (pieces : List Piece) (cs : List Char) : Prop where
  spelled : pieces.flatMap Piece.spelling = cs
  proper : ∀ depth rest, Ends rest → Proper depth rest → Proper depth (pieces ++ rest)
  builds : ∀ events, List.Forall₂ Piece.ReadsAs pieces events → ∀ el outer,
    events.foldlM Builder.step ⟨el :: outer, none⟩ =
      .ok ⟨{ el with children := Builder.appendText (String.ofList cs) el.children } :: outer, none⟩

/-- A piece of text, which leaves the depth as it is. -/
def Piece.isData : Piece → Bool
  | text _ | reference _ => true
  | _ => false

section texts

variable {piece : Piece} {pieces : List Piece} {cs : List Char}

theorem Piece.depthAfter_data (data : piece.isData = true) (depth : Nat) : piece.depthAfter depth = depth := by
  cases piece with
  | text s => rfl
  | reference name => rfl
  | _ => cases data

theorem Piece.step_data (data : piece.isData = true) {event : Event} (reads : piece.ReadsAs event) (el : Element)
    (outer : List Element) :
    Builder.step ⟨el :: outer, none⟩ event =
      .ok ⟨{ el with children := Builder.appendText (String.ofList piece.spelling) el.children } :: outer, none⟩ := by
  cases reads with
  | text s => rfl
  | reference name =>
    have same : "&" ++ String.ofList name ++ ";" = String.ofList ('&' :: (name ++ [';'])) := by
      apply String.toList_inj.mp
      simp
    rw [Piece.spelling, ← same]
    rfl
  | _ => cases data

theorem TextPieces.single (data : piece.isData = true) (fits : ∀ depth rest, Ends rest → piece.Fits depth rest.head?) :
    TextPieces [piece] piece.spelling where
  spelled := List.flatMap_singleton ..
  proper depth rest ends proper := ⟨fits depth rest ends, (Piece.depthAfter_data data depth).symm ▸ proper⟩
  builds events reads el outer := by
    cases reads with
    | cons one none =>
      cases none
      rw [List.foldlM_cons, Piece.step_data data one]
      rfl

theorem TextPieces.cons (data : piece.isData = true)
    (fits : ∀ depth rest, Ends rest → piece.Fits depth (pieces ++ rest).head?) (others : TextPieces pieces cs) :
    TextPieces (piece :: pieces) (piece.spelling ++ cs) where
  spelled := by rw [List.flatMap_cons, others.spelled]
  proper depth rest ends proper := by
    refine ⟨fits depth rest ends, ?_⟩
    rw [Piece.depthAfter_data data]
    exact others.proper depth rest ends proper
  builds events reads el outer := by
    cases reads with
    | cons one more =>
      rw [List.foldlM_cons, Piece.step_data data one]
      refine (others.builds _ more _ outer).trans ?_
      rw [appendText_appendText, ← String.ofList_append]

/-- Text is put together from runs and references. It starts with a reference if it starts as one. -/
theorem exists_textPieces (data : isData false cs = true) (filled : cs ≠ []) :
    ∃ piece pieces, TextPieces (piece :: pieces) cs ∧ (cs.head? = some '&' → piece.isText = false) := by
  induction length : cs.length using Nat.strongRecOn generalizing cs with
  | ind n ih =>
    obtain ⟨c, rest, rfl⟩ := List.exists_cons_of_ne_nil filled
    rw [isData] at data
    split at data
    · cases data
    · next other =>
      simp only [not_or] at other
      rw [if_neg (by decide)] at data
      by_cases ampersand : c = '&'
      · subst ampersand
        obtain ⟨name, more, rfl, inside, after⟩ := isData_reference data
        refine ⟨.reference name, ?_⟩
        have spelled : '&' :: (name ++ ';' :: more) = (Piece.reference name).spelling ++ more := by
          simp [Piece.spelling]
        rw [spelled]
        by_cases none : more = []
        · subst none
          rw [List.append_nil]
          exact ⟨[], .single rfl fun _ _ _ => inside, fun _ => rfl⟩
        · have shorter : more.length < n := by
            rw [← length, List.length_cons, List.length_append, List.length_cons]
            omega
          obtain ⟨next, pieces, others, -⟩ := ih more.length shorter after none rfl
          exact ⟨next :: pieces, .cons rfl (fun _ _ _ => inside) others, fun _ => rfl⟩
      · rw [beq_false_of_ne ampersand] at data
        obtain ⟨tail, more, rfl, inside, after, stop⟩ := isData_run data
        have chars : ∀ d ∈ c :: tail, d ∉ ['<', '&', '\r'] :=
          List.forall_mem_cons.mpr ⟨by simp [ampersand, other.1, other.2.1], inside⟩
        refine ⟨.text (c :: tail), ?_⟩
        have apart : (c :: (tail ++ more)).head? = some '&' → (Piece.text (c :: tail)).isText = false :=
          fun first => absurd (Option.some.inj first) ampersand
        by_cases none : more = []
        · subst none
          rw [List.append_nil] at apart ⊢
          exact ⟨[], .single rfl fun _ _ ends => ⟨List.cons_ne_nil _ _, chars, ends⟩, apart⟩
        · have shorter : more.length < n := by
            rw [← length, List.length_cons, List.length_append]
            omega
          obtain ⟨next, pieces, others, starts⟩ := ih more.length shorter after none rfl
          obtain ⟨d, rest, rfl⟩ := List.exists_cons_of_ne_nil none
          have reference : next.isText = false := starts (congrArg _ (stop d rfl))
          refine ⟨next :: pieces, .cons rfl (fun _ _ _ => ⟨List.cons_ne_nil _ _, chars, ?_⟩) others, apart⟩
          simp [reference]

end texts

/-! ### Trees -/

/-- No text follows another where lists of nodes meet. -/
def Apart (before after : List Node) : Prop :=
  before.getLast?.all Node.isElement = true ∨ after.head?.all Node.isElement = true

/-- The pieces spell the characters, may stand inside of an element before a tag, and build the nodes after the
    children that are there, whatever events they are read as. -/
structure Conveys (pieces : List Piece) (cs : List Char) (nodes : List Node) : Prop where
  spelled : pieces.flatMap Piece.spelling = cs
  proper : ∀ depth rest, Ends rest → Proper (depth + 1) rest → Proper (depth + 1) (pieces ++ rest)
  builds : ∀ events, List.Forall₂ Piece.ReadsAs pieces events → ∀ el outer, Apart el.children nodes →
    events.foldlM Builder.step ⟨el :: outer, none⟩ =
      .ok ⟨{ el with children := el.children ++ nodes } :: outer, none⟩

/-- Events are read from pieces in order. -/
theorem reads_append {first second : List Piece} {events : List Event}
    (reads : List.Forall₂ Piece.ReadsAs (first ++ second) events) :
    ∃ before after, events = before ++ after ∧ List.Forall₂ Piece.ReadsAs first before ∧
      List.Forall₂ Piece.ReadsAs second after := by
  induction first generalizing events with
  | nil => exact ⟨[], events, rfl, .nil, reads⟩
  | cons piece first ih =>
    cases reads with
    | cons one more =>
      obtain ⟨before, after, rfl, left, right⟩ := ih more
      exact ⟨_ :: before, after, rfl, .cons one left, right⟩

/-- The tags of an element with the pieces of its content between them. -/
def elementPieces (el : Element) (inner : List Piece) : List Piece :=
  .start el.name (el.attributes.map writtenValue) :: (inner ++ [.close el.name])

section trees

variable {el : Element} {pieces : List Piece}

theorem Conveys.spelled_element (inner : Conveys pieces (writtenRow el.children) el.children) :
    (elementPieces el pieces).flatMap Piece.spelling = written el.toNode := by
  simp [elementPieces, Piece.spelling, inner.spelled, Element.toNode, written]

theorem Conveys.proper_element (inner : Conveys pieces (writtenRow el.children) el.children) (tag : StaticTag el)
    {depth : Nat} {rest : List Piece} (proper : Proper depth rest) :
    Proper depth (elementPieces el pieces ++ rest) := by
  have names : (el.attributes.map writtenValue).map Prod.fst = el.attributes.map Attribute.name := by
    rw [List.map_map]
    rfl
  rw [elementPieces, List.cons_append, List.append_assoc]
  refine ⟨⟨tag.named, names ▸ tag.distinct, ?_⟩, ?_⟩
  · intro a among
    obtain ⟨a, member, rfl⟩ := List.mem_map.mp among
    exact Attribute.fits_of_isStatic (tag.attributes a member)
  · exact inner.proper depth _ rfl ⟨⟨Nat.succ_pos depth, tag.named⟩, proper⟩

/-- The events of an element build it in its place. -/
theorem Conveys.builds_element (inner : Conveys pieces (writtenRow el.children) el.children) (tag : StaticTag el)
    {events : List Event} (reads : List.Forall₂ Piece.ReadsAs (elementPieces el pieces) events) (b : Builder)
    (first : b.root = none) : events.foldlM Builder.step b = .ok (b.attach el) := by
  obtain ⟨stack, root⟩ := b
  obtain rfl : root = none := first
  cases reads with
  | cons start more =>
    obtain ⟨content, ending, rfl, reads, closing⟩ := reads_append more
    cases closing with
    | cons close none =>
      cases none
      cases close
      cases start with
      | @start _ _ tag' named each =>
        have opened : Builder.step ⟨stack, none⟩ (.start tag') = .ok ⟨{ el with children := [] } :: stack, none⟩ := by
          have read := elementOfTag_written tag.attributes each
          rw [named] at read
          exact Builder.step_start_eq_ok.mpr ⟨_, Builder.openTag_eq_ok.mpr ⟨read, by simp⟩, rfl⟩
        rw [List.foldlM_cons, bind_eq_ok]
        refine ⟨_, opened, ?_⟩
        rw [List.foldlM_append, bind_eq_ok]
        refine ⟨_, inner.builds _ reads _ stack (.inl rfl), ?_⟩
        rw [List.foldlM_cons, bind_eq_ok]
        exact ⟨_, if_pos rfl, rfl⟩

end trees

theorem conveys_nil : Conveys [] [] [] where
  spelled := rfl
  proper _ _ _ proper := proper
  builds events reads el outer _ := by
    cases reads
    rw [List.append_nil]
    rfl

/-- Static nodes are put together from pieces that build them in order. Those of an element start with a tag. -/
theorem exists_pieces {nodes : List Node} (static : StaticRow nodes) :
    ∃ pieces, Conveys pieces (writtenRow nodes) nodes ∧
      (nodes.head?.all Node.isElement = true → Ends pieces) := by
  induction static with
  | nil => exact ⟨[], conveys_nil, fun _ => rfl⟩
  | @element child rest tag _ _ inner others =>
    obtain ⟨inside, inner, -⟩ := inner
    obtain ⟨after, others, -⟩ := others
    refine ⟨elementPieces child inside ++ after, ⟨?_, ?_, ?_⟩, fun _ => rfl⟩
    · rw [List.flatMap_append, inner.spelled_element, others.spelled, writtenRow]
    · intro depth later ends proper
      rw [List.append_assoc]
      exact inner.proper_element tag (others.proper depth later ends proper)
    · intro events reads el outer _
      obtain ⟨first, second, rfl, left, right⟩ := reads_append reads
      rw [List.foldlM_append, bind_eq_ok]
      refine ⟨_, inner.builds_element tag left ⟨el :: outer, none⟩ rfl, ?_⟩
      refine (others.builds _ right _ outer (.inl ?_)).trans ?_
      · rw [Element.addChild, List.getLast?_concat]
        rfl
      · rw [Element.addChild, List.append_assoc]
        rfl
  | @text s rest filled data next _ others =>
    obtain ⟨piece, pieces, text, -⟩ := exists_textPieces data (by simpa using filled)
    obtain ⟨after, others, starts⟩ := others
    refine ⟨piece :: pieces ++ after, ⟨?_, ?_, ?_⟩, by rintro ⟨⟩⟩
    · rw [List.flatMap_append, text.spelled, others.spelled, writtenRow, written]
    · intro depth later ends proper
      rw [List.append_assoc]
      refine text.proper _ _ ?_ (others.proper depth later ends proper)
      cases after with
      | nil => exact ends
      | cons => exact starts next
    · intro events reads el outer apart
      obtain ⟨first, second, rfl, left, right⟩ := reads_append reads
      have last : el.children.getLast?.all Node.isElement = true := apart.resolve_right (by rintro ⟨⟩)
      rw [List.foldlM_append, bind_eq_ok]
      refine ⟨_, text.builds _ left el outer, ?_⟩
      rw [String.ofList_toList, appendText_of_apart last]
      refine (others.builds _ right _ outer (.inr next)).trans ?_
      rw [List.append_assoc]
      rfl

section readers

variable {reader : Reader} {root : Element}

theorem parse_eq_ok {source : String} : parse source reader = .ok root ↔ (reader source).root = .ok root := by
  unfold parse
  cases (reader source).root with
  | error fault => exact ⟨by rintro ⟨⟩, by rintro ⟨⟩⟩
  | ok el => exact ⟨fun same => by cases same; rfl, fun same => by cases same; rfl⟩

/-- Static markup is read as the tree that it was written for. -/
theorem parse_written (faithful : reader.Faithful) (static : root.toNode.isStatic = true) :
    parse (String.ofList (written root.toNode)) reader = .ok root := by
  obtain ⟨tag, children⟩ := StaticRow.of_isStatic static
  obtain ⟨pieces, inner, -⟩ := exists_pieces children
  have proper : Proper 0 (elementPieces root pieces ++ []) := inner.proper_element tag trivial
  rw [List.append_nil] at proper
  obtain ⟨events, stop, read, reads⟩ := faithful.splits _ _ _ proper
  have whole : reader (String.ofList (written root.toNode)) = ⟨events, .complete stop⟩ := by
    rw [← inner.spelled_element]
    exact read
  rw [parse_eq_ok, whole]
  exact Reading.root_eq_ok.mpr (Builder.run_eq_ok.mpr (inner.builds_element tag reads {} rfl))

/-- Text alone makes no tree. -/
theorem run_texts {events : List (Nat × Event)} (texts : ∀ entry ∈ events, ∃ s, entry.2 = .text s) {b : Builder}
    (ran : Builder.run {} events = .ok b) : b = {} := by
  induction events with
  | nil =>
    cases ran
    rfl
  | cons first rest ih =>
    obtain ⟨offset, event⟩ := first
    obtain ⟨⟨s, rfl⟩, others⟩ := List.forall_mem_cons.mp texts
    rw [Builder.run, Builder.step, Builder.addText] at ran
    dsimp only at ran
    by_cases blank : Text.isBlankText s = true
    · rw [if_pos blank] at ran
      exact ih others ran
    · rw [if_neg blank] at ran
      cases ran

/-- White space alone makes no tree. -/
theorem isBlankText_of_parse (faithful : reader.Faithful) {source : String}
    (parsed : parse source reader = .ok root) : Text.isBlankText source = false := by
  rw [Bool.eq_false_iff]
  intro blank
  have made := parse_eq_ok.mp parsed
  obtain ⟨b, ran, ended⟩ := bind_eq_ok.mp made
  obtain rfl := run_texts (faithful.blank source blank) ran
  split at ended <;> cases ended

end readers

end Stencil.Markup
