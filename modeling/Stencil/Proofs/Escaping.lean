import Stencil.Proofs.Contract
import Stencil.Proofs.Rendering

/-!
What a run puts into texts and attributes. Without emissions of values as they are, a text that a run
creates stands in a template or is escaped, however emissions, fallbacks, captured and passed content are
nested; and the value of an attribute is never written with a quote inside its quotes.
-/
namespace Stencil

/-! ### Escaped texts -/

namespace Text

/-- Characters that have a meaning in markup, the ampersand apart. -/
def markupChars : List Char := ['<', '>', '"', '\'', '\x60']

/-- The references that stand for characters. -/
def references : List String := ["&amp;", "&lt;", "&gt;", "&quot;", "&#x27;", "&#x60;"]

/-- A text that is not read as markup: it has no markup characters, and each of its ampersands starts a
    reference. -/
structure Inert (s : String) : Prop where
  plain : ∀ c ∈ s.toList, c ∉ markupChars
  references : ∀ before after, s.toList = before ++ '&' :: after →
    ∃ r ∈ references, r.toList <+: '&' :: after

theorem reference?_mem {c : Char} {r : List Char} (found : reference? c = some r) :
    String.ofList r ∈ references := by
  rw [reference?.eq_def] at found
  split at found <;> cases found <;> decide

theorem reference?_none {c : Char} (none : reference? c = none) : c ≠ '&' ∧ c ∉ markupChars := by
  constructor
  · rintro rfl
    cases none
  · intro special
    simp only [markupChars, List.mem_cons, List.not_mem_nil, or_false] at special
    rcases special with rfl | rfl | rfl | rfl | rfl <;> cases none

theorem mem_references {r : String} (member : r ∈ references) :
    (∀ c ∈ r.toList, c ∉ markupChars) ∧ ∃ rest, r.toList = '&' :: rest ∧ '&' ∉ rest := by
  simp only [references, List.mem_cons, List.not_mem_nil, or_false] at member
  rcases member with rfl | rfl | rfl | rfl | rfl | rfl <;>
    exact ⟨by simp [markupChars], _, rfl, by decide⟩

theorem escapeChars_cons (c : Char) (cs : List Char) :
    escapeChars (c :: cs) = (reference? c).getD [c] ++ escapeChars cs :=
  List.flatMap_cons

theorem escapeChars_of_plain {cs : List Char} (plain : ∀ c ∈ cs, reference? c = none) : escapeChars cs = cs := by
  induction cs with
  | nil => rfl
  | cons c rest ih =>
    rw [escapeChars_cons, plain c List.mem_cons_self, ih fun d member => plain d (List.mem_cons_of_mem _ member)]
    rfl

theorem toList_escape (s : String) : (escape s).toList = escapeChars s.toList := by
  rw [escape]
  split
  · simp
  next clean => exact (escapeChars_of_plain (reference?_eq_none clean)).symm

/-- What stands for one character is a character without a meaning, or a reference. -/
theorem escaped_cases (c : Char) :
    (∃ r ∈ references, (reference? c).getD [c] = r.toList) ∨
      (reference? c).getD [c] = [c] ∧ c ≠ '&' ∧ c ∉ markupChars := by
  cases found : reference? c with
  | none => exact .inr ⟨rfl, reference?_none found⟩
  | some r => exact .inl ⟨String.ofList r, reference?_mem found, by simp⟩

theorem escapeChars_plain (cs : List Char) : ∀ c ∈ escapeChars cs, c ∉ markupChars := by
  induction cs with
  | nil => simp [escapeChars]
  | cons d rest ih =>
    intro c member
    rw [escapeChars_cons] at member
    rcases List.mem_append.mp member with first | later
    · rcases escaped_cases d with ⟨r, listed, same⟩ | ⟨same, -, plain⟩
      · exact (mem_references listed).1 c (same ▸ first)
      · rw [same] at first
        rw [List.mem_singleton.mp first]
        exact plain
    · exact ih c later

theorem escapeChars_references (cs : List Char) : ∀ before after, escapeChars cs = before ++ '&' :: after →
    ∃ r ∈ references, r.toList <+: '&' :: after := by
  induction cs with
  | nil =>
    intro before after split
    simp [escapeChars] at split
  | cons c rest ih =>
    intro before after split
    rw [escapeChars_cons] at split
    -- The ampersand stands behind what is written for `c`, or it is the first character of that.
    rcases List.append_eq_append_iff.mp split with ⟨middle, -, later⟩ | ⟨middle, first, later⟩
    · exact ih middle after later
    · cases middle with
      | nil => exact ih [] after later.symm
      | cons d middle =>
        obtain ⟨rfl, tail⟩ := List.cons.inj later
        rcases escaped_cases c with ⟨r, listed, same⟩ | ⟨same, differ, -⟩
        · obtain ⟨-, inner, shape, once⟩ := mem_references listed
          rw [same, shape] at first
          cases before with
          | nil => exact ⟨r, listed, escapeChars rest, by rw [shape, first, tail]; rfl⟩
          | cons e before =>
            have again : '&' ∈ inner := by
              rw [(List.cons.inj first).2]
              simp
            exact absurd again once
        · rw [same] at first
          have here : '&' ∈ [c] := by
            rw [first]
            simp
          exact absurd (List.mem_singleton.mp here).symm differ

theorem escape_inert (s : String) : Inert (escape s) := by
  refine ⟨?_, ?_⟩
  · rw [toList_escape]
    exact escapeChars_plain s.toList
  · rw [toList_escape]
    exact escapeChars_references s.toList

theorem quote_not_mem_escapeAttribute (s : String) : '"' ∉ (escapeAttribute s).toList := by
  have replaced (cs : List Char) : '"' ∉ replaceChar '"' "&quot;".toList cs := by
    intro member
    obtain ⟨c, -, written⟩ := List.mem_flatMap.mp member
    by_cases quote : c = '"'
    · rw [if_pos quote] at written
      revert written
      decide
    · rw [if_neg quote] at written
      exact quote (List.mem_singleton.mp written).symm
  rw [escapeAttribute_eq, String.toList_ofList]
  exact replaced _

end Text

/-! ### Serialized attributes -/

namespace Tree

variable {ℓ : Type}

/-- Attributes one after the other, each with its value between quotes and no quote inside them. -/
inductive AttributesSpelled : Fields String → String → Prop
  | nil : AttributesSpelled [] ""
  | cons {name value written more : String} {rest : Fields String} (same : written = Text.escapeAttribute value)
      (unquoted : '"' ∉ written.toList) (others : AttributesSpelled rest more) :
      AttributesSpelled ((name, value) :: rest) (" " ++ name ++ "=\"" ++ written ++ "\"" ++ more)

/-- Trees one after the other, with tags around what is inside elements. -/
inductive Spelled : List (Tree ℓ) → String → Prop
  | nil : Spelled [] ""
  | text {s more : String} {children rest : List (Tree ℓ)} (others : Spelled rest more) :
      Spelled (.text s children :: rest) (s ++ more)
  | fragment {s more : String} {children rest : List (Tree ℓ)} (inside : Spelled children s)
      (others : Spelled rest more) : Spelled (.fragment children :: rest) (s ++ more)
  | void {tag set more : String} {attributes : Fields String} {listeners : List (String × ℓ)}
      {rest : List (Tree ℓ)} (member : tag ∈ voidTags) (spelled : AttributesSpelled attributes set)
      (others : Spelled rest more) :
      Spelled (.element tag attributes listeners [] :: rest) ("<" ++ tag ++ set ++ ">" ++ more)
  | element {tag set s more : String} {attributes : Fields String} {listeners : List (String × ℓ)}
      {children rest : List (Tree ℓ)} (spelled : AttributesSpelled attributes set) (inside : Spelled children s)
      (others : Spelled rest more) :
      Spelled (.element tag attributes listeners children :: rest)
        ("<" ++ tag ++ set ++ ">" ++ s ++ "</" ++ tag ++ ">" ++ more)

theorem attributesSpelled (attributes : Fields String) :
    AttributesSpelled attributes (String.join (attributes.map attributeMarkup)) := by
  induction attributes with
  | nil => exact .nil
  | cons entry rest ih =>
    have spelled : AttributesSpelled ((entry.1, entry.2) :: rest) _ :=
      .cons rfl (Text.quote_not_mem_escapeAttribute entry.2) ih
    simpa [String.join_cons, attributeMarkup] using spelled

mutual

theorem markup_spelled : ∀ (tree : Tree ℓ) {rest : List (Tree ℓ)} {more : String}, Spelled rest more →
    Spelled (tree :: rest) (tree.markup ++ more)
  | .fragment children, _, _, others => by
    rw [markup]
    exact .fragment (markups_spelled children) others
  | .text s children, _, _, others => by
    rw [markup]
    exact .text others
  | .element tag attributes listeners children, _, _, others => by
    have spelled := attributesSpelled attributes
    rw [markup]
    split
    next void =>
      rw [Bool.and_eq_true, List.isEmpty_iff] at void
      obtain ⟨member, rfl⟩ := void
      exact .void (List.contains_iff_mem.mp member) spelled others
    next => exact .element spelled (markups_spelled children) others

theorem markups_spelled : ∀ trees : List (Tree ℓ), Spelled trees (markups trees)
  | [] => .nil
  | tree :: rest => by
    rw [markups]
    exact markup_spelled tree (markups_spelled rest)

end

end Tree

/-- The markup of a node is spelled so that no attribute value has a quote inside its quotes. -/
theorem Document.markup_spelled {ℓ : Type} (doc : Document ℓ) (node : Nat) :
    Tree.Spelled [doc.tree node] (doc.markup node) := by
  have spelled := Tree.markup_spelled (doc.tree node) .nil
  rwa [String.append_empty] at spelled

/-! ### Texts of a document -/

namespace Document

variable {ℓ : Type} {doc : Document ℓ} {allowed : String → Prop} {first : Nat}

/-- The texts of the nodes from number `first` on are allowed. -/
def TextsFrom (first : Nat) (allowed : String → Prop) (doc : Document ℓ) : Prop :=
  ∀ node s, first ≤ node → doc.kind? node = some (.text s) → allowed s

theorem textsFrom_size (allowed : String → Prop) (doc : Document ℓ) : doc.TextsFrom doc.size allowed := by
  intro node s new found
  rw [kind?, Array.getElem?_eq_none new] at found
  cases found

theorem TextsFrom.create {kind : NodeKind ℓ} (texts : doc.TextsFrom first allowed)
    (new : ∀ s, kind = .text s → allowed s) : (doc.create kind).2.TextsFrom first allowed := by
  intro node s later found
  rw [Document.create, kind?, Array.getElem?_push] at found
  split at found
  · exact new s (Option.some.inj found)
  · exact texts node s later found

/-- Changing a node makes no text of it. -/
theorem TextsFrom.update {change : DocumentNode ℓ → DocumentNode ℓ} (texts : doc.TextsFrom first allowed)
    (node : Nat) (kept : ∀ n s, (change n).kind = .text s → n.kind = .text s) :
    (doc.update node change).TextsFrom first allowed := by
  intro other s later found
  rw [Document.update, kind?, Array.getElem?_modify] at found
  refine texts other s later ?_
  rw [kind?]
  split at found
  · rw [Option.map_map] at found
    obtain ⟨n, at_other, text⟩ := Option.map_eq_some_iff.mp found
    rw [at_other, Option.map_some, kept n s text]
  · exact found

theorem TextsFrom.setAttribute (texts : doc.TextsFrom first allowed) (node : Nat) (name value : String) :
    (doc.setAttribute node name value).TextsFrom first allowed := by
  refine texts.update node fun n s text => ?_
  split at text
  · cases text
  · exact text

theorem TextsFrom.listen (texts : doc.TextsFrom first allowed) (node : Nat) (event : String) (listener : ℓ) :
    (doc.listen node event listener).TextsFrom first allowed := by
  refine texts.update node fun n s text => ?_
  split at text
  · cases text
  · exact text

theorem TextsFrom.attach (texts : doc.TextsFrom first allowed) (parent node : Nat) :
    (doc.attach parent node).TextsFrom first allowed := by
  refine TextsFrom.update ?_ parent fun _ _ text => text
  exact texts.update node fun _ _ text => text

theorem TextsFrom.append (texts : doc.TextsFrom first allowed) (parent node : Nat) :
    (doc.append parent node).TextsFrom first allowed := by
  rw [Document.append]
  split
  · have moved : ∀ (children : List Nat) (doc : Document ℓ), doc.TextsFrom first allowed →
        (children.foldl (fun doc child => doc.attach parent child) doc).TextsFrom first allowed := by
      intro children
      induction children with
      | nil => exact fun _ texts => texts
      | cons child rest ih => exact fun _ texts => ih _ (texts.attach parent child)
    exact moved _ _ (texts.update node fun _ _ text => text)
  · refine TextsFrom.attach ?_ parent node
    rw [Document.detach]
    split
    · exact texts.update _ fun _ _ text => text
    · exact texts

end Document

/-! ### Texts of a run -/

/-- What an instruction makes a text of. -/
def Instr.Makes (text : String → Prop) (escape : Bool → Prop) : Instr → Prop
  | .text _ s => text s
  | .textOf _ _ escaped => escape escaped
  | _ => True

namespace Machine

open Stateful

variable {α β : Type} {inv : Document Nat → Prop}

/-- A step that keeps an invariant of the document, however it ends. -/
def Preserves (inv : Document Nat → Prop) (step : Run α) : Prop :=
  ∀ m, inv m.document → inv (step m).2.document

theorem Preserves.bind {step : Run α} {next : α → Run β} (first : Preserves inv step)
    (second : ∀ a, Preserves inv (next a)) : Preserves inv (step >>= next) := by
  intro m holds
  have kept := first m holds
  rcases ran : step m with ⟨result, after⟩
  rw [ran] at kept
  cases result with
  | error e =>
    rw [bind_error ran]
    exact kept
  | ok a =>
    rw [bind_ok ran]
    exact second a after kept

theorem Preserves.pure (a : α) : Preserves inv (pure a) :=
  fun _ holds => holds

theorem Preserves.throw (e : RenderError) : Preserves inv (throw e : Run α) :=
  fun _ holds => holds

theorem Preserves.get {next : Machine → Run α} (kept : ∀ m, Preserves inv (next m)) :
    Preserves inv (get >>= next) :=
  fun m holds => kept m m holds

theorem changeDocument_preserves {change : Document Nat → Document Nat} (kept : ∀ doc, inv doc → inv (change doc)) :
    Preserves inv (changeDocument change) :=
  fun m holds => kept m.document holds

theorem changeData_preserves (change : Fields Value → Fields Value) : Preserves inv (changeData change) :=
  fun _ holds => holds

theorem note_preserves (message : String) : Preserves inv (note message) :=
  fun _ holds => holds

theorem write_preserves (slot : Nat) (content : Register) : Preserves inv (write slot content) := by
  intro m holds
  simp only [write, bind_apply, get_apply]
  split <;> exact holds

theorem takeLoop_preserves (slot : Nat) : Preserves inv (takeLoop slot) := by
  intro m holds
  rw [takeLoop, bind_ok (get_apply m), bind_ok (set_apply _ m)]
  cases m.registers[slot]? with
  | none => exact holds
  | some register => cases register <;> exact holds

theorem node_preserves (slot : Nat) : Preserves inv (node slot) := by
  refine .get fun m => ?_
  split
  · exact .pure _
  · exact .throw _

/-- Changing the document at the node in a register. -/
theorem Preserves.change {change : Nat → Document Nat → Document Nat} (slot : Nat)
    (kept : ∀ node doc, inv doc → inv (change node doc)) {control : Control} :
    Preserves inv (do
      let node ← node slot
      changeDocument (change node)
      return control) :=
  (node_preserves slot).bind fun node => (changeDocument_preserves (kept node)).bind fun _ => .pure _

theorem value_preserves (slot : Nat) : Preserves inv (value slot) := by
  refine .get fun m => ?_
  split
  · exact .pure _
  · exact .throw _

theorem loop_preserves (slot : Nat) : Preserves inv (loop slot) := by
  refine .get fun m => ?_
  split
  · exact .pure _
  · exact .throw _

theorem eval_preserves (e : Expression) : Preserves inv (eval e) := by
  refine .get fun m => ?_
  split
  · exact .pure _
  · exact .throw _

theorem partsText_preserves (parts : List Template.Part) : Preserves inv (partsText parts) := by
  induction parts with
  | nil => exact .pure ""
  | cons part rest ih =>
    cases part with
    | literal s => exact ih.bind fun _ => .pure _
    | expr e => exact (eval_preserves e).bind fun _ => ih.bind fun _ => .pure _

section texts

variable {first address : Nat} {text : String → Prop} {escape : Bool → Prop} {allowed : String → Prop}

theorem create_preserves (slot : Nat) {kind : NodeKind Nat} (new : ∀ s, kind = .text s → allowed s) :
    Preserves (Document.TextsFrom first allowed) (create slot kind) :=
  fun m texts => write_preserves slot _ { m with document := (m.document.create kind).2 } (texts.create new)

/-- Every instruction keeps the texts of a document to what it may make a text of. -/
theorem exec_preserves (verbatim : ∀ s, text s → allowed s)
    (written : ∀ (v : Value) escaped, escape escaped → allowed (if escaped then Text.escape v.toText else v.toText))
    {instr : Instr} (makes : instr.Makes text escape) :
    Preserves (Document.TextsFrom first allowed) (exec address instr) := by
  cases instr with
  | fragment dst => exact (create_preserves dst nofun).bind fun _ => .pure _
  | element dst tag => exact (create_preserves dst nofun).bind fun _ => .pure _
  | text dst s =>
    refine (create_preserves dst fun s' same => ?_).bind fun _ => .pure _
    cases same
    exact verbatim s makes
  | set slot name value =>
    exact .change slot fun node _ texts => texts.setAttribute node name value
  | eval dst e => exact (eval_preserves e).bind fun _ => (write_preserves dst _).bind fun _ => .pure _
  | setIf slot name value =>
    refine (value_preserves value).bind fun v => ?_
    split
    · exact .change slot fun node _ texts => texts.setAttribute node name v.toText
    · exact .pure _
  | setParts slot name parts =>
    refine (partsText_preserves parts).bind fun value => ?_
    exact .change slot fun node _ texts => texts.setAttribute node name value
  | spread slot value =>
    refine (node_preserves slot).bind fun node => (value_preserves value).bind fun v =>
      Preserves.bind ?_ fun _ => .pure _
    refine changeDocument_preserves ?_
    induction spreadEntries v with
    | nil => exact fun _ texts => texts
    | cons entry rest ih => exact fun _ texts => ih _ (texts.setAttribute node entry.1 entry.2)
  | listen slot event handler =>
    refine .get fun m => ?_
    split
    case h_1 number _ =>
      refine (note_preserves _).bind fun _ => ?_
      exact .change slot fun node _ texts => texts.listen node event number
    case h_2 => exact .throw _
  | textOf dst value escaped =>
    refine (value_preserves value).bind fun v => (create_preserves dst fun s same => ?_).bind fun _ => .pure _
    cases same
    exact written v escaped makes
  | append parent child =>
    refine (node_preserves parent).bind fun p => ?_
    exact .change child fun c _ texts => texts.append p c
  | jumpUnless test target => exact (eval_preserves test).bind fun _ => .pure _
  | jumpAbsent value target => exact (value_preserves value).bind fun _ => .pure _
  | jump target => exact .pure _
  | loop iter source name =>
    refine (eval_preserves source).bind fun v => Preserves.bind ?_ fun items => .get fun m =>
      (write_preserves iter _).bind fun _ => .pure _
    cases loopItems v with
    | ok items => exact .pure items
    | error e => exact .throw e
  | next iter exit =>
    refine (loop_preserves iter).bind fun l => ?_
    split
    · exact .pure _
    · exact (changeData_preserves _).bind fun _ => (write_preserves iter _).bind fun _ => .pure _
  | endLoop iter =>
    exact (takeLoop_preserves iter).bind fun l => (changeData_preserves _).bind fun _ => .pure _
  | done root => exact (node_preserves root).bind fun _ => .pure _

theorem execute_preserves {program : Program}
    (kept : ∀ address instr, program.instr? address = some instr → Preserves inv (exec address instr)) (steps : Nat) :
    ∀ address, Preserves inv (execute program steps address) := by
  induction steps with
  | zero => exact fun _ => .throw _
  | succ steps ih =>
    intro address
    rw [execute]
    split
    case h_1 => exact .throw _
    case h_2 instr found =>
      refine (kept address instr found).bind fun control => ?_
      cases control with
      | goto next => exact ih next
      | finish root => exact .pure root

end texts

theorem run_preserves {program : Program}
    (kept : ∀ address instr, program.instr? address = some instr → Preserves inv (exec address instr)) (steps : Nat)
    {document : Document Nat} (data : Fields Value) (holds : inv document) :
    inv (program.run steps document data).document := by
  have after := execute_preserves kept steps 0 (initial program.slots document data) holds
  rw [initial] at after
  rw [Program.run]
  rcases ran : execute program steps 0 ⟨document, data, Array.replicate program.slots .empty, []⟩ with ⟨result, m⟩
  rw [ran] at after
  cases result with
  | ok root => exact after
  | error e =>
    show inv m.unwind.document
    rw [unwind_document]
    exact after

end Machine

/-! ### Texts of a program -/

namespace Program

open Template (Action Block Chain)

variable {text : String → Prop} {escape : Bool → Prop}

theorem layActions_makes (node next depth : Nat) (actions : List Action) :
    ∀ line ∈ (layActions node next depth actions).lines, line.instr.Makes text escape := by
  induction actions generalizing next with
  | nil => simp [layActions]
  | cons action rest ih =>
    simp only [layActions, List.forall_mem_append]
    refine ⟨?_, ih _⟩
    cases action <;> simp [layAction, Instr.Makes]

mutual

theorem layBlock_makes (parent next depth address : Nat) : ∀ block : Block, block.Has text escape →
    ∀ line ∈ (layBlock parent next depth address block).lines, line.instr.Makes text escape
  | .text s, has => by
    simp only [layBlock, List.forall_mem_cons]
    exact ⟨has, trivial, nofun⟩
  | .element tag actions body, has => by
    simp only [layBlock, List.forall_mem_cons, List.cons_append, List.forall_mem_append]
    exact ⟨trivial, layActions_makes _ _ _ actions, trivial, layBlocks_makes _ _ _ _ body has⟩
  | .choose chain, has => by
    rw [layBlock]
    exact layChain_makes parent next depth address chain has
  | .loop source name body, has => by
    simp only [layBlock, List.forall_mem_cons, List.cons_append, List.forall_mem_append]
    exact ⟨trivial, trivial, layBlocks_makes _ _ _ _ body has, trivial, trivial, nofun⟩
  | .emit value escaped, has => by
    simp only [layBlock, List.forall_mem_cons]
    exact ⟨trivial, trivial, has, trivial, nofun⟩
  | .emitOr value escaped fallback, has => by
    simp only [layBlock, List.forall_mem_cons]
    exact ⟨trivial, trivial, has.1, trivial, trivial, layBlocks_makes _ _ _ _ fallback has.2⟩

theorem layBlocks_makes (parent next depth address : Nat) : ∀ blocks : List Block, Block.AllHave text escape blocks →
    ∀ line ∈ (layBlocks parent next depth address blocks).lines, line.instr.Makes text escape
  | [], _ => by simp [layBlocks]
  | block :: rest, has => by
    simp only [layBlocks, List.forall_mem_append]
    exact ⟨layBlock_makes _ _ _ _ block has.1, layBlocks_makes _ _ _ _ rest has.2⟩

theorem layChain_makes (parent next depth address : Nat) : ∀ chain : Chain, chain.Has text escape →
    ∀ line ∈ (layChain parent next depth address chain).lines, line.instr.Makes text escape
  | .otherwise body, has => by
    rw [layChain]
    exact layBlocks_makes parent next (depth + 1) address body has
  | .when test body rest, has => by
    simp only [layChain, List.forall_mem_cons, List.cons_append, List.forall_mem_append]
    exact ⟨trivial, layBlocks_makes _ _ _ _ body has.1, trivial, layChain_makes _ _ _ _ rest has.2⟩

end

theorem ofBlocks_makes {blocks : List Block} (has : Block.AllHave text escape blocks) {address : Nat} {instr : Instr}
    (found : (ofBlocks blocks).instr? address = some instr) : instr.Makes text escape := by
  have lines : ∀ line ∈ allLines blocks, line.instr.Makes text escape := by
    simp only [allLines, body, List.forall_mem_append, List.forall_mem_singleton]
    exact ⟨trivial, layBlocks_makes _ _ _ _ blocks has, trivial⟩
  obtain ⟨line, place, rfl⟩ := line_of_instr? blocks found
  exact lines line (List.mem_of_getElem? place)

end Program

/-! ### Compiled programs -/

namespace Template

open Markup (Element Node)

/-- The text stands in a template. -/
def Verbatim (templates : Fields Template) (s : String) : Prop :=
  ∃ entry ∈ templates, s ∈ entry.2.root.toNode.texts

/-- Texts stand in a template, and values are emitted with their special characters escaped. -/
def escaping (templates : Fields Template) : Contract where
  binding
    | .expr _ => True
    | .content nodes => ∀ node ∈ nodes, node.Everywhere (fun el => ¬el.hasAttr rawName) (Verbatim templates)
  text := Verbatim templates
  escape escaped := escaped = true

variable {templates : Fields Template}

theorem escaping_closed (unraw : ∀ entry ∈ templates, ∀ el ∈ entry.2.root.toNode.elements, ¬el.hasAttr rawName) :
    (escaping templates).Closed templates (Node.Everywhere (fun el => ¬el.hasAttr rawName) (Verbatim templates)) where
  cache _ _ _ := trivial
  fault _ _ _ := trivial
  named _ _ _ _ := trivial
  linked _ _ := .inl trivial
  text s harmless := harmless.texts s (by simp [Node.texts])
  escaped _ _ _ := rfl
  raw el harmless raw := absurd raw harmless.self
  child el harmless child member := harmless.child member
  bound el harmless _ := by
    rw [bound]
    split
    · split
      · exact fun child member => harmless.child member
      · trivial
    · exact fun child member => harmless.child member
  roots entry member := ⟨unraw entry member, fun s found => ⟨entry, member, found⟩⟩
  site el harmless _ := by
    refine harmless.change rfl ?_
    rw [hasAttr_callSite (by decide) (by decide)]
    exact harmless.self
  content nodes bound := bound

end Template

section compiled

variable {templates : Fields Template} {cache : Expr.ScopeCache} {name : String} {program : Program}

theorem compiled_makes (unraw : ∀ entry ∈ templates, ∀ el ∈ entry.2.root.toNode.elements, ¬el.hasAttr Template.rawName)
    (compiled : (Registry.compile templates cache name).1 = .ok program) {address : Nat} {instr : Instr}
    (found : program.instr? address = some instr) :
    instr.Makes (Template.Verbatim templates) (fun escaped => escaped = true) := by
  obtain ⟨blocks, expanded, rfl⟩ := blocks_of_compile compiled
  obtain ⟨template, registered, expanded⟩ := Template.template_of_blocksOf expanded
  have closed := Template.escaping_closed unraw
  obtain ⟨-, -, has⟩ := closed.expand trivial trivial _ (closed.start registered) { cache := cache } (.start trivial)
  rw [expanded] at has
  exact Program.ofBlocks_makes has found

/-- No value gets markup into a text. Where no template emits a value as it is, every text that a run of a
    compiled program creates stands in a template, or it is escaped and not read as markup; and in the
    markup of any node no attribute value has a quote inside its quotes. -/
theorem compiled_run_texts
    (unraw : ∀ entry ∈ templates, ∀ el ∈ entry.2.root.toNode.elements, ¬el.hasAttr Template.rawName)
    (compiled : (Registry.compile templates cache name).1 = .ok program) (steps : Nat) (document : Document Nat)
    (data : Fields Value) :
    (∀ node s, document.size ≤ node → (program.run steps document data).document.kind? node = some (.text s) →
      (∃ entry ∈ templates, s ∈ entry.2.root.toNode.texts) ∨ (∃ value, s = Text.escape value) ∧ Text.Inert s) ∧
    ∀ node, Tree.Spelled [(program.run steps document data).document.tree node]
      ((program.run steps document data).document.markup node) := by
  refine ⟨?_, fun node => Document.markup_spelled _ node⟩
  refine Machine.run_preserves (fun address instr found => ?_) steps data
    (Document.textsFrom_size _ document)
  refine Machine.exec_preserves ?_ ?_ (compiled_makes unraw compiled found)
  · exact fun s verbatim => .inl verbatim
  · rintro v _ rfl
    exact .inr ⟨⟨v.toText, rfl⟩, Text.escape_inert v.toText⟩

theorem overlappingLoops_run_texts :
    (∀ entry ∈ overlappingLoops, ∀ el ∈ entry.2.root.toNode.elements, ¬el.hasAttr Template.rawName) ∧
    ∃ program, (Registry.compile overlappingLoops [] "main").1 = .ok program ∧ ∀ steps (document : Document Nat) data,
      (∀ node s, document.size ≤ node → (program.run steps document data).document.kind? node = some (.text s) →
        (∃ entry ∈ overlappingLoops, s ∈ entry.2.root.toNode.texts) ∨
          (∃ value, s = Text.escape value) ∧ Text.Inert s) ∧
      ∀ node, Tree.Spelled [(program.run steps document data).document.tree node]
        ((program.run steps document data).document.markup node) := by
  have unraw : ∀ entry ∈ overlappingLoops, ∀ el ∈ entry.2.root.toNode.elements, ¬el.hasAttr Template.rawName := by
    decide
  obtain ⟨program, compiled⟩ := overlappingLoops_compiles
  exact ⟨unraw, program, compiled, compiled_run_texts unraw compiled⟩

end compiled

end Stencil
