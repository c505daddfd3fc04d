import Stencil.Proofs.Caches
import Stencil.Proofs.Contract

/-!
What is checked when a template is registered is all that an expansion needs. The attributes of an element
that is read have distinct names (`Markup.parse_distinct`), the elements of a validated tree are in order
(`validate_orderly`), and they stay so wherever an expansion takes them: into a call by itself, into passed
content and into captured content.
-/
namespace Stencil

open Stateful

namespace Markup

/-! ### Attributes of distinct names -/

/-- No two of the attributes have the same name. -/
def Distinct (attributes : List Attribute) : Prop :=
  (attributes.map Attribute.name).Nodup

/-- The keys of attributes, up to the first one that is malformed. -/
def keysOf (attributes : List (Except (Nat × AttributeFault) WrittenAttribute)) : List String :=
  attributes.filterMap fun a => a.toOption.map WrittenAttribute.key

section tags

variable {length position width : Nat} {seen : List (String × Nat)} {c : Char} {rest : List Char}
  {written : WrittenAttribute}

theorem scanAttribute_fresh (scanned : scanAttribute length seen position c rest = .ok (written, width)) :
    written.key ∉ seen.map Prod.fst := by
  unfold scanAttribute at scanned
  dsimp only at scanned
  split at scanned
  · split at scanned
    · cases scanned
    · next fresh =>
      dsimp only [pure, Except.pure, bind, Except.bind] at scanned
      split at scanned
      · cases scanned
      · split at scanned
        · split at scanned
          · cases scanned
          · cases scanned
            intro repeated
            obtain ⟨entry, member, same⟩ := List.mem_map.mp repeated
            exact bne_iff_ne.mp (List.lookup_eq_none_iff.mp fresh entry member) same.symm
        · cases scanned
  · cases scanned

theorem attributesFrom_distinct (length skip : Nat) (seen : List (String × Nat)) (position : Nat) (cs : List Char) :
    (keysOf (attributesFrom length skip seen position cs)).Nodup ∧
      ∀ key ∈ keysOf (attributesFrom length skip seen position cs), key ∉ seen.map Prod.fst := by
  fun_induction attributesFrom length skip seen position cs with
  | case1 skip seen position => exact ⟨List.nodup_nil, List.forall_mem_nil _⟩
  | case2 seen position skip c rest ih => exact ih
  | case3 seen position c rest space ih => exact ih
  | case4 seen position c rest space fault => exact ⟨List.nodup_nil, List.forall_mem_nil _⟩
  | case5 seen position c rest space written width scanned ih =>
    have fresh := scanAttribute_fresh scanned
    obtain ⟨distinct, apart⟩ := ih
    simp only [List.map_append, List.mem_append, not_or, List.map_cons, List.map_nil, List.mem_singleton] at apart
    constructor
    · exact List.nodup_cons.mpr ⟨fun repeated => (apart _ repeated).2 rfl, distinct⟩
    · exact List.forall_mem_cons.mpr ⟨fresh, fun key member => (apart key member).1⟩

/-- No two attributes of a tag that is scanned have the same key. -/
theorem scanTag_distinct (cs : List Char) : (keysOf (scanTag cs).attributes).Nodup :=
  (attributesFrom_distinct _ _ _ _ _).1

theorem attributeOf_name {tag : String} {a : Attribute} (resolved : attributeOf tag (.ok written) = .ok a) :
    a.name = written.key := by
  unfold attributeOf WrittenAttribute.resolve at resolved
  dsimp only at resolved
  split at resolved
  · cases resolved
  · split at resolved
    · cases resolved
      rfl
    · cases resolved

theorem names_eq_keysOf {tag : String} {attributes : List (Except (Nat × AttributeFault) WrittenAttribute)}
    {named : List Attribute} (resolved : attributes.mapM (attributeOf tag) = .ok named) :
    named.map Attribute.name = keysOf attributes := by
  induction attributes generalizing named with
  | nil =>
    cases resolved
    rfl
  | cons first rest ih =>
    rw [List.mapM_cons] at resolved
    obtain ⟨a, one, resolved⟩ := bind_eq_ok.mp resolved
    obtain ⟨others, more, same⟩ := bind_eq_ok.mp resolved
    cases same
    cases first with
    | error fault => cases one
    | ok written =>
      rw [List.map_cons, attributeOf_name one, ih more]
      rfl

theorem elementOfTag_distinct {tag : Tag} {el : Element} (distinct : (keysOf tag.attributes).Nodup)
    (opened : elementOfTag tag = .ok el) : Distinct el.attributes ∧ el.children = [] := by
  obtain ⟨attributes, resolved, same⟩ := bind_eq_ok.mp opened
  cases same
  refine ⟨?_, rfl⟩
  rw [Distinct, names_eq_keysOf resolved]
  exact distinct

end tags

/-! ### Events whose tags have attributes of distinct names -/

/-- No two attributes of the event have the same key. -/
def Event.Distinct : Event → Prop
  | start tag | empty tag => (keysOf tag.attributes).Nodup
  | _ => True

section events

variable {depth offset width : Nat} {c : Char} {rest : List Char} {event : Event}

theorem scanDeclaration_distinct (scanned : scanDeclaration offset rest = .ok (event, width)) : event.Distinct := by
  unfold scanDeclaration at scanned
  dsimp only at scanned
  -- comments, character data and document types have no attributes
  repeat' split at scanned
  all_goals cases scanned <;> trivial

theorem scanInstruction_distinct (scanned : scanInstruction offset rest = .ok (event, width)) : event.Distinct := by
  unfold scanInstruction at scanned
  dsimp only at scanned
  split at scanned
  · cases scanned
    split <;> trivial
  · cases scanned
  · cases scanned

theorem scanTagEvent_distinct (scanned : scanTagEvent depth offset rest = .ok (event, width)) : event.Distinct := by
  unfold scanTagEvent at scanned
  split at scanned
  · cases scanned
  · cases scanned
  · dsimp only at scanned
    split at scanned
    · split at scanned
      · cases scanned
      · cases scanned
        trivial
    · split at scanned
      · cases scanned
        exact scanTag_distinct _
      · cases scanned
        exact scanTag_distinct _

theorem scanEvent_distinct (scanned : scanEvent depth offset c rest = .ok (event, width)) : event.Distinct := by
  unfold scanEvent at scanned
  split at scanned
  · exact scanDeclaration_distinct scanned
  · exact scanInstruction_distinct scanned
  · exact scanTagEvent_distinct scanned
  · dsimp only at scanned
    split at scanned
    · cases scanned
      trivial
    · cases scanned
  · cases scanned
    trivial

theorem readFrom_distinct (skip depth offset : Nat) (cs : List Char) :
    ∀ entry ∈ (readFrom skip depth offset cs).events, entry.2.Distinct := by
  fun_induction readFrom skip depth offset cs with
  | case1 => exact List.forall_mem_nil _
  | case2 skip depth offset c rest ih => exact ih
  | case3 => exact List.forall_mem_nil _
  | case4 depth offset c rest event width scanned ih =>
    exact List.forall_mem_cons.mpr ⟨scanEvent_distinct scanned, ih⟩

theorem read_distinct (source : String) : ∀ entry ∈ (read source).events, entry.2.Distinct := by
  unfold read
  split
  · exact readFrom_distinct 0 0 0 _
  · exact readFrom_distinct 0 0 0 _

end events

/-! ### Trees of elements that are in order -/

theorem Node.everywhere_iff {onElement : Element → Prop} {onText : String → Prop} {el : Element} :
    el.toNode.Everywhere onElement onText ↔
      onElement el ∧ ∀ child ∈ el.children, child.Everywhere onElement onText := by
  constructor
  · exact fun everywhere => ⟨everywhere.self, fun child member => everywhere.child member⟩
  · rintro ⟨self, children⟩
    refine ⟨fun inner found => ?_, fun s found => ?_⟩
    · rcases List.mem_cons.mp found with rfl | found
      · exact self
      · obtain ⟨child, member, found⟩ := mem_elementsOf.mp found
        exact (children child member).elements inner found
    · obtain ⟨child, member, found⟩ := mem_textsOf.mp found
      exact (children child member).texts s found

/-- The attributes of every element of the tree have distinct names. -/
def Node.AllDistinct (node : Node) : Prop :=
  node.Everywhere (fun el => Distinct el.attributes) fun _ => True

theorem Node.allDistinct_of_leaf {node : Node} (leaf : node.isElement = false) : node.AllDistinct := by
  cases node with
  | element name attributes children => cases leaf
  | _ => exact ⟨List.forall_mem_nil _, fun _ _ => trivial⟩

namespace Builder

/-- The elements that are open, and the root, have attributes of distinct names throughout. -/
structure AllDistinct (b : Builder) : Prop where
  stack : ∀ el ∈ b.stack, el.toNode.AllDistinct
  root : ∀ el ∈ b.root, el.toNode.AllDistinct

section steps

variable {b b' : Builder} {parent el : Element} {outer : List Element}

theorem AllDistinct.change (distinct : b.AllDistinct) (stack : b.stack = parent :: outer)
    (same : el.attributes = parent.attributes)
    (children : ∀ child ∈ el.children, child ∈ parent.children ∨ child.AllDistinct) :
    AllDistinct { b with stack := el :: outer } := by
  have before := stack ▸ distinct.stack
  have inside := Node.everywhere_iff.mp (before parent List.mem_cons_self)
  refine ⟨fun e member => ?_, distinct.root⟩
  rcases List.mem_cons.mp member with rfl | member
  · refine Node.everywhere_iff.mpr ⟨same ▸ inside.1, fun child member => ?_⟩
    rcases children child member with old | new
    · exact inside.2 child old
    · exact new
  · exact before e (List.mem_cons_of_mem _ member)

theorem AllDistinct.addChild {child : Node} (distinct : b.AllDistinct) (stack : b.stack = parent :: outer)
    (new : child.AllDistinct) : AllDistinct { b with stack := parent.addChild child :: outer } := by
  refine distinct.change stack rfl fun other member => ?_
  rcases List.mem_append.mp member with old | same
  · exact .inl old
  · exact .inr (List.mem_singleton.mp same ▸ new)

theorem AllDistinct.attach (distinct : b.AllDistinct) (new : el.toNode.AllDistinct) : (b.attach el).AllDistinct := by
  unfold Builder.attach
  split
  · next stack => exact distinct.addChild stack new
  · exact ⟨distinct.stack, by rintro _ ⟨⟩; exact new⟩

theorem AllDistinct.addText {s : String} (distinct : b.AllDistinct) (added : b.addText s = .ok b') :
    b'.AllDistinct := by
  unfold Builder.addText at added
  split at added
  · next parent outer stack =>
    cases added
    refine distinct.change stack rfl fun child member => ?_
    have text (t : String) : (Node.text t).AllDistinct := Node.allDistinct_of_leaf rfl
    simp only [appendText] at member
    split at member
    · rcases List.mem_append.mp member with old | same
      · exact .inl (List.dropLast_subset _ old)
      · exact .inr (List.mem_singleton.mp same ▸ text _)
    · rcases List.mem_append.mp member with old | same
      · exact .inl old
      · exact .inr (List.mem_singleton.mp same ▸ text _)
  · split at added
    · cases added
      exact distinct
    · cases added

theorem AllDistinct.addAside {node : Node} (distinct : b.AllDistinct) (leaf : node.isElement = false) :
    (b.addAside node).AllDistinct := by
  unfold Builder.addAside
  split
  · next stack => exact distinct.addChild stack (Node.allDistinct_of_leaf leaf)
  · exact distinct

theorem openTag_distinct {tag : Tag} (keys : (keysOf tag.attributes).Nodup) (opened : b.openTag tag = .ok el) :
    el.toNode.AllDistinct := by
  obtain ⟨el', read, opened⟩ := bind_eq_ok.mp opened
  obtain ⟨distinct, childless⟩ := elementOfTag_distinct keys read
  have whole : el'.toNode.AllDistinct :=
    Node.everywhere_iff.mpr ⟨distinct, by rw [childless]; exact List.forall_mem_nil _⟩
  split at opened
  · cases opened
  · cases opened
    exact whole

theorem AllDistinct.step {event : Event} (distinct : b.AllDistinct) (keys : event.Distinct)
    (stepped : b.step event = .ok b') : b'.AllDistinct := by
  cases event with
  | start tag =>
    obtain ⟨el, opened, same⟩ := bind_eq_ok.mp stepped
    cases same
    refine ⟨fun e member => ?_, distinct.root⟩
    rcases List.mem_cons.mp member with rfl | member
    · exact openTag_distinct keys opened
    · exact distinct.stack e member
  | empty tag =>
    obtain ⟨el, opened, same⟩ := bind_eq_ok.mp stepped
    cases same
    exact distinct.attach (openTag_distinct keys opened)
  | close name =>
    simp only [Builder.step, Builder.close] at stepped
    split at stepped
    · cases stepped
    · next el outer stack =>
      split at stepped
      · cases stepped
        have before := stack ▸ distinct.stack
        have rest : AllDistinct { b with stack := outer } :=
          ⟨fun e member => before e (List.mem_cons_of_mem _ member), distinct.root⟩
        exact rest.attach (before el List.mem_cons_self)
      · cases stepped
  | text s => exact distinct.addText stepped
  | reference name => exact distinct.addText stepped
  | cdata s =>
    simp only [Builder.step, Builder.addCdata] at stepped
    split at stepped
    · next stack =>
      cases stepped
      exact distinct.addChild stack (Node.allDistinct_of_leaf rfl)
    · cases stepped
  | comment s =>
    cases stepped
    exact distinct.addAside rfl
  | instruction content =>
    cases stepped
    exact distinct.addAside rfl
  | declaration =>
    simp only [Builder.step] at stepped
    split at stepped
    · cases stepped
      exact distinct
    · cases stepped
  | doctype => cases stepped

theorem AllDistinct.run {events : List (Nat × Event)} (distinct : b.AllDistinct)
    (keys : ∀ entry ∈ events, entry.2.Distinct) (ran : b.run events = .ok b') : b'.AllDistinct := by
  induction events generalizing b with
  | nil =>
    cases ran
    exact distinct
  | cons first rest ih =>
    obtain ⟨first, others⟩ := List.forall_mem_cons.mp keys
    rw [Builder.run] at ran
    split at ran
    · next stepped => exact ih (distinct.step first stepped) others ran
    · cases ran

end steps

end Builder

theorem parse_distinct {source : String} {root : Element} (parsed : parse source = .ok root) :
    root.toNode.AllDistinct := by
  rw [parse] at parsed
  cases whole : (read source).root with
  | error fault =>
    rw [whole] at parsed
    cases parsed
  | ok el =>
    rw [whole] at parsed
    cases parsed
    obtain ⟨b, ran, ended⟩ := bind_eq_ok.mp whole
    have start : Builder.AllDistinct {} := ⟨List.forall_mem_nil _, by rintro _ ⟨⟩⟩
    have distinct := start.run (read_distinct source) ran
    split at ended
    · cases ended
    · next offset _ =>
      cases finished : b.finish with
      | error cause =>
        rw [finished] at ended
        cases ended
      | ok el' =>
        rw [finished] at ended
        cases ended
        unfold Builder.finish at finished
        split at finished
        · cases finished
        · split at finished
          · next found =>
            cases finished
            exact distinct.root _ found
          · cases finished

end Markup

namespace Template

open Markup (Attribute Element Node)

/-! ### What validation checks -/

section elements

variable {el : Element}

theorem checkElement_ok (checked : checkElement el = .ok ()) :
    branchCount el ≤ 1 ∧ (el.hasAttr foreachName → branchCount el = 0 ∧ el.hasAttr asName) := by
  unfold checkElement at checked
  split at checked
  · cases checked
  · next single =>
    split at checked
    · split at checked
      · cases checked
      · next none =>
        split at checked
        · next named => exact ⟨by omega, fun _ => ⟨by omega, named⟩⟩
        · cases checked
    · next plain => exact ⟨by omega, fun loop => absurd loop plain⟩

theorem branchCount_eq (el : Element) :
    branchCount el = (el.hasAttr ifName).toNat + (el.hasAttr elifName).toNat + (el.hasAttr elseName).toNat := by
  simp only [branchCount, branchNames, List.filter_cons, List.filter_nil]
  cases el.hasAttr ifName <;> cases el.hasAttr elifName <;> cases el.hasAttr elseName <;> rfl

/-- The place in a chain that validation and expansion give to an element that was checked. -/
theorem ofNode?_of_checked (checked : checkElement el = .ok ()) :
    match Branch.ofNode? el.toNode with
    | none => continuesChain el = false ∧ leavesChainOpen el = false
    | some (.first _) => continuesChain el = false ∧ leavesChainOpen el = true
    | some (.next _) => continuesChain el = true ∧ leavesChainOpen el = true
    | some .last => continuesChain el = true ∧ leavesChainOpen el = false := by
  obtain ⟨single, repeated⟩ := checkElement_ok checked
  rw [branchCount_eq] at single repeated
  have found : Branch.ofNode? el.toNode = if el.hasAttr foreachName then none else Branch.of? el := rfl
  rw [Element.hasAttr_eq ifName, Element.hasAttr_eq elifName] at single repeated
  rw [found, Branch.of?, continuesChain, leavesChainOpen, Element.hasAttr_eq ifName, Element.hasAttr_eq elifName]
  cases loop : el.hasAttr foreachName with
  | true =>
    obtain ⟨none, -⟩ := repeated loop
    cases first : el.attr? ifName <;> cases next : el.attr? elifName <;> cases last : el.hasAttr elseName <;>
      simp_all
  | false =>
    cases first : el.attr? ifName <;> cases next : el.attr? elifName <;> cases last : el.hasAttr elseName <;>
      simp_all

end elements

/-- An element as validation leaves it. -/
structure InOrder (el : Element) : Prop where
  named : el.hasAttr foreachName → el.hasAttr asName
  chained : Chained false el.children
  distinct : Markup.Distinct el.attributes

/-- Every element of the tree is as validation leaves it. -/
def Orderly (node : Node) : Prop :=
  node.Everywhere InOrder fun _ => True

theorem orderly_of_leaf {node : Node} (leaf : node.isElement = false) : Orderly node := by
  cases node with
  | element name attributes children => cases leaf
  | _ => exact ⟨List.forall_mem_nil _, fun _ _ => trivial⟩

theorem ofNode?_of_leaf {node : Node} (leaf : node.isElement = false) : Branch.ofNode? node = none := by
  cases node with
  | element name attributes children => cases leaf
  | _ => rfl

/-- Nodes that are not elements close a chain and need none. -/
theorem chained_append {opened : Bool} {between rest : List Node} (leaves : ∀ n ∈ between, n.isElement = false)
    (chained : Chained (opened && between.isEmpty) rest) : Chained opened (between ++ rest) := by
  induction between generalizing opened with
  | nil => simpa using chained
  | cons node between ih =>
    rw [List.cons_append, Chained, ofNode?_of_leaf (leaves node List.mem_cons_self)]
    exact ih (fun n member => leaves n (List.mem_cons_of_mem _ member)) (by simpa using chained)

/-- An element that was checked stands in a chain if one is open where it continues one, whatever its children
    have become. -/
theorem chained_cons {opened : Bool} {el : Element} {children rest : List Node} (checked : checkElement el = .ok ())
    (open_ : continuesChain el = true → opened = true) (chained : Chained (leavesChainOpen el) rest) :
    Chained opened ({ el with children := children }.toNode :: rest) := by
  have place := ofNode?_of_checked checked
  have same : Branch.ofNode? { el with children := children }.toNode = Branch.ofNode? el.toNode := rfl
  rw [Chained, same]
  split
  · next found =>
    rw [found] at place
    exact place.2 ▸ chained
  · next found =>
    rw [found] at place
    exact place.2 ▸ chained
  · next found =>
    rw [found] at place
    exact ⟨open_ place.1, place.2 ▸ chained⟩
  · next found =>
    rw [found] at place
    exact ⟨open_ place.1, place.2 ▸ chained⟩

theorem orderly_checked {el : Element} {children : List Node} (checked : checkElement el = .ok ())
    (distinct : el.toNode.AllDistinct) (below : (∀ n ∈ children, Orderly n) ∧ Chained false children) :
    Orderly { el with children := children }.toNode :=
  Node.everywhere_iff.mpr ⟨⟨fun loop => ((checkElement_ok checked).2 loop).2, below.2, distinct.self⟩, below.1⟩

/-- Before an element that continues a chain, one is open and nothing is kept; before another, all is. -/
theorem keptBefore_ok {open? : Option Bool} {between kept : List Node} {el : Element}
    (before : keptBefore open? between el = .ok kept) :
    (open? = some true ∧ kept = []) ∨ (continuesChain el = false ∧ kept = between) := by
  unfold keptBefore at before
  split at before
  · split at before
    · next opened =>
      split at before
      · cases before
        exact .inl ⟨opened, rfl⟩
      · cases before
    · cases before
  · next plain =>
    cases before
    exact .inr ⟨Bool.eq_false_iff.mpr plain, rfl⟩

theorem chained_kept {open? : Option Bool} {between kept children rest : List Node} {el : Element}
    (leaves : ∀ n ∈ between, n.isElement = false) (checked : checkElement el = .ok ())
    (before : keptBefore open? between el = .ok kept) (chained : Chained (leavesChainOpen el) rest) :
    Chained (open? == some true) (kept ++ { el with children := children }.toNode :: rest) := by
  rcases keptBefore_ok before with ⟨opened, rfl⟩ | ⟨plain, rfl⟩
  · exact chained_cons checked (fun _ => by simp [opened]) chained
  · exact chained_append leaves (chained_cons checked (fun continues => absurd continues (by simp [plain])) chained)

theorem validateFrom_orderly {open? : Option Bool} {between nodes valid : List Node}
    (leaves : ∀ n ∈ between, n.isElement = false) (distinct : ∀ n ∈ nodes, n.AllDistinct)
    (validated : validateFrom open? between nodes = .ok valid) :
    (∀ n ∈ valid, Orderly n) ∧ Chained (open? == some true) valid := by
  -- along the validation; what stands between elements closes a chain, unless it is dropped
  induction open?, between, nodes using validateFrom.induct generalizing valid with
  | case1 open? between =>
    rw [validateFrom] at validated
    cases validated
    have alone : Chained (open? == some true) (between ++ []) := chained_append leaves trivial
    exact ⟨fun n member => orderly_of_leaf (leaves n member), by rwa [List.append_nil] at alone⟩
  | case2 open? between name attributes children rest el inside =>
    rename_i others
    rw [validateFrom] at validated
    obtain ⟨_, checked, validated⟩ := bind_eq_ok.mp validated
    obtain ⟨kept, before, validated⟩ := bind_eq_ok.mp validated
    obtain ⟨children', below, validated⟩ := bind_eq_ok.mp validated
    obtain ⟨rest', after, same⟩ := bind_eq_ok.mp validated
    cases same
    have first : el.toNode.AllDistinct := distinct _ List.mem_cons_self
    have whole : Orderly (.element name attributes children') :=
      orderly_checked checked first (inside (List.forall_mem_nil _) (fun n member => first.child member) below)
    obtain ⟨orderly, chained⟩ := others (List.forall_mem_nil _)
      (fun n member => distinct n (List.mem_cons_of_mem _ member)) after
    have chained : Chained (leavesChainOpen el) rest' := by simpa using chained
    refine ⟨fun n member => ?_, chained_kept leaves checked before chained⟩
    rcases List.mem_append.mp member with old | new
    · rcases keptBefore_ok before with ⟨-, rfl⟩ | ⟨-, rfl⟩
      · cases old
      · exact orderly_of_leaf (leaves n old)
    · exact List.forall_mem_cons.mpr ⟨whole, orderly⟩ n new
  | case3 open? between node rest leaf ih =>
    rw [validateFrom] at validated
    · have alone : node.isElement = false := by
        cases node with
        | element name attributes children => exact absurd rfl (leaf name attributes children)
        | _ => rfl
      refine ih ?_ (fun n member => distinct n (List.mem_cons_of_mem _ member)) validated
      intro n member
      rcases List.mem_append.mp member with old | same
      · exact leaves n old
      · exact List.mem_singleton.mp same ▸ alone
    · exact leaf

/-- A tree in order that may be expanded by itself: its root continues no chain. -/
def Standalone (node : Node) : Prop :=
  Orderly node ∧ Chained false [node]

theorem validate_orderly {root valid : Element} (distinct : root.toNode.AllDistinct)
    (validated : validate root = .ok valid) : Standalone valid.toNode := by
  obtain ⟨_, checked, validated⟩ := bind_eq_ok.mp validated
  split at validated
  · cases validated
  · next plain =>
    obtain ⟨children, below, same⟩ := bind_eq_ok.mp validated
    cases same
    have inside := validateFrom_orderly (List.forall_mem_nil _) (fun n member => distinct.child member) below
    exact ⟨orderly_checked checked distinct inside,
      chained_cons checked (fun continues => absurd continues plain) trivial⟩

theorem parse_eq_ok {name markup : String} {reader : Markup.Reader} {template : Template}
    (parsed : Template.parse name markup reader = .ok template) :
    ∃ root, Markup.parse markup reader = .ok root ∧ validate root = .ok template.root := by
  rw [Template.parse] at parsed
  split at parsed
  · cases parsed
  · cases read : Markup.parse markup reader with
    | error e =>
      rw [read] at parsed
      cases parsed
    | ok root =>
      rw [read] at parsed
      obtain ⟨_, same, parsed⟩ := bind_eq_ok.mp parsed
      cases same
      cases validated : validate root with
      | error fault =>
        rw [validated] at parsed
        cases parsed
      | ok valid =>
        rw [validated] at parsed
        cases parsed
        exact ⟨root, rfl, validated⟩

/-! ### Calls by themselves -/

section sites

variable {el : Element} {name : String}

theorem distinct_removeAttr (distinct : Markup.Distinct el.attributes) :
    Markup.Distinct (el.removeAttr name).attributes :=
  List.Nodup.sublist (List.eraseP_sublist.map _) distinct

theorem hasAttr_removeAttr_self (distinct : Markup.Distinct el.attributes) :
    (el.removeAttr name).hasAttr name = false := by
  obtain ⟨tag, attributes, children⟩ := el
  simp only [Element.hasAttr, Element.removeAttr, List.any_eq_false, decide_eq_true_eq]
  induction attributes with
  | nil => exact List.forall_mem_nil _
  | cons a rest ih =>
    obtain ⟨fresh, distinct⟩ := List.nodup_cons.mp distinct
    by_cases same : a.name = name
    · rw [List.eraseP_cons_of_pos (by simpa using same)]
      intro b member again
      exact fresh (List.mem_map.mpr ⟨b, member, again.trans same.symm⟩)
    · rw [List.eraseP_cons_of_neg (by simpa using same)]
      exact List.forall_mem_cons.mpr ⟨same, ih distinct⟩

theorem hasAttr_removeAttr_of_ne {other : String} (differ : other ≠ name) (el : Element) :
    (el.removeAttr other).hasAttr name = el.hasAttr name := by
  rw [Element.hasAttr_eq, Element.hasAttr_eq, Element.attr?_removeAttr_of_ne differ]

theorem ofNode?_callSite (distinct : Markup.Distinct el.attributes) : Branch.ofNode? (callSite el).toNode = none := by
  have found : Branch.ofNode? (callSite el).toNode =
      if (callSite el).hasAttr foreachName then none else Branch.of? (callSite el) := rfl
  have called : Markup.Distinct (el.removeAttr callName).attributes := distinct_removeAttr distinct
  have first : (callSite el).hasAttr ifName = false := by
    simp only [callSite, branchNames, List.foldl_cons, List.foldl_nil]
    rw [hasAttr_removeAttr_of_ne (by decide), hasAttr_removeAttr_of_ne (by decide)]
    exact hasAttr_removeAttr_self called
  have next : (callSite el).hasAttr elifName = false := by
    simp only [callSite, branchNames, List.foldl_cons, List.foldl_nil]
    rw [hasAttr_removeAttr_of_ne (by decide)]
    exact hasAttr_removeAttr_self (distinct_removeAttr called)
  have last : (callSite el).hasAttr elseName = false :=
    hasAttr_removeAttr_self (distinct_removeAttr (distinct_removeAttr called))
  rw [Element.hasAttr_eq, Option.isSome_eq_false_iff, Option.isNone_iff_eq_none] at first next
  rw [found, Branch.of?, first, next, last]
  exact ite_self _

theorem Orderly.callSite (orderly : Orderly el.toNode) : Standalone (callSite el).toNode := by
  have self := orderly.self
  have distinct : Markup.Distinct (Template.callSite el).attributes :=
    distinct_removeAttr (distinct_removeAttr (distinct_removeAttr (distinct_removeAttr self.distinct)))
  constructor
  · refine orderly.change rfl ⟨?_, self.chained, distinct⟩
    rw [hasAttr_callSite (by decide) (by decide), hasAttr_callSite (by decide) (by decide)]
    exact self.named
  · rw [Chained, ofNode?_callSite self.distinct]
    trivial

end sites

/-! ### Expansions -/

/-- Captured content is in order, and where an expansion fails for the structure of directives, a template
    includes itself. -/
def orderly : Contract where
  binding
    | .expr _ => True
    | .content nodes => (∀ n ∈ nodes, Orderly n) ∧ Chained false nodes
  fault e := ∀ fault, e = .structure fault → ∃ template, fault = .includesItself template

/-- Nodes in order, called from nodes in order. -/
structure Arranged (templates : Fields Template) (around : Surroundings) (nodes : List Node) : Prop where
  registered : around.templates = templates
  callers : ∀ caller ∈ around.callers, Standalone caller
  members : ∀ n ∈ nodes, Orderly n
  chained : Chained false nodes

section expansions

variable {templates : Fields Template} {around : Surroundings} {nodes : List Node} {node : Node}

theorem Arranged.single (registered : around.templates = templates)
    (callers : ∀ caller ∈ around.callers, Standalone caller) (alone : Standalone node) :
    Arranged templates around [node] :=
  ⟨registered, callers, fun _ member => List.mem_singleton.mp member ▸ alone.1, alone.2⟩

theorem Arranged.allows (roots : ∀ entry ∈ templates, Standalone entry.2.root.toNode)
    (arranged : Arranged templates around nodes) : orderly.Allows around Orderly (Arranged templates) where
  cache _ _ _ := trivial
  fault _ _ circular := circular
  named el good loop nameless := by
    have given := good.self.named loop
    rw [Element.hasAttr_eq, nameless] at given
    cases given
  linked el good := .inr good.self.chained
  text _ _ := trivial
  escaped _ _ _ := trivial
  raw _ _ _ := trivial
  child el good child member := good.child member
  bound el good _ := by
    have content : orderly.binding (.content el.children) := ⟨fun n member => good.child member, good.self.chained⟩
    rw [bound]
    split
    · split
      · exact content
      · trivial
    · exact content
  content contents bound := ⟨arranged.registered, arranged.callers, bound.1, bound.2⟩
  caller caller outer called := by
    have alone : ∀ n ∈ caller :: outer, Standalone n := called ▸ arranged.callers
    exact .single arranged.registered (fun n member => alone n (List.mem_cons_of_mem _ member))
      (alone caller List.mem_cons_self)
  site el good _ := .single arranged.registered (List.forall_mem_nil _) good.callSite
  root el target template good called found _ := by
    refine .single arranged.registered ?_ (roots _ (Fields.mem_of_get? (arranged.registered ▸ found)))
    exact List.forall_mem_cons.mpr ⟨good.callSite, arranged.callers⟩

/-- An expansion of validated trees, in which no element has two attributes of one name, fails for the structure
    of directives only where a template includes itself. -/
theorem compile_structure_of_validated
    (valid : ∀ entry ∈ templates, ∃ root, root.toNode.AllDistinct ∧ validate root = .ok entry.2.root)
    (cache : Expr.ScopeCache) (name : String) (fault : StructureFault)
    (failed : (Registry.compile templates cache name).1 = .error (.structure fault)) :
    ∃ template, fault = .includesItself template := by
  have roots : ∀ entry ∈ templates, Standalone entry.2.root.toNode := by
    intro entry member
    obtain ⟨root, distinct, validated⟩ := valid entry member
    exact validate_orderly distinct validated
  rw [Registry.compile] at failed
  cases found : templates.get? name with
  | none =>
    rw [blocksOf, found] at failed
    cases failed
  | some template =>
    have start : Arranged templates ⟨templates, [name], []⟩ [template.root.toNode] :=
      .single rfl (List.forall_mem_nil _) (roots _ (Fields.mem_of_get? found))
    have kept : orderly.Yields orderly.Blocks (blocksOf templates name) := by
      rw [blocksOf_eq found]
      refine Contract.expand_keeps (fun _ => Arranged templates) 0 (fun _ _ _ => .throw (by rintro _ ⟨⟩)) ?_ _ _ _ start
      exact fun _ _ _ arranged => ⟨Orderly, arranged.members, .inr arranged.chained, arranged.allows roots⟩
    obtain ⟨-, -, ends⟩ := kept { cache := cache } (.start trivial)
    rcases ran : blocksOf templates name { cache := cache } with ⟨result, progress⟩
    rw [ran] at failed ends
    cases result with
    | ok blocks => cases failed
    | error e => exact ends fault (Except.error.inj failed)

/-- An expansion of parsed templates fails for the structure of directives only where a template includes
    itself: every alternative stands in a chain and every repetition has a name, wherever they are expanded. -/
theorem compile_structure_fault
    (parsed : ∀ entry ∈ templates, ∃ name markup, Template.parse name markup = .ok entry.2)
    (cache : Expr.ScopeCache) (name : String) (fault : StructureFault)
    (failed : (Registry.compile templates cache name).1 = .error (.structure fault)) :
    ∃ template, fault = .includesItself template := by
  refine compile_structure_of_validated (fun entry member => ?_) cache name fault failed
  obtain ⟨_, _, parsed⟩ := parsed entry member
  obtain ⟨root, read, validated⟩ := parse_eq_ok parsed
  exact ⟨root, Markup.parse_distinct read, validated⟩

end expansions

/-- The fault of the directives, where that is why nothing is answered. -/
def structureFault? {α : Type} : Except CompileError α → Option StructureFault
  | .error (.structure fault) => some fault
  | _ => none

theorem structureFault?_eq_some {α : Type} {answer : Except CompileError α} {fault : StructureFault}
    (given : structureFault? answer = some fault) : answer = .error (.structure fault) := by
  unfold structureFault? at given
  split at given
  · cases given
    rfl
  · cases given

/-- Templates that call each other, one as the alternative of a chain and the other in a repetition. -/
def circular : Fields Template :=
  [("page", ⟨"<t><p t-if='a'/> <t t-else='' t-call='card'/></t>", ⟨"t", [],
      [.element "p" [⟨"t-if", "a"⟩] [], .element "t" [⟨"t-else", ""⟩, ⟨"t-call", "card"⟩] []]⟩⟩),
   ("card", ⟨"<ul t-foreach='xs' t-as='x'><t t-call='page'/></ul>", ⟨"ul",
      [⟨"t-foreach", "xs"⟩, ⟨"t-as", "x"⟩], [.element "t" [⟨"t-call", "page"⟩] []]⟩⟩)]

theorem circular_compile_fault :
    (Registry.compile circular [] "page").1 = .error (.structure (.includesItself "page")) ∧
      ∃ template, StructureFault.includesItself "page" = .includesItself template := by
  have parsed : ∀ entry ∈ circular, ∃ name markup, Template.parse name markup = .ok entry.2 := by
    rw [circular, List.forall_mem_cons, List.forall_mem_singleton]
    have page : Markup.parse "<t><p t-if='a'/> <t t-else='' t-call='card'/></t>" =
        .ok ⟨"t", [], [.element "p" [⟨"t-if", "a"⟩] [], .text " ",
          .element "t" [⟨"t-else", ""⟩, ⟨"t-call", "card"⟩] []]⟩ := rfl
    have card : Markup.parse "<ul t-foreach='xs' t-as='x'><t t-call='page'/></ul>" =
        .ok ⟨"ul", [⟨"t-foreach", "xs"⟩, ⟨"t-as", "x"⟩], [.element "t" [⟨"t-call", "page"⟩] []]⟩ := rfl
    refine ⟨⟨"page", _, Template.parse_ok (by decide +kernel) page ?_⟩,
      ⟨"card", _, Template.parse_ok (by decide +kernel) card ?_⟩⟩
    · simp only [Template.validate, Template.validateFrom]
      rfl
    · simp only [Template.validate, Template.validateFrom]
      rfl
  have failed : (Registry.compile circular [] "page").1 = .error (.structure (.includesItself "page")) :=
    structureFault?_eq_some (by decide +kernel)
  exact ⟨failed, compile_structure_fault parsed [] "page" _ failed⟩

end Template

end Stencil
