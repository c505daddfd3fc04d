import Stencil.Proofs.Validation

/-!
Which directive structures are legal. Validation accepts exactly the trees whose directives go together and whose
chains of alternatives are whole, and all it changes is that blank text inside of chains is dropped. What it leaves
is legal, and validating it once more changes nothing.
-/
namespace Stencil

open Stateful

namespace Template

open Markup (Element Node)

/-! ### Legal trees -/

/-- The directives of an element go together: at most one of them makes it an alternative, and a repetition has a
    name and is no alternative. -/
structure Compatible (el : Element) : Prop where
  single : ∀ a ∈ branchNames, ∀ b ∈ branchNames, el.hasAttr a → el.hasAttr b → a = b
  repeated : el.hasAttr foreachName → el.hasAttr asName ∧ ∀ a ∈ branchNames, ¬el.hasAttr a

/-- A chain may go on behind the nodes: the last element among them leaves one open, and nothing but blank text
    stands behind it. -/
def OpenAfter (nodes : List Node) : Prop :=
  ∃ (earlier : List Node) (el : Element) (blanks : List Node), nodes = earlier ++ el.toNode :: blanks ∧
    leavesChainOpen el ∧ ∀ n ∈ blanks, n.isBlankText

/-- Every element of a row that continues a chain stands behind one that may go on; `before` are the nodes in front
    of the row. -/
def Continued (before nodes : List Node) : Prop :=
  ∀ earlier (el : Element) later, nodes = earlier ++ el.toNode :: later → continuesChain el →
    OpenAfter (before ++ earlier)

/-- A tree whose directives go together, with chains of alternatives that are whole. -/
structure Legal (root : Element) : Prop where
  compatible : ∀ el ∈ root.toNode.elements, Compatible el
  first : ¬continuesChain root
  continued : ∀ el ∈ root.toNode.elements, Continued [] el.children

/-! ### Blank text inside of chains -/

/-- The first element among nodes, if nothing but blank text stands before it. -/
def nearest? (nodes : List Node) : Option Element :=
  (nodes.dropWhile Node.isBlankText).head?.bind Node.element?

/-- The node is blank text between two alternatives of a chain, with nothing but blank text on the way to either. -/
def insideChain (before : List Node) (node : Node) (after : List Node) : Bool :=
  node.isBlankText && (nearest? before.reverse).any leavesChainOpen && (nearest? after).any continuesChain

mutual

/-- The nodes without the blank text inside of chains, at every depth; `before` are the nodes in front of them. -/
def tidyRow (before : List Node) : List Node → List Node
  | [] => []
  | node :: rest =>
    if insideChain before node rest then tidyRow (before ++ [node]) rest
    else tidyNode node :: tidyRow (before ++ [node]) rest

/-- The node without the blank text inside of chains below it. -/
def tidyNode : Node → Node
  | .element name attributes children => .element name attributes (tidyRow [] children)
  | node => node

end

/-- The element without the blank text inside of chains below it. -/
def tidy (el : Element) : Element :=
  { el with children := tidyRow [] el.children }

/-! ### Single elements -/

theorem compatible_iff (el : Element) :
    Compatible el ↔ branchCount el ≤ 1 ∧ (el.hasAttr foreachName → branchCount el = 0 ∧ el.hasAttr asName) := by
  have single : (∀ a ∈ branchNames, ∀ b ∈ branchNames, el.hasAttr a → el.hasAttr b → a = b) ↔ branchCount el ≤ 1 := by
    rw [branchCount_eq]
    simp only [branchNames, List.mem_cons, List.not_mem_nil, or_false, forall_eq_or_imp, forall_eq]
    cases el.hasAttr ifName <;> cases el.hasAttr elifName <;> cases el.hasAttr elseName <;> decide
  have none : (∀ a ∈ branchNames, ¬el.hasAttr a) ↔ branchCount el = 0 := by
    rw [branchCount, List.length_eq_zero_iff, List.filter_eq_nil_iff]
  constructor
  · rintro ⟨alone, repeated⟩
    exact ⟨single.mp alone, fun loop => ⟨none.mp (repeated loop).2, (repeated loop).1⟩⟩
  · rintro ⟨few, repeated⟩
    exact ⟨single.mpr few, fun loop => ⟨(repeated loop).2, none.mpr (repeated loop).1⟩⟩

theorem checkElement_eq_ok (el : Element) : checkElement el = .ok () ↔ Compatible el := by
  rw [compatible_iff]
  constructor
  · exact checkElement_ok
  · rintro ⟨single, repeated⟩
    rw [checkElement, if_neg (by omega)]
    split
    · next loop =>
      obtain ⟨none, named⟩ := repeated loop
      rw [if_neg (by omega), if_pos named]
    · rfl

/-! ### The nearest element -/

section nearest

variable {nodes between rest : List Node} {node : Node} {el : Element}

theorem isElement_eq_false (leaf : ∀ name attributes children, node = .element name attributes children → False) :
    node.isElement = false := by
  cases node with
  | element name attributes children => exact absurd rfl (leaf name attributes children)
  | _ => rfl

theorem isElement_of_blank (blank : node.isBlankText) : node.isElement = false := by
  cases node with
  | element name attributes children => cases blank
  | _ => rfl

@[simp] theorem nearest?_element : nearest? (el.toNode :: rest) = some el := rfl

theorem nearest?_cons_blank (blank : node.isBlankText) : nearest? (node :: rest) = nearest? rest := by
  simp [nearest?, blank]

theorem nearest?_cons_leaf (leaf : node.isElement = false) (shown : ¬node.isBlankText) :
    nearest? (node :: rest) = none := by
  have none : node.element? = none := by simpa [Node.isElement] using leaf
  simp [nearest?, shown, none]

/-- Behind nodes that are no elements, the nearest element is in sight if they are blank. -/
theorem nearest?_leaves (leaves : ∀ n ∈ between, n.isElement = false) :
    nearest? (between ++ rest) = if between.all Node.isBlankText then nearest? rest else none := by
  induction between with
  | nil => rfl
  | cons node between ih =>
    obtain ⟨leaf, others⟩ := List.forall_mem_cons.mp leaves
    by_cases blank : node.isBlankText
    · rw [List.cons_append, nearest?_cons_blank blank, ih others]
      simp [blank]
    · rw [List.cons_append, nearest?_cons_leaf leaf blank]
      simp [blank]

theorem nearest?_blanks (blank : ∀ n ∈ between, n.isBlankText) : nearest? (between ++ rest) = nearest? rest := by
  rw [nearest?_leaves fun n member => isElement_of_blank (blank n member), if_pos (List.all_eq_true.mpr blank)]

theorem nearest?_eq_some (found : nearest? nodes = some el) :
    ∃ blanks later, nodes = blanks ++ el.toNode :: later ∧ ∀ n ∈ blanks, n.isBlankText := by
  induction nodes with
  | nil => cases found
  | cons node rest ih =>
    by_cases blank : node.isBlankText
    · rw [nearest?_cons_blank blank] at found
      obtain ⟨blanks, later, rfl, all⟩ := ih found
      exact ⟨node :: blanks, later, rfl, List.forall_mem_cons.mpr ⟨blank, all⟩⟩
    · cases node with
      | element name attributes children =>
        obtain rfl := Option.some.inj found
        exact ⟨[], rest, rfl, List.forall_mem_nil _⟩
      | _ =>
        rw [nearest?_cons_leaf rfl blank] at found
        cases found

theorem openAfter_iff : OpenAfter nodes ↔ (nearest? nodes.reverse).any leavesChainOpen := by
  constructor
  · rintro ⟨earlier, el, blanks, rfl, opened, blank⟩
    have reversed : (earlier ++ el.toNode :: blanks).reverse = blanks.reverse ++ el.toNode :: earlier.reverse := by simp
    rw [reversed, nearest?_blanks (by simpa using blank), nearest?_element]
    exact opened
  · intro opened
    cases found : nearest? nodes.reverse with
    | none =>
      rw [found] at opened
      cases opened
    | some el =>
      rw [found] at opened
      obtain ⟨blanks, later, reversed, blank⟩ := nearest?_eq_some found
      refine ⟨later.reverse, el, blanks.reverse, ?_, opened, by simpa using blank⟩
      rw [← List.reverse_reverse nodes, reversed]
      simp

end nearest

/-! ### Rows of nodes -/

section rows

variable {before earlier between nodes rest : List Node} {node : Node} {el : Element} {open? : Option Bool}

/-- Nodes end with the last element before the next ones; `open?` says whether a chain may go on after it. -/
inductive EndsWith : List Node → Option Bool → Prop
  | nothing : EndsWith [] none
  | element (earlier : List Node) (el : Element) : EndsWith (earlier ++ [el.toNode]) (some (leavesChainOpen el))

theorem EndsWith.openAfter_iff (ends : EndsWith earlier open?) (leaves : ∀ n ∈ between, n.isElement = false) :
    OpenAfter (earlier ++ between) ↔ open? = some true ∧ between.all Node.isBlankText := by
  rw [Template.openAfter_iff, List.reverse_append, nearest?_leaves (by simpa using leaves), List.all_reverse]
  by_cases blank : between.all Node.isBlankText
  · cases ends with
    | nothing => simp [blank, nearest?]
    | element earlier el => simp [blank]
  · simp [blank]

theorem tidyNode_leaf (leaf : node.isElement = false) : tidyNode node = node := by
  cases node with
  | element name attributes children => cases leaf
  | _ => rfl

theorem tidyRow_cons_kept (outside : insideChain before node rest = false) :
    tidyRow before (node :: rest) = tidyNode node :: tidyRow (before ++ [node]) rest := by
  rw [tidyRow, outside, if_neg Bool.false_ne_true]

theorem tidyRow_element :
    tidyRow before (el.toNode :: rest) = (tidy el).toNode :: tidyRow (before ++ [el.toNode]) rest :=
  tidyRow_cons_kept rfl

theorem tidyRow_leaves (leaves : ∀ n ∈ nodes, n.isElement = false) : tidyRow before nodes = nodes := by
  induction nodes generalizing before with
  | nil => rfl
  | cons node rest ih =>
    obtain ⟨leaf, others⟩ := List.forall_mem_cons.mp leaves
    have alone : nearest? rest = none := by
      rw [← List.append_nil rest, nearest?_leaves others]
      exact ite_self _
    rw [tidyRow_cons_kept (by simp [insideChain, alone]), tidyNode_leaf leaf, ih others]

/-- What stands before an element that continues no chain is kept. -/
theorem tidyRow_kept (leaves : ∀ n ∈ between, n.isElement = false) (plain : continuesChain el = false) :
    tidyRow before (between ++ el.toNode :: rest) =
      between ++ (tidy el).toNode :: tidyRow (before ++ between ++ [el.toNode]) rest := by
  induction between generalizing before with
  | nil => simpa using tidyRow_element
  | cons node between ih =>
    obtain ⟨leaf, others⟩ := List.forall_mem_cons.mp leaves
    have outside : insideChain before node (between ++ el.toNode :: rest) = false := by
      rw [insideChain, nearest?_leaves others]
      split <;> simp [plain]
    rw [List.cons_append, tidyRow_cons_kept outside, tidyNode_leaf leaf, ih others]
    simp

/-- Blank text between an element that leaves a chain open and one that continues it is dropped. -/
theorem tidyRow_dropped (blank : ∀ n ∈ between, n.isBlankText) (opened : OpenAfter before)
    (continues : continuesChain el) :
    tidyRow before (between ++ el.toNode :: rest) =
      (tidy el).toNode :: tidyRow (before ++ between ++ [el.toNode]) rest := by
  induction between generalizing before with
  | nil => simpa using tidyRow_element
  | cons node between ih =>
    obtain ⟨first, others⟩ := List.forall_mem_cons.mp blank
    have inside : insideChain before node (between ++ el.toNode :: rest) = true := by
      rw [insideChain, nearest?_blanks others, first, openAfter_iff.mp opened]
      simpa using continues
    have still : OpenAfter (before ++ [node]) := by
      obtain ⟨earlier, last, blanks, rfl, leaves, all⟩ := opened
      exact ⟨earlier, last, blanks ++ [node], by simp, leaves, by simpa [or_imp, forall_and] using ⟨all, first⟩⟩
    rw [List.cons_append, tidyRow, if_pos inside, ih others still]
    simp

/-! ### Legal rows -/

/-- A row with legal trees, in which every element that continues a chain stands behind one that may go on. -/
structure LegalRow (before nodes : List Node) : Prop where
  elements : ∀ el ∈ Node.elementsOf nodes, Compatible el ∧ Continued [] el.children
  continued : Continued before nodes

theorem continued_cons : Continued before (node :: rest) ↔
    (∀ el : Element, node = el.toNode → continuesChain el → OpenAfter before) ∧ Continued (before ++ [node]) rest := by
  constructor
  · intro continued
    refine ⟨fun el same continues => ?_, fun earlier el later same continues => ?_⟩
    · simpa using continued [] el rest (by rw [same]; rfl) continues
    · simpa using continued (node :: earlier) el later (by rw [same]; rfl) continues
  · rintro ⟨first, others⟩ earlier el later same continues
    cases earlier with
    | nil =>
      obtain ⟨rfl, rfl⟩ := List.cons.inj same
      simpa using first el rfl continues
    | cons node' earlier =>
      obtain ⟨rfl, rfl⟩ := List.cons.inj same
      simpa using others earlier el later rfl continues

theorem legalRow_nil : LegalRow before [] := by
  refine ⟨List.forall_mem_nil _, fun earlier el later same => ?_⟩
  cases earlier <;> cases same

theorem legalRow_leaf (leaf : node.isElement = false) :
    LegalRow before (node :: rest) ↔ LegalRow (before ++ [node]) rest := by
  have none : node.elements = [] := by
    cases node with
    | element name attributes children => cases leaf
    | _ => rfl
  have apart : ∀ el : Element, node ≠ el.toNode := by
    rintro el rfl
    cases leaf
  constructor
  · rintro ⟨elements, continued⟩
    exact ⟨by simpa [Node.elementsOf, none] using elements, (continued_cons.mp continued).2⟩
  · rintro ⟨elements, continued⟩
    exact ⟨by simpa [Node.elementsOf, none] using elements,
      continued_cons.mpr ⟨fun el same => absurd same (apart el), continued⟩⟩

theorem legalRow_element : LegalRow before (el.toNode :: rest) ↔
    Compatible el ∧ (continuesChain el → OpenAfter before) ∧ LegalRow [] el.children ∧
      LegalRow (before ++ [el.toNode]) rest := by
  have listed : Node.elementsOf (el.toNode :: rest) = el :: (Node.elementsOf el.children ++ Node.elementsOf rest) := rfl
  constructor
  · rintro ⟨elements, continued⟩
    rw [listed, List.forall_mem_cons, List.forall_mem_append] at elements
    obtain ⟨⟨compatible, inside⟩, below, others⟩ := elements
    obtain ⟨first, after⟩ := continued_cons.mp continued
    exact ⟨compatible, first el rfl, ⟨below, inside⟩, others, after⟩
  · rintro ⟨compatible, first, ⟨below, inside⟩, others, after⟩
    refine ⟨?_, continued_cons.mpr ⟨?_, after⟩⟩
    · rw [listed, List.forall_mem_cons, List.forall_mem_append]
      exact ⟨⟨compatible, inside⟩, below, others⟩
    · intro el' same continues
      obtain rfl := toNode_injective same
      exact first continues

/-- What is kept before an element, if it stands where it may. -/
theorem keptBefore_eq_ok {kept : List Node} (ends : EndsWith earlier open?)
    (leaves : ∀ n ∈ between, n.isElement = false) :
    keptBefore open? between el = .ok kept ↔
      (continuesChain el → OpenAfter (earlier ++ between)) ∧ kept = if continuesChain el then [] else between := by
  rw [ends.openAfter_iff leaves, keptBefore]
  by_cases continues : continuesChain el
  · by_cases opened : open? = some true
    · by_cases blank : between.all Node.isBlankText
      · simp [continues, opened, blank, eq_comm]
      · simp [continues, opened, blank]
    · simp [continues, opened]
  · rw [if_neg continues, if_neg continues, Except.ok.injEq]
    exact ⟨fun same => ⟨fun again => absurd again continues, same.symm⟩, fun same => same.2.symm⟩

theorem tidyRow_between (ends : EndsWith earlier open?) (leaves : ∀ n ∈ between, n.isElement = false)
    (opened : continuesChain el → OpenAfter (earlier ++ between)) :
    tidyRow earlier (between ++ el.toNode :: rest) =
      (if continuesChain el then [] else between) ++
        (tidy el).toNode :: tidyRow (earlier ++ between ++ [el.toNode]) rest := by
  by_cases continues : continuesChain el
  · obtain ⟨leavesOpen, blank⟩ := (ends.openAfter_iff leaves).mp (opened continues)
    have before : OpenAfter earlier := by
      have alone := ends.openAfter_iff (List.forall_mem_nil _)
      rw [List.append_nil] at alone
      exact alone.mpr ⟨leavesOpen, rfl⟩
    rw [if_pos continues, tidyRow_dropped (List.all_eq_true.mp blank) before continues, List.nil_append]
  · rw [if_neg continues, tidyRow_kept leaves (Bool.eq_false_iff.mpr continues)]

theorem validateFrom_leaf (leaf : node.isElement = false) :
    validateFrom open? between (node :: rest) = validateFrom open? (between ++ [node]) rest := by
  cases node with
  | element name attributes children => cases leaf
  | _ => rw [validateFrom]; rintro _ _ _ ⟨⟩

theorem validateFrom_element {valid : List Node} :
    validateFrom open? between (el.toNode :: rest) = .ok valid ↔
      checkElement el = .ok () ∧ ∃ kept children rest', keptBefore open? between el = .ok kept ∧
        validateFrom none [] el.children = .ok children ∧
        validateFrom (some (leavesChainOpen el)) [] rest = .ok rest' ∧
        valid = kept ++ { el with children := children }.toNode :: rest' := by
  rw [Element.toNode, validateFrom]
  constructor
  · intro validated
    obtain ⟨_, checked, validated⟩ := bind_eq_ok.mp validated
    obtain ⟨kept, before, validated⟩ := bind_eq_ok.mp validated
    obtain ⟨children, below, validated⟩ := bind_eq_ok.mp validated
    obtain ⟨rest', after, same⟩ := bind_eq_ok.mp validated
    exact ⟨checked, kept, children, rest', before, below, after, (Except.ok.inj same).symm⟩
  · rintro ⟨checked, kept, children, rest', before, below, after, rfl⟩
    refine bind_eq_ok.mpr ⟨(), checked, ?_⟩
    refine bind_eq_ok.mpr ⟨kept, before, ?_⟩
    refine bind_eq_ok.mpr ⟨children, below, ?_⟩
    exact bind_eq_ok.mpr ⟨rest', after, rfl⟩

/-- Validation accepts the legal rows and tidies them. -/
theorem validateFrom_eq_ok (valid : List Node) (ends : EndsWith earlier open?)
    (leaves : ∀ n ∈ between, n.isElement = false) :
    validateFrom open? between nodes = .ok valid ↔
      LegalRow (earlier ++ between) nodes ∧ valid = tidyRow earlier (between ++ nodes) := by
  -- along the validation, which puts off what stands between two elements until it has seen the second
  induction open?, between, nodes using validateFrom.induct generalizing earlier valid with
  | case1 open? between =>
    rw [validateFrom, List.append_nil, tidyRow_leaves leaves, Except.ok.injEq]
    exact ⟨fun same => ⟨legalRow_nil, same.symm⟩, fun legal => legal.2.symm⟩
  | case2 open? between name attributes children rest el inside =>
    rename_i others
    have within (valid : List Node) := inside valid .nothing (List.forall_mem_nil _)
    have after (valid : List Node) := others valid (.element (earlier ++ between) el) (List.forall_mem_nil _)
    simp only [List.append_nil, List.nil_append] at within after
    have listed : Node.element name attributes children = el.toNode := rfl
    rw [listed, legalRow_element, validateFrom_element, checkElement_eq_ok]
    constructor
    · rintro ⟨compatible, kept, children', rest', before, below, legal, rfl⟩
      obtain ⟨opened, rfl⟩ := (keptBefore_eq_ok ends leaves).mp before
      obtain ⟨legalBelow, rfl⟩ := (within _).mp below
      obtain ⟨legalAfter, rfl⟩ := (after _).mp legal
      exact ⟨⟨compatible, opened, legalBelow, legalAfter⟩, (tidyRow_between ends leaves opened).symm⟩
    · rintro ⟨⟨compatible, opened, below, legal⟩, rfl⟩
      exact ⟨compatible, _, _, _, (keptBefore_eq_ok ends leaves).mpr ⟨opened, rfl⟩, (within _).mpr ⟨below, rfl⟩,
        (after _).mpr ⟨legal, rfl⟩, tidyRow_between ends leaves opened⟩
  | case3 open? between node rest leaf ih =>
    have alone := isElement_eq_false leaf
    have more : ∀ n ∈ between ++ [node], n.isElement = false := by
      simpa [or_imp, forall_and] using ⟨leaves, alone⟩
    rw [validateFrom_leaf alone, ih valid ends more, legalRow_leaf alone]
    simp

/-! ### Validating once more -/

theorem validateFrom_leaves {leaves : List Node} (all : ∀ n ∈ leaves, n.isElement = false) :
    validateFrom open? between (leaves ++ rest) = validateFrom open? (between ++ leaves) rest := by
  induction leaves generalizing between with
  | nil => simp
  | cons node leaves ih =>
    obtain ⟨leaf, others⟩ := List.forall_mem_cons.mp all
    rw [List.cons_append, validateFrom_leaf leaf, ih others, List.append_assoc]
    rfl

theorem keptBefore_again {kept : List Node} (before : keptBefore open? between el = .ok kept) :
    keptBefore open? kept el = .ok kept := by
  rcases keptBefore_ok before with ⟨opened, rfl⟩ | ⟨-, rfl⟩
  · simp [keptBefore, opened]
  · exact before

/-- What validation leaves of a row is accepted as it is. -/
theorem validateFrom_again {valid : List Node} (leaves : ∀ n ∈ between, n.isElement = false)
    (validated : validateFrom open? between nodes = .ok valid) : validateFrom open? [] valid = .ok valid := by
  induction open?, between, nodes using validateFrom.induct generalizing valid with
  | case1 open? between =>
    rw [validateFrom] at validated
    obtain rfl := Except.ok.inj validated
    rw [← List.append_nil between, validateFrom_leaves leaves, List.nil_append, List.append_nil, validateFrom]
  | case2 open? between name attributes children rest el inside =>
    rename_i others
    have listed : Node.element name attributes children = el.toNode := rfl
    rw [listed, validateFrom_element] at validated
    obtain ⟨checked, kept, children', rest', before, below, after, rfl⟩ := validated
    have keptLeaves : ∀ n ∈ kept, n.isElement = false := by
      rcases keptBefore_ok before with ⟨-, rfl⟩ | ⟨-, rfl⟩
      · exact List.forall_mem_nil _
      · exact leaves
    rw [validateFrom_leaves keptLeaves, List.nil_append]
    exact validateFrom_element.mpr ⟨checked, kept, children', rest', keptBefore_again before,
      inside (List.forall_mem_nil _) below, others (List.forall_mem_nil _) after, rfl⟩
  | case3 open? between node rest leaf ih =>
    have alone := isElement_eq_false leaf
    rw [validateFrom_leaf alone] at validated
    exact ih (by simpa [or_imp, forall_and] using ⟨leaves, alone⟩) validated

end rows

/-! ### Legal templates -/

theorem validate_eq_ok {root valid : Element} : validate root = .ok valid ↔
    checkElement root = .ok () ∧ ¬continuesChain root ∧
      ∃ children, validateFrom none [] root.children = .ok children ∧ valid = { root with children := children } := by
  constructor
  · intro validated
    obtain ⟨_, checked, validated⟩ := bind_eq_ok.mp validated
    split at validated
    · cases validated
    · next plain =>
      obtain ⟨children, below, same⟩ := bind_eq_ok.mp validated
      exact ⟨checked, plain, children, below, (Except.ok.inj same).symm⟩
  · rintro ⟨checked, plain, children, below, rfl⟩
    refine bind_eq_ok.mpr ⟨(), checked, ?_⟩
    rw [if_neg plain]
    exact bind_eq_ok.mpr ⟨children, below, rfl⟩

theorem legal_iff {root : Element} :
    Legal root ↔ Compatible root ∧ ¬continuesChain root ∧ LegalRow [] root.children := by
  have listed : root.toNode.elements = root :: Node.elementsOf root.children := rfl
  constructor
  · rintro ⟨compatible, first, continued⟩
    rw [listed, List.forall_mem_cons] at compatible continued
    exact ⟨compatible.1, first, fun el member => ⟨compatible.2 el member, continued.2 el member⟩, continued.1⟩
  · rintro ⟨compatible, first, elements, continued⟩
    constructor
    · rw [listed, List.forall_mem_cons]
      exact ⟨compatible, fun el member => (elements el member).1⟩
    · exact first
    · rw [listed, List.forall_mem_cons]
      exact ⟨continued, fun el member => (elements el member).2⟩

theorem validate_eq_ok_iff_legal {root valid : Element} :
    validate root = .ok valid ↔ Legal root ∧ valid = tidy root := by
  have children (valid : List Node) :
      validateFrom none [] root.children = .ok valid ↔ LegalRow [] root.children ∧ valid = tidyRow [] root.children :=
    validateFrom_eq_ok valid .nothing (List.forall_mem_nil _)
  rw [validate_eq_ok, legal_iff, checkElement_eq_ok]
  constructor
  · rintro ⟨compatible, first, inside, below, rfl⟩
    obtain ⟨legal, rfl⟩ := (children _).mp below
    exact ⟨⟨compatible, first, legal⟩, rfl⟩
  · rintro ⟨⟨compatible, first, legal⟩, rfl⟩
    exact ⟨compatible, first, _, (children _).mpr ⟨legal, rfl⟩, rfl⟩

theorem validate_again {root valid : Element} (validated : validate root = .ok valid) : validate valid = .ok valid := by
  obtain ⟨checked, first, children, below, rfl⟩ := validate_eq_ok.mp validated
  exact validate_eq_ok.mpr ⟨checked, first, children, validateFrom_again (List.forall_mem_nil _) below, rfl⟩

/-- Validation accepts exactly the legal trees. Of a legal tree it drops the blank text inside of chains, at every
    depth, and keeps everything else in order; validating what is left changes nothing. -/
theorem validate_accepts_legal (root : Element) :
    ((∃ valid, validate root = .ok valid) ↔ Legal root) ∧
      ∀ valid, validate root = .ok valid → valid = tidy root ∧ validate valid = .ok valid := by
  refine ⟨⟨?_, fun legal => ⟨tidy root, validate_eq_ok_iff_legal.mpr ⟨legal, rfl⟩⟩⟩, fun valid validated => ?_⟩
  · rintro ⟨valid, validated⟩
    exact (validate_eq_ok_iff_legal.mp validated).1
  · exact ⟨(validate_eq_ok_iff_legal.mp validated).2, validate_again validated⟩

/-- Chains inside each other, with blank text in them, around them and behind a comment. -/
def nestedChains : Element :=
  ⟨"div", [], [.text " ", .element "p" [⟨"t-if", "a"⟩] [.element "b" [⟨"t-if", "b"⟩] [], .text "\n", .text " ",
      .element "b" [⟨"t-else", ""⟩] [], .text " "], .text "\t", .element "p" [⟨"t-elif", "c"⟩] [], .text " ",
    .element "p" [⟨"t-else", ""⟩] [.text " "], .text " ", .comment "end", .text " ", .element "p" [] []]⟩

theorem nestedChains_accepted : validate nestedChains = .ok (tidy nestedChains) ∧
    (tidy nestedChains).children = [.text " ", .element "p" [⟨"t-if", "a"⟩] [.element "b" [⟨"t-if", "b"⟩] [],
      .element "b" [⟨"t-else", ""⟩] [], .text " "], .element "p" [⟨"t-elif", "c"⟩] [],
      .element "p" [⟨"t-else", ""⟩] [.text " "], .text " ", .comment "end", .text " ", .element "p" [] []] ∧
    validate (tidy nestedChains) = .ok (tidy nestedChains) := by
  have validated : validate nestedChains = .ok (tidy nestedChains) := by
    simp only [validate, nestedChains, validateFrom]
    rfl
  exact ⟨validated, rfl, ((validate_accepts_legal nestedChains).2 _ validated).2⟩

end Template

end Stencil
