import Stencil.Proofs.Fields
import Stencil.Proofs.Stateful
import Stencil.Template.Expansion

/-!
What an expansion keeps to, whatever templates it goes through. A contract says what bound names may
stand for, how an expansion may fail, and what texts and emissions its blocks may have. An expansion
that keeps to a contract among the nodes of one tree, and wherever it leaves the tree, keeps to it
altogether (`siblings_keeps`, `expand_keeps`).
-/
namespace Stencil

/-! ### Trees -/

namespace Markup

namespace Node

mutual

/-- The elements of a tree, in document order. -/
def elements : Node → List Element
  | element name attributes children => ⟨name, attributes, children⟩ :: elementsOf children
  | _ => []

def elementsOf : List Node → List Element
  | [] => []
  | node :: rest => node.elements ++ elementsOf rest

end

mutual

/-- The texts of a tree, in document order. -/
def texts : Node → List String
  | element _ _ children => textsOf children
  | text s => [s]
  | _ => []

def textsOf : List Node → List String
  | [] => []
  | node :: rest => node.texts ++ textsOf rest

end

variable {node : Node} {nodes : List Node}

theorem mem_elementsOf {el : Element} : el ∈ elementsOf nodes ↔ ∃ node ∈ nodes, el ∈ node.elements := by
  induction nodes with
  | nil => simp [elementsOf]
  | cons node rest ih => simp [elementsOf, ih]

mutual

theorem mem_elements_of_child {el inner : Element} (below : inner.toNode ∈ el.children) :
    ∀ node : Node, el ∈ node.elements → inner ∈ node.elements
  | .element name attributes children, member => by
    rw [elements] at member ⊢
    rcases List.mem_cons.mp member with rfl | member
    · exact List.mem_cons_of_mem _ (mem_elementsOf.mpr ⟨_, below, List.mem_cons_self⟩)
    · exact List.mem_cons_of_mem _ (mem_elementsOf_of_child below children member)
  | .text _, member | .comment _, member | .cdata _, member | .instruction _ _, member => by cases member

theorem mem_elementsOf_of_child {el inner : Element} (below : inner.toNode ∈ el.children) :
    ∀ nodes : List Node, el ∈ elementsOf nodes → inner ∈ elementsOf nodes
  | [], member => by cases member
  | node :: rest, member => by
    rw [elementsOf, List.mem_append] at member ⊢
    exact member.imp (mem_elements_of_child below node) (mem_elementsOf_of_child below rest)

end

theorem mem_textsOf {s : String} : s ∈ textsOf nodes ↔ ∃ node ∈ nodes, s ∈ node.texts := by
  induction nodes with
  | nil => simp [textsOf]
  | cons node rest ih => simp [textsOf, ih]

theorem size_le_sizes (member : node ∈ nodes) : node.size ≤ sizes nodes := by
  induction nodes with
  | nil => cases member
  | cons first rest ih =>
    rw [sizes]
    rcases List.mem_cons.mp member with rfl | member
    · omega
    · have := ih member
      omega

/-- Every element of a tree has one property, and every text another. -/
structure Everywhere (onElement : Element → Prop) (onText : String → Prop) (node : Node) : Prop where
  elements : ∀ el ∈ node.elements, onElement el
  texts : ∀ s ∈ node.texts, onText s

variable {onElement : Element → Prop} {onText : String → Prop}

theorem Everywhere.child {el : Element} {child : Node} (everywhere : el.toNode.Everywhere onElement onText)
    (member : child ∈ el.children) : child.Everywhere onElement onText := by
  refine ⟨fun inner found => everywhere.elements inner ?_, fun s found => everywhere.texts s ?_⟩
  · exact List.mem_cons_of_mem _ (mem_elementsOf.mpr ⟨child, member, found⟩)
  · exact mem_textsOf.mpr ⟨child, member, found⟩

theorem Everywhere.self {el : Element} (everywhere : el.toNode.Everywhere onElement onText) : onElement el :=
  everywhere.elements el List.mem_cons_self

/-- The same children under another element. -/
theorem Everywhere.change {el other : Element} (everywhere : el.toNode.Everywhere onElement onText)
    (same : other.children = el.children) (holds : onElement other) :
    other.toNode.Everywhere onElement onText := by
  refine ⟨fun inner found => ?_, fun s found => everywhere.texts s ?_⟩
  · rcases List.mem_cons.mp found with rfl | found
    · exact holds
    · exact everywhere.elements inner (List.mem_cons_of_mem _ (same ▸ found))
  · rw [Element.toNode, Node.texts, same] at found
    exact found

end Node

namespace Element

variable {name other : String}

theorem hasAttr_eq (name : String) (el : Element) : el.hasAttr name = (el.attr? name).isSome := by
  rw [hasAttr, attr?, Option.isSome_map, List.isSome_find?]

theorem hasAttr_of_attr? {el : Element} {value : String} (found : el.attr? name = some value) : el.hasAttr name := by
  rw [hasAttr_eq, found]
  rfl

theorem attr?_removeAttr_of_ne (differ : other ≠ name) (el : Element) :
    (el.removeAttr other).attr? name = el.attr? name := by
  rw [removeAttr, attr?, attr?]
  refine congrArg _ ?_
  show (el.attributes.eraseP (·.name = other)).find? (·.name = name) = el.attributes.find? (·.name = name)
  induction el.attributes with
  | nil => rfl
  | cons a rest ih =>
    by_cases same : a.name = other
    · simp [same, differ]
    · simp [List.find?_cons, same, ih]

end Element

end Markup

namespace Template

open Markup (Attribute Element Node)
open Stateful

variable {name : String} {el : Element}

theorem toNode_injective {el other : Element} (same : el.toNode = other.toNode) : el = other :=
  Option.some.inj (congrArg Node.element? same)

theorem attr?_callSite (notCall : callName ≠ name) (notBranch : name ∉ branchNames) (el : Element) :
    (callSite el).attr? name = el.attr? name := by
  simp only [branchNames, List.mem_cons, List.not_mem_nil, or_false, not_or] at notBranch
  obtain ⟨notIf, notElif, notElse⟩ := notBranch
  simp only [callSite, branchNames, List.foldl_cons, List.foldl_nil]
  rw [Element.attr?_removeAttr_of_ne (Ne.symm notElse), Element.attr?_removeAttr_of_ne (Ne.symm notElif),
    Element.attr?_removeAttr_of_ne (Ne.symm notIf), Element.attr?_removeAttr_of_ne notCall]

theorem hasAttr_callSite (notCall : callName ≠ name) (notBranch : name ∉ branchNames) (el : Element) :
    (callSite el).hasAttr name = el.hasAttr name := by
  rw [Element.hasAttr_eq, Element.hasAttr_eq, attr?_callSite notCall notBranch]

theorem callerOf_eq_some {around : Surroundings} {source : String} {caller : Node} {outer : List Node} :
    callerOf around source = some (caller, outer) ↔
      Text.trim source = passedContent ∧ around.callers = caller :: outer := by
  rw [callerOf]
  by_cases passed : Text.trim source = passedContent
  · cases around.callers with
    | nil => simp [passed]
    | cons innermost rest => simp [passed]
  · simp [passed]

theorem callerOf_eq_none {around : Surroundings} {source : String} :
    callerOf around source = none ↔ (Text.trim source = passedContent → around.callers = []) := by
  rw [callerOf]
  by_cases passed : Text.trim source = passedContent
  · cases around.callers with
    | nil => simp
    | cons innermost rest => simp [passed]
  · simp [passed]

/-! ### Bound names and emissions -/

/-- What the name stands for that an element sets. -/
def bound (el : Element) : Binding :=
  match el.attr? valueName with
  | some value => if value = "" then .content el.children else .expr value
  | none => .content el.children

theorem children_of_bound {nodes : List Node} (content : bound el = .content nodes) : el.children = nodes := by
  rw [bound] at content
  split at content
  · split at content
    · exact Binding.content.inj content
    · cases content
  · exact Binding.content.inj content

theorem bindFrom_eq (el : Element) :
    bindFrom el = match el.attr? setName with
      | none => pure ()
      | some name => bindName name (bound el) := by
  rw [bindFrom, bound]
  cases el.attr? setName with
  | none => rfl
  | some name =>
    cases el.attr? valueName with
    | none => rfl
    | some value => exact (apply_ite (bindName name) (value = "") _ _).symm

/-- The blocks that emit a value, if one is given. -/
def emissionOf (descend : Descend) (around : Surroundings) (escape : Bool)
    (fallback : Option (Expand (List Block))) : Option String → Expand (List Block)
  | some source => emission descend around escape fallback source
  | none => pure []

theorem emissions_eq (descend : Descend) (around : Surroundings) (fallback : Option (Expand (List Block)))
    (el : Element) :
    emissions descend around fallback el = (do
      let escaped ← emissionOf descend around true fallback (el.attr? escName)
      let raw ← emissionOf descend around false fallback (el.attr? rawName)
      return escaped ++ raw) := by
  rw [emissions]
  cases el.attr? escName <;> cases el.attr? rawName <;> rfl

/-- The blocks of siblings as the body of something. -/
def bodyOf (descend : Descend) (around : Surroundings) (nodes : List Node) : Expand (List Block) := do
  let row ← siblings descend around false nodes
  return row.blocks

theorem Scope.mem_of_lookup {scope : Scope} {binding : Binding} (found : scope.lookup name = some binding) :
    ∃ layer ∈ scope.layers, (name, binding) ∈ layer := by
  obtain ⟨layer, member, got⟩ := List.exists_of_findSome?_eq_some found
  exact ⟨layer, member, Fields.mem_of_get? got⟩

theorem Scope.mem_of_resolve {scope : Scope} {nodes : List Node} (resolved : scope.resolve name = .content nodes) :
    ∃ layer ∈ scope.layers, ∃ entry ∈ layer, entry.2 = .content nodes := by
  have followed : ∀ steps seen name, scope.resolveFrom steps seen name = .content nodes →
      ∃ layer ∈ scope.layers, ∃ entry ∈ layer, entry.2 = .content nodes := by
    intro steps
    induction steps with
    | zero =>
      intro seen name resolved
      cases resolved
    | succ steps ih =>
      intro seen name resolved
      rw [resolveFrom] at resolved
      split at resolved
      · cases resolved
      · next found =>
        cases resolved
        obtain ⟨layer, inside, member⟩ := mem_of_lookup found
        exact ⟨layer, inside, _, member, rfl⟩
      · split at resolved
        · cases resolved
        · exact ih _ _ resolved
  exact followed _ _ _ resolved

/-! ### Blocks -/

section blocks

variable (text : String → Prop) (escape : Bool → Prop)

mutual

/-- Every text in a block has one property, and every way of emitting a value another. -/
def Block.Has : Block → Prop
  | .text s => text s
  | .element _ _ body => Block.AllHave body
  | .choose chain => Chain.Has chain
  | .loop _ _ body => Block.AllHave body
  | .emit _ escaped => escape escaped
  | .emitOr _ escaped fallback => escape escaped ∧ Block.AllHave fallback

def Block.AllHave : List Block → Prop
  | [] => True
  | block :: rest => block.Has ∧ Block.AllHave rest

def Chain.Has : Chain → Prop
  | .otherwise body => Block.AllHave body
  | .when _ body rest => Block.AllHave body ∧ rest.Has

end

/-- The blocks of siblings have the properties. -/
def Row.Has (row : Row) : Prop :=
  row.chain.Has text escape ∧ Block.AllHave text escape row.blocks

end blocks

theorem Block.allHave_append {text : String → Prop} {escape : Bool → Prop} {first second : List Block}
    (left : Block.AllHave text escape first) (right : Block.AllHave text escape second) :
    Block.AllHave text escape (first ++ second) := by
  induction first with
  | nil => exact right
  | cons block rest ih => exact ⟨left.1, ih left.2⟩

/-! ### Rows of siblings -/

/-- Every node that continues a chain of alternatives stands where a chain is open; `opened` says whether one is
    open before the nodes. -/
def Chained (opened : Bool) : List Node → Prop
  | [] => True
  | node :: rest =>
    match Branch.ofNode? node with
    | none => Chained false rest
    | some (.first _) => Chained true rest
    | some (.next _) => opened = true ∧ Chained true rest
    | some .last => opened = true ∧ Chained false rest

/-! ### Contracts -/

/-- What an expansion keeps to: what may be in its cache, what a bound name may stand for, how it may
    fail, and what texts and emissions there may be in its blocks. -/
structure Contract where
  cache : Expr.ScopeCache → Prop := fun _ => True
  binding : Binding → Prop
  fault : CompileError → Prop := fun _ => True
  text : String → Prop := fun _ => True
  escape : Bool → Prop := fun _ => True

namespace Contract

variable {α β : Type} {c : Contract}

def Binds (c : Contract) (scope : Scope) : Prop :=
  ∀ layer ∈ scope.layers, ∀ entry ∈ layer, c.binding entry.2

/-- A state in which the contract is kept. -/
structure Holds (c : Contract) (p : Progress) : Prop where
  cache : c.cache p.cache
  scope : c.Binds p.scope

/-- What the contract asks of the end of a step, where `result` is asked of what it gives. -/
def Ends (c : Contract) (result : α → Prop) : Except CompileError α → Prop
  | .ok a => result a
  | .error e => c.fault e

/-- Two steps that keep to the contract and do not differ in any state in which it is kept. -/
def Keeps (c : Contract) (result : α → Prop) (x y : Expand α) : Prop :=
  ∀ p, c.Holds p → x p = y p ∧ c.Holds (x p).2 ∧ c.Ends result (x p).1

/-- A step that keeps to the contract and has the property if it gives anything. -/
abbrev Yields (c : Contract) (result : α → Prop) (x : Expand α) : Prop :=
  c.Keeps result x x

/-- Siblings that are chained, unless the contract lets an expansion fail where they are not. -/
def Linked (c : Contract) (opened : Bool) (nodes : List Node) : Prop :=
  c.fault (.structure .unchained) ∨ Chained opened nodes

theorem Linked.cons {opened : Bool} {node : Node} {rest : List Node} (linked : c.Linked opened (node :: rest)) :
    match Branch.ofNode? node with
    | none => c.Linked false rest
    | some (.first _) => c.Linked true rest
    | some (.next _) => (opened = false → c.fault (.structure .unchained)) ∧ c.Linked true rest
    | some .last => (opened = false → c.fault (.structure .unchained)) ∧ c.Linked false rest := by
  rcases linked with allowed | chained
  · split
    · exact .inl allowed
    · exact .inl allowed
    · exact ⟨fun _ => allowed, .inl allowed⟩
    · exact ⟨fun _ => allowed, .inl allowed⟩
  · rw [Chained] at chained
    split
    · next found =>
      rw [found] at chained
      exact .inr chained
    · next found =>
      rw [found] at chained
      exact .inr chained
    · next found =>
      rw [found] at chained
      exact ⟨fun closed => absurd (closed.symm.trans chained.1) Bool.false_ne_true, .inr chained.2⟩
    · next found =>
      rw [found] at chained
      exact ⟨fun closed => absurd (closed.symm.trans chained.1) Bool.false_ne_true, .inr chained.2⟩

/-- Blocks that keep to the contract. -/
def Blocks (c : Contract) : List Block → Prop :=
  Block.AllHave c.text c.escape

section steps

variable {result : α → Prop} {result' : β → Prop} {x y x' y' : Expand α} {f g : α → Expand β}

theorem Keeps.pure {a : α} (holds : result a) : c.Keeps result (pure a) (pure a) :=
  fun _ state => ⟨rfl, state, holds⟩

/-- Whatever comes after a failure makes no difference. -/
theorem Keeps.stop {e : CompileError} (allowed : c.fault e) :
    c.Keeps result' ((throw e : Expand α) >>= f) ((throw e : Expand α) >>= g) :=
  fun _ state => ⟨rfl, state, allowed⟩

theorem Keeps.throw {e : CompileError} (allowed : c.fault e) : c.Keeps result (throw e : Expand α) (throw e) :=
  fun _ state => ⟨rfl, state, allowed⟩

theorem Keeps.bind (first : c.Keeps result x y) (second : ∀ a, result a → c.Keeps result' (f a) (g a)) :
    c.Keeps result' (x >>= f) (y >>= g) := by
  intro p state
  obtain ⟨same, after, ends⟩ := first p state
  rcases ran : x p with ⟨outcome, q⟩
  rw [ran] at same after ends
  cases outcome with
  | error e =>
    rw [bind_error ran, bind_error same.symm]
    exact ⟨rfl, after, ends⟩
  | ok a =>
    rw [bind_ok ran, bind_ok same.symm]
    exact second a ends q after

theorem Keeps.mono {weaker : α → Prop} (kept : c.Keeps result x y)
    (weaken : ∀ a, result a → weaker a) : c.Keeps weaker x y := by
  intro p state
  obtain ⟨same, after, ends⟩ := kept p state
  refine ⟨same, after, ?_⟩
  rcases ran : (x p).1 with e | a
  · rwa [ran] at ends
  · rw [ran] at ends
    exact weaken a ends

theorem Keeps.get {f g : Progress → Expand α} (kept : ∀ p, c.Holds p → c.Keeps result (f p) (g p)) :
    c.Keeps result (get >>= f) (get >>= g) :=
  fun p state => kept p state p state

theorem Keeps.ite {cond : Prop} [Decidable cond] (yes : cond → c.Keeps result x y)
    (no : ¬cond → c.Keeps result x' y') : c.Keeps result (if cond then x else x') (if cond then y else y') := by
  split
  · exact yes ‹_›
  · exact no ‹_›

theorem Keeps.record (level : Level) (target message : String) :
    c.Yields (fun _ => True) (record level target message) :=
  fun _ state => ⟨rfl, ⟨state.cache, state.scope⟩, trivial⟩

theorem Keeps.bindName {binding : Binding} (name : String) (allowed : c.binding binding) :
    c.Yields (fun _ => True) (bindName name binding) := by
  intro p state
  refine ⟨rfl, ⟨state.cache, ?_⟩, trivial⟩
  intro layer inside entry member
  rcases List.mem_cons.mp inside with rfl | outside
  · rcases Fields.mem_of_mem_set member with rfl | old
    · exact allowed
    · exact state.scope _ List.mem_cons_self entry old
  · exact state.scope layer (List.mem_cons_of_mem _ outside) entry member

theorem Keeps.isolated (kept : c.Keeps result x y) :
    c.Keeps (fun made => result made.1 ∧ c.Binds made.2) (isolated x) (isolated y) := by
  intro p state
  have empty : c.Holds { p with scope := {} } := ⟨state.cache, by simp [Binds, Scope.layers]⟩
  obtain ⟨same, after, ends⟩ := kept _ empty
  refine ⟨?_, ⟨after.cache, state.scope⟩, ?_⟩
  · simp only [Template.isolated, same]
  · rw [Template.isolated]
    rcases ran : x { p with scope := {} } with ⟨outcome, q⟩
    rw [ran] at after ends
    cases outcome with
    | error e => exact ends
    | ok a => exact ⟨ends, after.scope⟩

theorem Binds.push {scope : Scope} {bindings : Bindings} (binds : c.Binds scope)
    (allowed : ∀ entry ∈ bindings, c.binding entry.2) : c.Binds (scope.push bindings) := by
  intro layer inside
  rcases List.mem_cons.mp inside with rfl | outside
  · exact allowed
  · exact binds layer outside

theorem Binds.pop {scope : Scope} (binds : c.Binds scope) : c.Binds scope.pop := by
  rw [Scope.pop]
  split
  case h_1 innermost outer same =>
    intro layer inside
    refine binds layer (List.mem_cons_of_mem _ ?_)
    rw [same]
    exact inside
  case h_2 => simp [Binds, Scope.layers]

theorem Keeps.withLayer {bindings : Bindings} (kept : c.Keeps result x y)
    (allowed : ∀ entry ∈ bindings, c.binding entry.2) :
    c.Keeps result (withLayer bindings x) (withLayer bindings y) := by
  intro p state
  obtain ⟨same, after, ends⟩ := kept { p with scope := p.scope.push bindings } ⟨state.cache, state.scope.push allowed⟩
  refine ⟨?_, ⟨after.cache, after.scope.pop⟩, ends⟩
  simp only [Template.withLayer, same]

end steps

/-! ### What a walk relies on -/

/-- Two ways of expanding nodes that keep to the contract wherever nodes may be reached. -/
def Descends (c : Contract) (reach : Surroundings → List Node → Prop) (descend descend' : Descend) : Prop :=
  ∀ around nodes, reach around nodes → c.Keeps c.Blocks (descend around nodes) (descend' around nodes)

/-- The contract is kept by whatever is done at nodes of a kind. -/
structure Lawful (c : Contract) (node : Node → Prop) : Prop where
  cache : ∀ cache source, c.cache cache → c.cache (cache.scopedText source).2
  fault : ∀ e, e ≠ .endlessContent → (∀ f, e = .structure f → ∃ target, f = .includesItself target) → c.fault e
  named : ∀ el : Element, node el.toNode → el.hasAttr foreachName → el.attr? asName = none →
    c.fault (.structure .loopWithoutName)
  linked : ∀ el : Element, node el.toNode → c.Linked false el.children
  text : ∀ s, node (.text s) → c.text s
  escaped : ∀ el : Element, node el.toNode → el.hasAttr escName → c.escape true
  raw : ∀ el : Element, node el.toNode → el.hasAttr rawName → c.escape false
  child : ∀ el : Element, node el.toNode → ∀ child ∈ el.children, node child
  bound : ∀ el : Element, node el.toNode → el.hasAttr setName → c.binding (bound el)

/-- Where a walk in some surroundings leaves the tree, it reaches nodes that may be reached. -/
structure Allows (c : Contract) (around : Surroundings) (node : Node → Prop)
    (reach : Surroundings → List Node → Prop) : Prop extends c.Lawful node where
  content : ∀ nodes, c.binding (.content nodes) → reach around nodes
  caller : ∀ caller outer, around.callers = caller :: outer → reach { around with callers := outer } [caller]
  site : ∀ el : Element, node el.toNode → el.hasAttr callName →
    reach { around with callers := [] } [(callSite el).toNode]
  root : ∀ (el : Element) target template, node el.toNode → el.attr? callName = some target →
    around.templates.get? target = some template → target ∉ around.calls →
    reach { around with calls := target :: around.calls, callers := (callSite el).toNode :: around.callers }
      [template.root.toNode]

section walk

variable {around : Surroundings} {node : Node → Prop} {reach : Surroundings → List Node → Prop}
  {descend descend' : Descend}

theorem Allows.expression (allows : c.Allows around node reach) (source : String) :
    c.Yields (fun _ => True) (expression source) := by
  intro p state
  have after : c.Holds { p with cache := (p.cache.scopedText source).2 } :=
    ⟨allows.cache _ _ state.cache, state.scope⟩
  refine ⟨rfl, ?_⟩
  simp only [Template.expression, bind_apply, get_apply, set_apply]
  cases Expression.ofScopedText (p.cache.scopedText source).1 with
  | ok e => exact ⟨after, trivial⟩
  | error e => exact ⟨after, allows.fault _ nofun nofun⟩

theorem Allows.attributeParts (allows : c.Allows around node reach) (pieces : List Piece) :
    c.Yields (fun _ => True) (attributeParts pieces) := by
  induction pieces with
  | nil => exact .pure trivial
  | cons piece rest ih =>
    cases piece with
    | literal s => exact ih.bind fun _ _ => .pure trivial
    | expr s => exact (allows.expression _).bind fun _ _ => ih.bind fun _ _ => .pure trivial

theorem Allows.attributeAction (allows : c.Allows around node reach) (a : Attribute) :
    c.Yields (fun _ => True) (attributeAction a) := by
  rw [Template.attributeAction]
  split
  · exact .pure trivial
  · exact (allows.expression _).bind fun _ _ => .pure trivial
  · exact (allows.attributeParts _).bind fun _ _ => .pure trivial
  · exact (allows.expression _).bind fun _ _ => .pure trivial
  · exact .pure trivial
  · exact .pure trivial

theorem Allows.attributeActions (allows : c.Allows around node reach) (attributes : List Attribute) :
    c.Yields (fun _ => True) (attributeActions attributes) := by
  induction attributes with
  | nil => exact .pure trivial
  | cons a rest ih => exact (allows.attributeAction a).bind fun _ _ => ih.bind fun _ _ => .pure trivial

theorem Allows.conditionOf (allows : c.Allows around node reach) (condition : String) :
    c.Yields (fun _ => True) (conditionOf condition) := by
  refine .get fun p _ => ?_
  split
  · exact allows.expression _
  · exact allows.expression _

theorem Allows.bindFrom (allows : c.Allows around node reach) (el : Element) (good : node el.toNode) :
    c.Yields (fun _ => True) (bindFrom el) := by
  rw [bindFrom_eq]
  split
  case h_1 => exact .pure trivial
  case h_2 name set => exact .bindName name (allows.bound el good (Element.hasAttr_of_attr? set))

theorem Allows.inclusion (allows : c.Allows around node reach) (below : c.Descends reach descend descend')
    {el : Element} {target : String} (good : node el.toNode) (called : el.attr? callName = some target) :
    c.Keeps c.Blocks (inclusion descend around el target) (inclusion descend' around el target) := by
  rw [Template.inclusion, Template.inclusion]
  split
  case h_1 => exact .throw (allows.fault _ nofun nofun)
  case h_2 template found =>
    refine .ite (fun _ => ?_) (fun entered => ?_)
    · exact .stop (allows.fault _ nofun fun _ same => ⟨target, by cases same; rfl⟩)
    · have site := allows.site el good (Element.hasAttr_of_attr? called)
      refine (below _ _ site).isolated.bind fun (_, scope) ⟨_, binds⟩ => ?_
      refine (Keeps.record _ _ _).bind fun _ _ => ?_
      exact (below _ _ (allows.root el target template good called found entered)).withLayer
        (binds _ List.mem_cons_self)

theorem Allows.emission (allows : c.Allows around node reach) (below : c.Descends reach descend descend')
    {escape : Bool} (mode : c.escape escape) {fallback fallback' : Option (Expand (List Block))}
    (others : Option.Rel (c.Keeps c.Blocks) fallback fallback') (source : String) :
    c.Keeps c.Blocks (emission descend around escape fallback source)
      (emission descend' around escape fallback' source) := by
  refine .get fun p state => ?_
  split
  case h_1 nodes resolved =>
    obtain ⟨layer, inside, entry, member, same⟩ := Scope.mem_of_resolve resolved
    exact below _ _ (allows.content nodes (same ▸ state.scope layer inside entry member))
  case h_2 source _ =>
    split
    case h_1 caller outer called =>
      exact below _ _ (allows.caller caller outer (callerOf_eq_some.mp called).2)
    case h_2 =>
      refine (allows.expression source).bind fun value _ => ?_
      cases others with
      | none => exact .pure ⟨mode, trivial⟩
      | some other => exact other.bind fun _ blocks => .pure ⟨⟨mode, blocks⟩, trivial⟩

theorem Allows.emissions (allows : c.Allows around node reach) (below : c.Descends reach descend descend')
    {fallback fallback' : Option (Expand (List Block))} (others : Option.Rel (c.Keeps c.Blocks) fallback fallback')
    (el : Element) (good : node el.toNode) :
    c.Keeps c.Blocks (emissions descend around fallback el) (emissions descend' around fallback' el) := by
  have emitted (escape : Bool) (source : Option String) (mode : source.isSome → c.escape escape) :
      c.Keeps c.Blocks (emissionOf descend around escape fallback source)
        (emissionOf descend' around escape fallback' source) := by
    cases source with
    | none => exact .pure trivial
    | some source => exact allows.emission below (mode rfl) others source
  rw [emissions_eq, emissions_eq]
  refine (emitted true _ ?_).bind fun _ first => (emitted false _ ?_).bind fun _ second =>
    .pure (Block.allHave_append first second)
  · rw [← Element.hasAttr_eq]
    exact allows.escaped el good
  · rw [← Element.hasAttr_eq]
    exact allows.raw el good

mutual

theorem siblings_keeps (allows : c.Allows around node reach) (below : c.Descends reach descend descend')
    (opened : Bool) : ∀ nodes, (∀ n ∈ nodes, node n) → c.Linked opened nodes →
      c.Keeps (Row.Has c.text c.escape) (siblings descend around opened nodes) (siblings descend' around opened nodes)
  | [], _, _ => .pure ⟨trivial, trivial⟩
  | n :: rest, good, linked => by
    have first := nodeBlocks_keeps allows below n (good n List.mem_cons_self)
    have others (opened : Bool) := siblings_keeps allows below opened rest fun m member =>
      good m (List.mem_cons_of_mem _ member)
    have linked := linked.cons
    rw [siblings, siblings]
    split
    case h_1 found =>
      rw [found] at linked
      exact first.bind fun _ blocks => (others false linked).bind fun _ row =>
        .pure ⟨trivial, Block.allHave_append blocks row.2⟩
    case h_2 condition found =>
      rw [found] at linked
      exact (allows.conditionOf condition).bind fun _ _ => first.bind fun _ blocks =>
        (others true linked).bind fun _ row => .pure ⟨trivial, ⟨blocks, row.1⟩, row.2⟩
    case h_3 condition found =>
      rw [found] at linked
      refine .ite (fun closed => ?_) (fun _ => ?_)
      · exact .stop (linked.1 (by simpa using closed))
      · exact (allows.conditionOf condition).bind fun _ _ => first.bind fun _ blocks =>
          (others true linked.2).bind fun _ row => .pure ⟨⟨blocks, row.1⟩, row.2⟩
    case h_4 found =>
      rw [found] at linked
      refine .ite (fun closed => ?_) (fun _ => ?_)
      · exact .stop (linked.1 (by simpa using closed))
      · exact first.bind fun _ blocks => (others false linked.2).bind fun _ row => .pure ⟨blocks, row.2⟩

theorem nodeBlocks_keeps (allows : c.Allows around node reach) (below : c.Descends reach descend descend') :
    ∀ n, node n → c.Keeps c.Blocks (nodeBlocks descend around n) (nodeBlocks descend' around n)
  | .text s, good => .pure ⟨allows.text s good, trivial⟩
  | .element name attributes children, good => by
    have body : c.Keeps c.Blocks (bodyOf descend around children) (bodyOf descend' around children) :=
      (siblings_keeps allows below false children (allows.child ⟨name, attributes, children⟩ good)
        (allows.linked ⟨name, attributes, children⟩ good)).bind fun _ row => .pure row.2
    have fallback : Option.Rel (c.Keeps c.Blocks)
        (if children.isEmpty then none else some (bodyOf descend around children))
        (if children.isEmpty then none else some (bodyOf descend' around children)) := by
      split
      · exact .none
      · exact .some body
    have emitted := allows.emissions below fallback ⟨name, attributes, children⟩ good
    rw [nodeBlocks, nodeBlocks]
    split
    case h_1 source repeated =>
      split
      case h_1 nameless =>
        exact .throw (allows.named ⟨name, attributes, children⟩ good (Element.hasAttr_of_attr? repeated) nameless)
      case h_2 item _ =>
        exact (allows.expression source).bind fun _ _ => body.bind fun _ blocks => .pure ⟨blocks, trivial⟩
    case h_2 =>
      split
      case h_1 target called => exact allows.inclusion below good called
      case h_2 =>
        refine (allows.bindFrom ⟨name, attributes, children⟩ good).bind fun _ _ => .ite (fun _ => ?_) fun _ => ?_
        · refine emitted.bind fun _ first => .ite (fun _ => .pure first) fun _ => ?_
          exact body.bind fun _ second => .pure (Block.allHave_append first second)
        · refine (allows.attributeActions attributes).bind fun actions _ => ?_
          have made : ∀ blocks, c.Blocks blocks → c.Keeps c.Blocks
              (do let emitted ← emissions descend around _ _; return [.element name actions (blocks ++ emitted)])
              (do let emitted ← emissions descend' around _ _; return [.element name actions (blocks ++ emitted)]) :=
            fun _ first => emitted.bind fun _ second => .pure ⟨Block.allHave_append first second, trivial⟩
          have nothing : c.Keeps c.Blocks (pure []) (pure []) := .pure trivial
          exact .ite (fun _ => nothing.bind made) fun _ => body.bind made
  | .comment _, _ | .cdata _, _ | .instruction _ _, _ => .throw (allows.fault _ nofun nofun)

end

end walk

/-- Expansions that keep to a contract: `reach` says what may be expanded at a depth. -/
theorem expand_keeps (reach : Nat → Surroundings → List Node → Prop) (more : Nat)
    (start : ∀ around nodes, reach 0 around nodes →
      c.Keeps c.Blocks (expand 0 around nodes) (expand (0 + more) around nodes))
    (step : ∀ depth around nodes, reach (depth + 1) around nodes →
      ∃ node, (∀ n ∈ nodes, node n) ∧ c.Linked false nodes ∧ c.Allows around node (reach depth)) :
    ∀ depth around nodes, reach depth around nodes →
      c.Keeps c.Blocks (expand depth around nodes) (expand (depth + more) around nodes) := by
  intro depth
  induction depth with
  | zero => exact start
  | succ depth ih =>
    intro around nodes reached
    obtain ⟨node, good, linked, allows⟩ := step depth around nodes reached
    rw [Nat.succ_add]
    exact (siblings_keeps allows ih false nodes good linked).bind fun _ row => .pure row.2

/-- Nodes of a kind, called from nodes of the same kind. -/
structure Within (templates : Fields Template) (node : Node → Prop) (around : Surroundings) (nodes : List Node) :
    Prop where
  registered : around.templates = templates
  callers : ∀ caller ∈ around.callers, node caller
  members : ∀ n ∈ nodes, node n

theorem Within.single {templates : Fields Template} {node : Node → Prop} {around : Surroundings} {n : Node}
    (registered : around.templates = templates) (callers : ∀ caller ∈ around.callers, node caller) (good : node n) :
    Within templates node around [n] :=
  ⟨registered, callers, fun _ member => List.mem_singleton.mp member ▸ good⟩

/-- A kind of nodes that expansions do not leave: the registered templates are of it, a call by itself is
    if the call is, and so is what a bound name stands for. -/
structure Closed (c : Contract) (templates : Fields Template) (node : Node → Prop) : Prop extends c.Lawful node where
  roots : ∀ entry ∈ templates, node entry.2.root.toNode
  site : ∀ el : Element, node el.toNode → el.hasAttr callName → node (callSite el).toNode
  content : ∀ nodes, c.binding (.content nodes) → ∀ n ∈ nodes, node n

theorem Closed.allows {templates : Fields Template} {node : Node → Prop} {around : Surroundings} {nodes : List Node}
    (closed : c.Closed templates node) (within : Within templates node around nodes) :
    c.Allows around node (Within templates node) where
  toLawful := closed.toLawful
  content contents bound := ⟨within.registered, within.callers, closed.content contents bound⟩
  caller caller outer called := by
    have callers : ∀ n ∈ caller :: outer, node n := called ▸ within.callers
    exact .single within.registered (fun n member => callers n (List.mem_cons_of_mem _ member))
      (callers caller List.mem_cons_self)
  site el good calls := .single within.registered nofun (closed.site el good calls)
  root el target template good called found _ := by
    refine .single within.registered ?_ (closed.roots _ (Fields.mem_of_get? (within.registered ▸ found)))
    intro n member
    rcases List.mem_cons.mp member with rfl | member
    · exact closed.site el good (Element.hasAttr_of_attr? called)
    · exact within.callers n member

theorem Closed.start {templates : Fields Template} {node : Node → Prop} {template : Template}
    (closed : c.Closed templates node) (found : templates.get? name = some template) :
    Within templates node ⟨templates, [name], []⟩ [template.root.toNode] :=
  .single rfl nofun (closed.roots _ (Fields.mem_of_get? found))

/-- Every expansion of nodes of a closed kind keeps to a contract that lets it be cut short and lets
    alternatives stand outside of chains. -/
theorem Closed.expand {templates : Fields Template} {node : Node → Prop} (closed : c.Closed templates node)
    (short : c.fault .endlessContent) (loose : c.fault (.structure .unchained)) (depth : Nat)
    {around : Surroundings} {nodes : List Node} (within : Within templates node around nodes) :
    c.Yields c.Blocks (expand depth around nodes) := by
  refine expand_keeps (fun _ => Within templates node) 0 ?_ ?_ depth around nodes within
  · exact fun _ _ _ => .throw short
  · exact fun _ _ _ within => ⟨node, within.members, .inl loose, closed.allows within⟩

theorem Holds.start {cache : Expr.ScopeCache} (allowed : c.cache cache) : c.Holds { cache := cache } :=
  ⟨allowed, by simp [Binds, Scope.layers]⟩

end Contract

/-! ### Templates -/

section templates

variable {templates : Fields Template} {p : Progress}

theorem blocksOf_eq {template : Template} (found : templates.get? name = some template) :
    blocksOf templates name = expand (expansionDepth templates) ⟨templates, [name], []⟩ [template.root.toNode] := by
  rw [blocksOf, found]

theorem template_of_blocksOf {blocks : List Block} (expanded : (blocksOf templates name p).1 = .ok blocks) :
    ∃ template, templates.get? name = some template ∧
      (expand (expansionDepth templates) ⟨templates, [name], []⟩ [template.root.toNode] p).1 = .ok blocks := by
  cases found : templates.get? name with
  | none =>
    rw [blocksOf, found] at expanded
    cases expanded
  | some template =>
    rw [blocksOf_eq found] at expanded
    exact ⟨template, rfl, expanded⟩

end templates

end Template

end Stencil
