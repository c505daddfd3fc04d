import Stencil.Proofs.Contract

/-!
Layers of bindings. Whatever is expanded binds names in the innermost layer only, and each time because an element
that is expanded sets one. A call is expanded under a layer of its own and leaves every layer as it was; the called
template sees what the call itself sets, and behind that what was bound where the call stands.
-/
namespace Stencil

open Stateful

namespace Template

open Markup (Attribute Element Node)

/-! ### Elements that set names -/

namespace Scope

/-- The scope once an element has set its name, if it sets one. -/
def after (scope : Scope) (el : Element) : Scope :=
  match el.attr? setName with
  | none => scope
  | some name => scope.bind name (bound el)

/-- The scope once elements have set their names, one after the other. -/
def afterAll (scope : Scope) (made : List Element) : Scope :=
  made.foldl after scope

variable {scope : Scope} {name : String} {el : Element} {made : List Element}

theorem outer_after : (scope.after el).outer = scope.outer := by
  rw [after]
  split <;> rfl

theorem outer_afterAll : (scope.afterAll made).outer = scope.outer := by
  induction made generalizing scope with
  | nil => rfl
  | cons el rest ih => exact ih.trans outer_after

theorem pop_afterAll_push (bindings : Bindings) : ((scope.push bindings).afterAll made).pop = scope := by
  rw [pop, outer_afterAll]
  rfl

theorem lookup_eq : scope.lookup name = (scope.innermost.get? name).or (scope.outer.findSome? (Fields.get? name)) := by
  rw [lookup, layers, List.findSome?_cons]
  cases scope.innermost.get? name <;> rfl

theorem lookup_push (bindings : Bindings) :
    (scope.push bindings).lookup name = (bindings.get? name).or (scope.lookup name) :=
  lookup_eq

theorem lookup_after :
    (scope.after el).lookup name = if el.attr? setName = some name then some (bound el) else scope.lookup name := by
  rw [after]
  split
  · next unset => simp [unset]
  · next other set =>
    rw [lookup_eq, bind, set]
    by_cases same : other = name
    · subst same
      simp [Fields.get?_set_self]
    · rw [Fields.get?_set_of_ne (Ne.symm same), if_neg (by simpa using same), lookup_eq]

end Scope

/-- What the last of some elements that set a name sets it to. -/
def lastSet (name : String) : List Element → Option Binding
  | [] => none
  | el :: rest => (lastSet name rest).or (if el.attr? setName = some name then some (bound el) else none)

theorem Scope.lookup_afterAll (scope : Scope) (name : String) (made : List Element) :
    (scope.afterAll made).lookup name = (lastSet name made).or (scope.lookup name) := by
  induction made generalizing scope with
  | nil => rfl
  | cons el rest ih =>
    have first := ih (scope.after el)
    rw [Scope.lookup_after] at first
    rw [lastSet, Option.or_assoc]
    refine first.trans (congrArg _ ?_)
    split <;> rfl

theorem bindFrom_apply (el : Element) (p : Progress) :
    bindFrom el p = (.ok (), { p with scope := p.scope.after el }) := by
  rw [bindFrom_eq, Scope.after]
  cases el.attr? setName <;> rfl

/-! ### Steps that bind names -/

/-- A property of elements that the elements below have as well. -/
def Inherited (good : Element → Prop) : Prop :=
  ∀ el, good el → ∀ inner : Element, inner.toNode ∈ el.children → good inner

/-- Captured content consists of good elements. -/
def Captures (good : Element → Prop) (scope : Scope) : Prop :=
  ∀ layer ∈ scope.layers, ∀ entry ∈ layer, ∀ nodes, entry.2 = .content nodes →
    ∀ el : Element, el.toNode ∈ nodes → good el

theorem captures_empty {good : Element → Prop} : Captures good {} := by
  simp [Captures, Scope.layers]

theorem Captures.after {good : Element → Prop} {scope : Scope} {el : Element} (captures : Captures good scope)
    (inherited : Inherited good) (setter : good el) : Captures good (scope.after el) := by
  rw [Scope.after]
  split
  · exact captures
  · intro layer inside entry member nodes content inner below
    rcases List.mem_cons.mp inside with rfl | outside
    · rcases Fields.mem_of_mem_set member with rfl | old
      · exact inherited el setter inner (children_of_bound content ▸ below)
      · exact captures _ List.mem_cons_self entry old nodes content inner below
    · exact captures layer (List.mem_cons_of_mem _ outside) entry member nodes content inner below

theorem Captures.afterAll {good : Element → Prop} {scope : Scope} {made : List Element}
    (captures : Captures good scope) (inherited : Inherited good) (setters : ∀ el ∈ made, good el) :
    Captures good (scope.afterAll made) := by
  induction made generalizing scope with
  | nil => exact captures
  | cons el rest ih =>
    obtain ⟨first, others⟩ := List.forall_mem_cons.mp setters
    exact ih (captures.after inherited first) others

/-- A step that binds names, in the innermost layer, only as good elements set them. -/
def Makes {α : Type} (good : Element → Prop) (step : Expand α) : Prop :=
  ∀ p, Captures good p.scope →
    ∃ made : List Element, (∀ el ∈ made, good el) ∧ (step p).2.scope = p.scope.afterAll made

namespace Makes

variable {α β : Type} {good : Element → Prop} {step yes no : Expand α}

theorem of_still (still : ∀ p, (step p).2.scope = p.scope) : Makes good step :=
  fun p _ => ⟨[], List.forall_mem_nil _, still p⟩

theorem pure (a : α) : Makes good (pure a : Expand α) :=
  of_still fun _ => rfl

/-- Whatever comes after a failure makes no difference. -/
theorem stop (e : CompileError) (next : α → Expand β) : Makes good ((throw e : Expand α) >>= next) :=
  of_still fun _ => rfl

theorem throw (e : CompileError) : Makes good (throw e : Expand α) :=
  of_still fun _ => rfl

theorem bind {next : α → Expand β} (inherited : Inherited good) (first : Makes good step)
    (second : ∀ a, Makes good (next a)) : Makes good (step >>= next) := by
  intro p captures
  obtain ⟨made, setters, reached⟩ := first p captures
  rcases ran : step p with ⟨result, q⟩
  rw [ran] at reached
  cases result with
  | error e =>
    rw [bind_error ran]
    exact ⟨made, setters, reached⟩
  | ok a =>
    rw [bind_ok ran]
    obtain ⟨more, others, ended⟩ := second a q (reached ▸ captures.afterAll inherited setters)
    refine ⟨made ++ more, List.forall_mem_append.mpr ⟨setters, others⟩, ?_⟩
    rw [ended, reached, Scope.afterAll, Scope.afterAll, Scope.afterAll, List.foldl_append]

theorem get {next : Progress → Expand α} (makes : ∀ p, Captures good p.scope → Makes good (next p)) :
    Makes good (get >>= next) :=
  fun p captures => makes p captures p captures

theorem ite {c : Prop} [Decidable c] (first : c → Makes good yes) (second : ¬c → Makes good no) :
    Makes good (if c then yes else no) := by
  split
  · exact first ‹_›
  · exact second ‹_›

end Makes

section steps

variable {good : Element → Prop} (inherited : Inherited good)

theorem expression_makes (source : String) : Makes good (expression source) := by
  refine .of_still fun p => ?_
  simp only [expression, bind_apply, get_apply, set_apply]
  cases Expression.ofScopedText (p.cache.scopedText source).1 <;> rfl

theorem conditionOf_makes (condition : String) : Makes good (conditionOf condition) := by
  refine .get fun p _ => ?_
  split
  · exact expression_makes _
  · exact expression_makes _

theorem bindFrom_makes {el : Element} (setter : good el) : Makes good (bindFrom el) := by
  intro p _
  rw [bindFrom_apply]
  exact ⟨[el], List.forall_mem_singleton.mpr setter, rfl⟩

include inherited

theorem attributeParts_makes (pieces : List Piece) : Makes good (attributeParts pieces) := by
  induction pieces with
  | nil => exact .pure []
  | cons piece rest ih =>
    cases piece with
    | literal s => exact ih.bind inherited fun _ => .pure _
    | expr s => exact (expression_makes _).bind inherited fun _ => ih.bind inherited fun _ => .pure _

theorem attributeAction_makes (a : Attribute) : Makes good (attributeAction a) := by
  rw [attributeAction]
  split
  · exact .pure _
  · exact (expression_makes _).bind inherited fun _ => .pure _
  · exact (attributeParts_makes inherited _).bind inherited fun _ => .pure _
  · exact (expression_makes _).bind inherited fun _ => .pure _
  · exact .pure _
  · exact .pure _

theorem attributeActions_makes (attributes : List Attribute) : Makes good (attributeActions attributes) := by
  induction attributes with
  | nil => exact .pure []
  | cons a rest ih =>
    exact (attributeAction_makes inherited a).bind inherited fun _ => ih.bind inherited fun _ => .pure _

end steps

/-! ### Calls -/

/-- Expanding good elements, called from good elements, binds names only as good elements set them, whichever
    elements are good. -/
def DescendMakes (descend : Descend) : Prop :=
  ∀ good, Inherited good → ∀ around nodes, (∀ el : Element, el.toNode ∈ around.callers → good el) →
    (∀ el : Element, el.toNode ∈ nodes → good el) → Makes good (descend around nodes)

variable {descend : Descend} {around : Surroundings} {el : Element} {target : String}

/-- A step under a layer of its own leaves the layers outside as they are. -/
theorem withLayer_apply {α : Type} {step : Expand α} {result : Except CompileError α} {p q : Progress}
    {bindings : Bindings} (makes : Makes (fun _ => True) step)
    (ran : step { p with scope := p.scope.push bindings } = (result, q)) :
    withLayer bindings step p = (result, { q with scope := p.scope }) := by
  obtain ⟨made, -, reached⟩ := makes { p with scope := p.scope.push bindings } fun _ _ _ _ _ _ _ _ => trivial
  rw [ran] at reached
  have restored : q.scope.pop = p.scope := by
    rw [show q.scope = _ from reached]
    exact Scope.pop_afterAll_push bindings
  rw [withLayer, ran]
  exact congrArg (fun scope => (result, { q with scope := scope })) restored

theorem DescendMakes.anything (below : DescendMakes descend) (around : Surroundings) (nodes : List Node) :
    Makes (fun _ => True) (descend around nodes) :=
  below _ (fun _ _ _ _ => trivial) around nodes (fun _ _ => trivial) fun _ _ => trivial

/-- The surroundings of the root of a template that an element calls. -/
def Surroundings.entered (around : Surroundings) (el : Element) (target : String) : Surroundings :=
  { around with calls := target :: around.calls, callers := (callSite el).toNode :: around.callers }

/-- A call whose element can be expanded by itself is the root of the template, expanded under one more layer with
    the bindings that were made by that. -/
theorem inclusion_apply (below : DescendMakes descend) {template : Template} {blocks : List Block}
    {p alone : Progress} (found : around.templates.get? target = some template) (entered : target ∉ around.calls)
    (ran : descend { around with callers := [] } [(callSite el).toNode] { p with scope := {} } = (.ok blocks, alone)) :
    ∃ entry, entry.scope = p.scope.push alone.scope.innermost ∧
      inclusion descend around el target p =
        let ended := descend (around.entered el target) [template.root.toNode] entry
        (ended.1, { ended.2 with scope := p.scope }) := by
  have isolatedRun : isolated (descend { around with callers := [] } [(callSite el).toNode]) p =
      (.ok (blocks, alone.scope), { alone with scope := p.scope }) := by
    rw [isolated, ran]
    rfl
  let noted : Log := alone.log ++ [⟨.trace, expansionTarget,
    "t-call `" ++ target ++ "` with " ++ toString alone.scope.innermost.length ++ " binding(s)"⟩]
  refine ⟨{ alone with scope := p.scope.push alone.scope.innermost, log := noted }, rfl, ?_⟩
  rw [inclusion, found]
  simp only [if_neg entered]
  rw [bind_ok isolatedRun]
  exact withLayer_apply (below.anything _ _) rfl

/-- Whatever becomes of a call, every layer is as it was before. -/
theorem inclusion_scope (below : DescendMakes descend) (around : Surroundings) (el : Element) (target : String)
    (p : Progress) : (inclusion descend around el target p).2.scope = p.scope := by
  cases found : around.templates.get? target with
  | none =>
    rw [inclusion, found]
    rfl
  | some template =>
    by_cases entered : target ∈ around.calls
    · rw [inclusion, found]
      simp only [if_pos entered]
      rfl
    · rcases ran : descend { around with callers := [] } [(callSite el).toNode] { p with scope := {} } with
        ⟨result, alone⟩
      cases result with
      | ok blocks =>
        obtain ⟨entry, -, same⟩ := inclusion_apply below found entered ran
        rw [same]
      | error e =>
        have failed : isolated (descend { around with callers := [] } [(callSite el).toNode]) p =
            (.error e, { alone with scope := p.scope }) := by
          rw [isolated, ran]
          rfl
        rw [inclusion, found]
        simp only [if_neg entered]
        rw [bind_error failed]

/-! ### The walk -/

section walk

variable {good : Element → Prop} (inherited : Inherited good) (below : DescendMakes descend)
  (callers : ∀ el : Element, el.toNode ∈ around.callers → good el)
include inherited below callers

theorem emission_makes (escape : Bool) {fallback : Option (Expand (List Block))}
    (others : ∀ step ∈ fallback, Makes good step) (source : String) :
    Makes good (emission descend around escape fallback source) := by
  refine .get fun p captures => ?_
  split
  case h_1 nodes resolved =>
    obtain ⟨layer, inside, entry, member, same⟩ := Scope.mem_of_resolve resolved
    exact below good inherited around nodes callers (captures layer inside entry member nodes same)
  case h_2 value _ =>
    split
    case h_1 caller outer called =>
      obtain ⟨-, same⟩ := callerOf_eq_some.mp called
      rw [same] at callers
      refine below good inherited _ _ (fun el member => callers el (List.mem_cons_of_mem _ member)) fun el member => ?_
      exact callers el (List.mem_singleton.mp member ▸ List.mem_cons_self)
    case h_2 =>
      refine (expression_makes value).bind inherited fun _ => ?_
      cases fallback with
      | none => exact .pure _
      | some step => exact (others step rfl).bind inherited fun _ => .pure _

theorem emissions_makes {fallback : Option (Expand (List Block))} (others : ∀ step ∈ fallback, Makes good step)
    (el : Element) : Makes good (emissions descend around fallback el) := by
  have emitted (escape : Bool) (value : Option String) :
      Makes good (emissionOf descend around escape fallback value) := by
    cases value with
    | none => exact .pure []
    | some source => exact emission_makes inherited below callers escape others source
  rw [emissions_eq]
  exact (emitted true _).bind inherited fun _ => (emitted false _).bind inherited fun _ => .pure _

end walk

mutual

theorem siblings_makes {good : Element → Prop} (inherited : Inherited good) (below : DescendMakes descend)
    (callers : ∀ el : Element, el.toNode ∈ around.callers → good el) (opened : Bool) :
    ∀ nodes : List Node, (∀ el : Element, el.toNode ∈ nodes → good el) →
      Makes good (siblings descend around opened nodes)
  | [], _ => .pure _
  | node :: rest, members => by
    have first := nodeBlocks_makes inherited below callers node fun el same => members el (same ▸ List.mem_cons_self)
    have others (opened : Bool) := siblings_makes inherited below callers opened rest fun el member =>
      members el (List.mem_cons_of_mem _ member)
    rw [siblings]
    split
    · exact first.bind inherited fun _ => (others false).bind inherited fun _ => .pure _
    · exact (conditionOf_makes _).bind inherited fun _ => first.bind inherited fun _ =>
        (others true).bind inherited fun _ => .pure _
    · refine .ite (fun _ => .stop _ _) fun _ => ?_
      exact (conditionOf_makes _).bind inherited fun _ => first.bind inherited fun _ =>
        (others true).bind inherited fun _ => .pure _
    · refine .ite (fun _ => .stop _ _) fun _ => ?_
      exact first.bind inherited fun _ => (others false).bind inherited fun _ => .pure _

theorem nodeBlocks_makes {good : Element → Prop} (inherited : Inherited good) (below : DescendMakes descend)
    (callers : ∀ el : Element, el.toNode ∈ around.callers → good el) :
    ∀ node : Node, (∀ el : Element, el.toNode = node → good el) → Makes good (nodeBlocks descend around node)
  | .text _, _ => .pure _
  | .element tag attributes children, self => by
    have setter : good ⟨tag, attributes, children⟩ := self _ rfl
    have body : Makes good (bodyOf descend around children) :=
      (siblings_makes inherited below callers false children (inherited _ setter)).bind inherited fun _ => .pure _
    have others : ∀ step ∈ if children.isEmpty then none else some (bodyOf descend around children),
        Makes good step := by
      intro step member
      split at member
      · cases member
      · cases member
        exact body
    have emitted := emissions_makes inherited below callers others ⟨tag, attributes, children⟩
    rw [nodeBlocks]
    split
    case h_1 source _ =>
      split
      case h_1 => exact .throw _
      case h_2 => exact (expression_makes source).bind inherited fun _ => body.bind inherited fun _ => .pure _
    case h_2 =>
      split
      case h_1 target _ => exact .of_still (inclusion_scope below around ⟨tag, attributes, children⟩ target)
      case h_2 =>
        refine (bindFrom_makes setter).bind inherited fun _ => .ite (fun _ => ?_) fun _ => ?_
        · exact emitted.bind inherited fun _ => .ite (fun _ => .pure _) fun _ => body.bind inherited fun _ => .pure _
        · refine (attributeActions_makes inherited attributes).bind inherited fun actions => ?_
          have made (blocks : List Block) : Makes good
              (do let emitted ← emissions descend around _ _; return [Block.element tag actions (blocks ++ emitted)]) :=
            emitted.bind inherited fun _ => .pure _
          exact .ite (fun _ => (Makes.pure []).bind inherited made) fun _ => body.bind inherited made
  | .comment _, _ | .cdata _, _ | .instruction _ _, _ => .throw _

end

theorem expand_makes (depth : Nat) : DescendMakes (expand depth) := by
  induction depth with
  | zero => exact fun _ _ _ _ _ _ => .throw _
  | succ depth ih =>
    intro good inherited around nodes callers members
    exact (siblings_makes inherited ih callers false nodes members).bind inherited fun _ => .pure _

/-- Names that a call sets when it is expanded by itself are set by elements of its own tree. -/
theorem alone_makes {depth : Nat} {p alone : Progress} {result : Except CompileError (List Block)}
    (ran : expand depth { around with callers := [] } [(callSite el).toNode] { p with scope := {} } = (result, alone)) :
    ∃ made : List Element, (∀ setter ∈ made, setter ∈ (callSite el).toNode.elements) ∧
      alone.scope = ({} : Scope).afterAll made := by
  have inherited : Inherited (· ∈ (callSite el).toNode.elements) :=
    fun outer inside inner below => Node.mem_elements_of_child below _ inside
  have own : ∀ inner : Element, inner.toNode ∈ [(callSite el).toNode] → inner ∈ (callSite el).toNode.elements := by
    intro inner member
    rw [toNode_injective (List.mem_singleton.mp member)]
    exact List.mem_cons_self
  have makes := expand_makes depth _ inherited { around with callers := [] } [(callSite el).toNode] (by simp) own
  obtain ⟨made, own, reached⟩ := makes { p with scope := {} } captures_empty
  rw [ran] at reached
  exact ⟨made, own, reached⟩

/-- A call leaks no bindings. Whatever becomes of it, every layer is afterwards as it was before. Where the root of
    the called template starts, a name stands for what the last of the elements of the call's own tree that set it
    when the call was expanded by itself has set it to, and for what it stood for before the call if none did. -/
theorem inclusion_leaks_nothing (depth : Nat) (around : Surroundings) (el : Element) (target : String) (p : Progress) :
    (inclusion (expand depth) around el target p).2.scope = p.scope ∧
      ∀ template blocks alone, around.templates.get? target = some template → target ∉ around.calls →
        expand depth { around with callers := [] } [(callSite el).toNode] { p with scope := {} } = (.ok blocks, alone) →
        ∃ (made : List Element) (entry : Progress),
          (∀ setter ∈ made, setter ∈ (callSite el).toNode.elements) ∧
          alone.scope = ({} : Scope).afterAll made ∧
          (∀ name, entry.scope.lookup name = (lastSet name made).or (p.scope.lookup name)) ∧
          inclusion (expand depth) around el target p =
            let ended := expand depth (around.entered el target) [template.root.toNode] entry
            (ended.1, { ended.2 with scope := p.scope }) := by
  refine ⟨inclusion_scope (expand_makes depth) around el target p, fun template blocks alone found entered ran => ?_⟩
  obtain ⟨made, own, reached⟩ := alone_makes ran
  obtain ⟨entry, pushed, same⟩ := inclusion_apply (expand_makes depth) found entered ran
  refine ⟨made, entry, own, reached, fun name => ?_, same⟩
  have seen : alone.scope.lookup name = alone.scope.innermost.get? name := by
    rw [Scope.lookup_eq, reached, Scope.outer_afterAll]
    exact Option.or_none
  rw [pushed, Scope.lookup_push, ← seen, reached, Scope.lookup_afterAll]
  exact congrArg (Option.or · _) Option.or_none

/-- Templates that set a name which the one that calls them sets as well. -/
def rebinding : Fields Template :=
  [("card", ⟨"", ⟨"div", [⟨"t-esc", "x"⟩], [.element "t" [⟨"t-set", "x"⟩, ⟨"t-value", "3"⟩] []]⟩⟩),
   ("inner", ⟨"", ⟨"t", [], [.element "t" [⟨"t-set", "x"⟩, ⟨"t-value", "4"⟩] [], .element "t" [⟨"t-esc", "0"⟩] []]⟩⟩)]

/-- A call that sets a name twice, with another call in between. -/
def rebindingCall : Element :=
  ⟨"t", [⟨"t-call", "card"⟩], [.element "t" [⟨"t-set", "x"⟩, ⟨"t-value", "1"⟩] [],
    .element "t" [⟨"t-call", "inner"⟩] [.element "t" [⟨"t-set", "x"⟩, ⟨"t-value", "5"⟩] []],
    .element "p" [] [.element "t" [⟨"t-set", "x"⟩, ⟨"t-value", "2"⟩] []]]⟩

theorem rebindingCall_leaks_nothing :
    let p : Progress := { scope := ⟨[("x", .expr "0")], [[("y", .expr "7")]]⟩ }
    let around : Surroundings := ⟨rebinding, ["page"], []⟩
    (inclusion (expand 4) around rebindingCall "card" p).2.scope = p.scope ∧
      ∃ (template : Template) (blocks : List Block) (alone : Progress), rebinding.get? "card" = some template ∧
        expand 4 around [(callSite rebindingCall).toNode] { p with scope := {} } = (.ok blocks, alone) ∧
        ∃ (made : List Element) (entry : Progress),
          (∀ setter ∈ made, setter ∈ (callSite rebindingCall).toNode.elements) ∧
          alone.scope = ({} : Scope).afterAll made ∧
          (∀ name, entry.scope.lookup name = (lastSet name made).or (p.scope.lookup name)) ∧
          inclusion (expand 4) around rebindingCall "card" p =
            let ended := expand 4 (around.entered rebindingCall "card") [template.root.toNode] entry
            (ended.1, { ended.2 with scope := p.scope }) := by
  intro p around
  have holds := inclusion_leaks_nothing 4 around rebindingCall "card" p
  have succeeds :
      (expand 4 around [(callSite rebindingCall).toNode] { p with scope := {} }).1.toOption.isSome = true := by
    decide +kernel
  refine ⟨holds.1, ?_⟩
  rcases ran : expand 4 around [(callSite rebindingCall).toNode] { p with scope := {} } with ⟨result, alone⟩
  cases result with
  | error e =>
    rw [ran] at succeeds
    cases succeeds
  | ok blocks => exact ⟨_, blocks, alone, rfl, rfl, holds.2 _ blocks alone rfl (by decide) ran⟩

end Template

end Stencil
