import Stencil.Proofs.Contract
import Stencil.Proofs.Rendering

/-!
Inclusion is substitution. Where no template binds names, a template can be written out with every call
replaced by the template that it calls, and the passed content in the place where that template emits it.
The template written out compiles to the same program.
-/
namespace Stencil.Template

open Markup (Attribute Element Node)
open Stateful

/-! ### Templates written out -/

/-- The value that an element emits, and whether it is escaped. -/
def emitted? (el : Element) : Option (Bool × String) :=
  match el.attr? escName with
  | some source => some (true, source)
  | none => (el.attr? rawName).map (false, ·)

/-- The element emits the content that a call has passed, if there is a call. -/
def emitsPassed (el : Element) : Bool :=
  (emitted? el).any fun value => Text.trim value.2 = passedContent

/-- A wrapper in the place of a call: it has the branch directive of the call and nothing else. -/
def inPlace (el : Element) (root : Node) : Element :=
  ⟨wrapper, el.attributes.filter fun a => a.name ∈ branchNames, [root]⟩

/-- The element with passed content in place of the value that it emits. -/
def filled (el : Element) (site : Node) : Element :=
  ⟨el.name, el.attributes.filter fun a => a.name ∉ [escName, rawName], [site]⟩

/-- Nodes and what they are when they are written out, where `callers` are the calls around them from the
    innermost on. -/
inductive WrittenOut (templates : Fields Template) : (callers nodes written : List Node) → Prop
  | nil {callers : List Node} : WrittenOut templates callers [] []
  /-- What is no element stays as it is. -/
  | leaf {callers rest rest' : List Node} {node : Node} (leaf : node.element? = none)
      (others : WrittenOut templates callers rest rest') : WrittenOut templates callers (node :: rest) (node :: rest')
  /-- Of a repetition only the children are written out, whatever else the element says. -/
  | loop {callers rest rest' children : List Node} {el : Element} (loop : el.hasAttr foreachName)
      (inside : WrittenOut templates callers el.children children)
      (others : WrittenOut templates callers rest rest') :
      WrittenOut templates callers (el.toNode :: rest) ({ el with children := children }.toNode :: rest')
  /-- The root of the template that is called stands in place of a call. -/
  | call {callers rest rest' : List Node} {el : Element} {target : String} {template : Template} {root : Node}
      (noLoop : ¬el.hasAttr foreachName) (called : el.attr? callName = some target)
      (found : templates.get? target = some template)
      (inside : WrittenOut templates ((callSite el).toNode :: callers) [template.root.toNode] [root])
      (others : WrittenOut templates callers rest rest') :
      WrittenOut templates callers (el.toNode :: rest) ((inPlace el root).toNode :: rest')
  /-- The innermost call stands in place of the content that it passes; the calls around it are those around
      the place where it was made. -/
  | passed {caller : Node} {outer rest rest' : List Node} {el : Element} {site : Node}
      (noLoop : ¬el.hasAttr foreachName) (noCall : ¬el.hasAttr callName) (emits : emitsPassed el)
      (inside : WrittenOut templates outer [caller] [site])
      (others : WrittenOut templates (caller :: outer) rest rest') :
      WrittenOut templates (caller :: outer) (el.toNode :: rest) ((filled el site).toNode :: rest')
  /-- Of any other element the children are written out. Outside of calls there is no passed content. -/
  | plain {callers rest rest' children : List Node} {el : Element} (noLoop : ¬el.hasAttr foreachName)
      (noCall : ¬el.hasAttr callName) (stays : emitsPassed el → callers = [])
      (inside : WrittenOut templates callers el.children children)
      (others : WrittenOut templates callers rest rest') :
      WrittenOut templates callers (el.toNode :: rest) ({ el with children := children }.toNode :: rest')

/-- An element that binds no name and emits at most one value. -/
structure Plain (el : Element) : Prop where
  unset : ¬el.hasAttr setName
  single : ¬(el.hasAttr escName ∧ el.hasAttr rawName)

/-! ### Attributes -/

theorem attr?_eq_none {el : Element} {name : String} (lacks : ¬el.hasAttr name) : el.attr? name = none := by
  rwa [Element.hasAttr_eq, Bool.not_eq_true, Option.isSome_eq_false_iff, Option.isNone_iff_eq_none] at lacks

theorem attr?_filter (keep : String → Bool) (el : Element) (name tag : String) (children : List Node) :
    Element.attr? name ⟨tag, el.attributes.filter fun a => keep a.name, children⟩ =
      if keep name then el.attr? name else none := by
  simp only [Element.attr?, List.find?_filter]
  by_cases kept : keep name
  · rw [if_pos kept]
    congr 2
    funext a
    by_cases same : a.name = name
    · simp [same, kept]
    · simp [same]
  · rw [if_neg kept, Option.map_eq_none_iff, List.find?_eq_none]
    intro a _ both
    simp only [decide_eq_true_eq] at both
    exact kept (both.2 ▸ both.1)

theorem ofNode?_congr {el other : Element} (loop : other.attr? foreachName = el.attr? foreachName)
    (branches : ∀ name ∈ branchNames, other.attr? name = el.attr? name) :
    Branch.ofNode? other.toNode = Branch.ofNode? el.toNode := by
  have one := branches ifName (by decide)
  have two := branches elifName (by decide)
  have three := branches elseName (by decide)
  simp only [Branch.ofNode?, Node.element?, Element.toNode, Branch.of?, Element.hasAttr_eq]
  simp only [show Element.attr? _ ⟨other.name, other.attributes, other.children⟩ = other.attr? _ from rfl,
    show Element.attr? _ ⟨el.name, el.attributes, el.children⟩ = el.attr? _ from rfl, loop, one, two, three]

variable {descend : Descend} {around : Surroundings} {el : Element}

/-! ### Elements without bound names -/

/-- The element itself around what is inside it. A wrapper leaves no trace. -/
def elementAround (el : Element) (inside : Expand (List Block)) : Expand (List Block) :=
  if el.name = wrapper then inside
  else do
    let actions ← attributeActions el.attributes
    let blocks ← inside
    return [.element el.name actions blocks]

/-- What is inside an element: the value that it emits, or its body. -/
def insideOf (descend : Descend) (around : Surroundings) (el : Element) : Expand (List Block) :=
  match emitted? el with
  | some (escape, source) =>
    emission descend around escape
      (if el.children.isEmpty then none else some (bodyOf descend around el.children)) source
  | none => bodyOf descend around el.children

theorem insideOf_none (silent : emitted? el = none) :
    insideOf descend around el = bodyOf descend around el.children := by
  rw [insideOf, silent]

theorem insideOf_some {escape : Bool} {source : String} (emits : emitted? el = some (escape, source)) :
    insideOf descend around el = emission descend around escape
      (if el.children.isEmpty then none else some (bodyOf descend around el.children)) source := by
  rw [insideOf, emits]

theorem emissions_of_plain (plain : Plain el) (fallback : Option (Expand (List Block))) :
    emissions descend around fallback el = match emitted? el with
      | some (escape, source) => emission descend around escape fallback source
      | none => pure [] := by
  rw [emissions_eq, emitted?]
  have single := plain.single
  simp only [Element.hasAttr_eq] at single
  cases esc : el.attr? escName with
  | none =>
    cases raw : el.attr? rawName with
    | none => simp [emissionOf]
    | some source => simp [emissionOf]
  | some source =>
    cases raw : el.attr? rawName with
    | none => simp [emissionOf]
    | some other => simp [esc, raw] at single

theorem emitsValue_eq (el : Element) : emitsValue el = (emitted? el).isSome := by
  rw [emitsValue, Element.hasAttr_eq, Element.hasAttr_eq, emitted?]
  cases el.attr? escName with
  | none => simp
  | some source => rfl

theorem nodeBlocks_eq (noLoop : ¬el.hasAttr foreachName) (noCall : ¬el.hasAttr callName) (plain : Plain el) :
    nodeBlocks descend around el.toNode = elementAround el (insideOf descend around el) := by
  have loop := attr?_eq_none noLoop
  have call := attr?_eq_none noCall
  have unset := attr?_eq_none plain.unset
  have notSet : el.hasAttr setName = false := by simpa using plain.unset
  rw [Element.toNode, nodeBlocks]
  simp only [loop, call, bindFrom_eq, unset, notSet, emitsValue_eq, emissions_of_plain plain, elementAround, insideOf,
    bodyOf, Bool.or_false, pure_bind]
  cases emitted? el with
  | none => simp
  | some value => simp

/-- Attributes that only say what an element emits make no difference to the element itself. -/
theorem attributeActions_filter (attributes : List Attribute) :
    attributeActions (attributes.filter fun a => a.name ∉ [escName, rawName]) = attributeActions attributes := by
  induction attributes with
  | nil => rfl
  | cons a rest ih =>
    by_cases emits : a.name ∈ [escName, rawName]
    · have silent : AttributeKind.of a = .directive := by
        simp only [List.mem_cons, List.not_mem_nil, or_false] at emits
        rw [AttributeKind.of]
        rcases emits with same | same
        · rw [same]
          rfl
        · rw [same]
          rfl
      rw [List.filter_cons, if_neg (mt of_decide_eq_true (not_not_intro emits)), ih]
      simp [attributeActions, attributeAction, silent]
    · rw [List.filter_cons, if_pos (decide_eq_true emits), attributeActions, attributeActions, ih]

/-! ### Steps that give the same in every state -/

namespace Contract

variable {α β : Type} {c : Contract} {x : Expand α} {f : α → Expand β} {a : α} {b : β}

/-- Whatever state a step starts from, it succeeds and gives the same. -/
def Gives (c : Contract) (x : Expand α) (a : α) : Prop :=
  ∀ p, c.Holds p → ∃ q, x p = (.ok a, q) ∧ c.Holds q

theorem Gives.pure : c.Gives (pure a) a :=
  fun p state => ⟨p, rfl, state⟩

theorem Gives.bind (first : c.Gives x a) (second : c.Gives (f a) b) : c.Gives (x >>= f) b := by
  intro p state
  obtain ⟨q, ran, after⟩ := first p state
  rw [bind_ok ran]
  exact second q after

theorem Gives.get {f : Progress → Expand α} (given : ∀ p, c.Holds p → c.Gives (f p) a) : c.Gives (get >>= f) a :=
  fun p state => given p state p state

/-- A step that gives the same in every state if it gives anything in one. -/
def Steady (c : Contract) (x : Expand α) : Prop :=
  c.Yields (c.Gives x) x

theorem Steady.bind (first : c.Steady x) (second : ∀ a, c.Steady (f a)) : c.Steady (x >>= f) :=
  Keeps.bind first fun a given => (second a).mono fun _ next => given.bind next

theorem Steady.congr {y : Expand α} (steady : c.Steady x) (same : ∀ p, c.Holds p → y p = x p) : c.Steady y := by
  intro p state
  obtain ⟨_, after, ends⟩ := steady p state
  rw [same p state]
  refine ⟨rfl, after, ?_⟩
  rcases ran : (x p).1 with e | a
  · rwa [ran] at ends
  · rw [ran] at ends
    intro q state
    rw [same q state]
    exact ends q state

theorem Steady.pure : c.Steady (pure a) :=
  Keeps.pure .pure

end Contract

/-- Nothing is bound, and every text has a scoped form that does not change. -/
def bare (form : String → String) : Contract where
  cache cache := ∀ source, (cache.scopedText source).1 = form source
  binding _ := False

section bare

variable {form : String → String}

theorem scopedText_scopedText (cache : Expr.ScopeCache) (source other : String) :
    ((cache.scopedText source).2.scopedText other).1 = (cache.scopedText other).1 := by
  simp only [Expr.ScopeCache.scopedText]
  cases found : cache.get? source with
  | some form => rfl
  | none =>
    by_cases same : other = source
    · subst same
      rw [Fields.get?_set_self, found]
    · rw [Fields.get?_set_of_ne same]
      cases cache.get? other with
      | none => rfl
      | some form => rfl

theorem bare_resolve {p : Progress} (state : (bare form).Holds p) (source : String) :
    p.scope.resolve source = .expr source := by
  have free : p.scope.lookup source = none := by
    cases found : p.scope.lookup source with
    | none => rfl
    | some binding =>
      obtain ⟨layer, inside, member⟩ := Scope.mem_of_lookup found
      exact (state.scope layer inside _ member).elim
  rw [Scope.resolve, Scope.resolveFrom, free]

theorem expression_steady (source : String) : (bare form).Steady (expression source) := by
  have ran (p : Progress) (state : (bare form).Holds p) : expression source p =
      ((Expression.ofScopedText (form source)).mapError (.invalidExpression source),
        { p with cache := (p.cache.scopedText source).2 }) := by
    simp only [expression, bind_apply, get_apply, set_apply, ← state.cache source]
    cases Expression.ofScopedText (p.cache.scopedText source).1 with
    | ok e => rfl
    | error e => rfl
  have after (p : Progress) (state : (bare form).Holds p) :
      (bare form).Holds { p with cache := (p.cache.scopedText source).2 } := by
    refine ⟨fun other => ?_, state.scope⟩
    rw [scopedText_scopedText]
    exact state.cache other
  intro p state
  refine ⟨rfl, ?_⟩
  rw [ran p state]
  refine ⟨after p state, ?_⟩
  cases made : Expression.ofScopedText (form source) with
  | error e => trivial
  | ok e =>
    intro q state
    exact ⟨_, by rw [ran q state, made]; rfl, after q state⟩

theorem attributeParts_steady (pieces : List Piece) : (bare form).Steady (attributeParts pieces) := by
  induction pieces with
  | nil => exact .pure
  | cons piece rest ih =>
    cases piece with
    | literal s => exact ih.bind fun _ => .pure
    | expr s => exact (expression_steady _).bind fun _ => ih.bind fun _ => .pure

theorem attributeAction_steady (a : Attribute) : (bare form).Steady (attributeAction a) := by
  rw [attributeAction]
  split
  · exact .pure
  · exact (expression_steady _).bind fun _ => .pure
  · exact (attributeParts_steady _).bind fun _ => .pure
  · exact (expression_steady _).bind fun _ => .pure
  · exact .pure
  · exact .pure

theorem attributeActions_steady (attributes : List Attribute) : (bare form).Steady (attributeActions attributes) := by
  induction attributes with
  | nil => exact .pure
  | cons a rest ih => exact (attributeAction_steady a).bind fun _ => ih.bind fun _ => .pure

theorem conditionOf_steady (condition : String) : (bare form).Steady (conditionOf condition) := by
  refine (expression_steady condition).congr fun p state => ?_
  rw [conditionOf, bind_apply, get_apply]
  simp only [bare_resolve state]

/-! ### Expansions and what is written out -/

theorem emission_gives {fallback : Option (Expand (List Block))} {escape : Bool} {source : String} {value : Expression}
    {made : Option (List Block)} (outside : around.callers = []) (given : (bare form).Gives (expression source) value)
    (others : Option.Rel (bare form).Gives fallback made) :
    (bare form).Gives (emission descend around escape fallback source)
      [match made with
        | none => .emit value escape
        | some blocks => .emitOr value escape blocks] := by
  have free : callerOf around source = none := by
    rw [callerOf, outside]
    exact ite_self none
  refine .get fun p state => ?_
  rw [bare_resolve state]
  simp only [free]
  refine given.bind ?_
  cases others with
  | none => exact .pure
  | some other => exact other.bind .pure

/-- Nodes can be written out so that a step which goes through them gives the same wherever it starts. -/
def Writes (form : String → String) (templates : Fields Template) {α : Type}
    (step : Descend → Surroundings → List Node → Expand α) (callers nodes : List Node) (a : α) : Prop :=
  ∃ written, WrittenOut templates callers nodes written ∧
    ∀ descend around, around.callers = [] → (bare form).Gives (step descend around written) a

/-- The same for a node among others, whose place in a chain is kept. -/
def WritesNode (form : String → String) (templates : Fields Template) (callers : List Node) (node : Node)
    (blocks : List Block) : Prop :=
  ∃ whole, Branch.ofNode? whole = Branch.ofNode? node ∧
    (∀ rest rest', WrittenOut templates callers rest rest' →
      WrittenOut templates callers (node :: rest) (whole :: rest')) ∧
    ∀ descend around, around.callers = [] → (bare form).Gives (nodeBlocks descend around whole) blocks

/-- An element that is written out in place of another and differs in what is inside it only. -/
structure Replaces (templates : Fields Template) (callers : List Node) (el whole : Element) : Prop where
  name : whole.name = el.name
  attributes : attributeActions whole.attributes = attributeActions el.attributes
  noLoop : ¬whole.hasAttr foreachName
  noCall : ¬whole.hasAttr callName
  plain : Plain whole
  branch : Branch.ofNode? whole.toNode = Branch.ofNode? el.toNode
  written : ∀ rest rest', WrittenOut templates callers rest rest' →
    WrittenOut templates callers (el.toNode :: rest) (whole.toNode :: rest')

variable {templates : Fields Template} {callers : List Node}

theorem Replaces.children {children : List Node} (noLoop : ¬el.hasAttr foreachName) (noCall : ¬el.hasAttr callName)
    (plain : Plain el) (stays : emitsPassed el → callers = [])
    (inside : WrittenOut templates callers el.children children) :
    Replaces templates callers el { el with children := children } where
  name := rfl
  attributes := rfl
  noLoop := noLoop
  noCall := noCall
  plain := ⟨plain.unset, plain.single⟩
  branch := rfl
  written _ _ others := .plain noLoop noCall stays inside others

theorem attr?_filled {name : String} (kept : name ∉ [escName, rawName]) (el : Element) (site : Node) :
    (filled el site).attr? name = el.attr? name := by
  rw [filled, attr?_filter (fun name => name ∉ [escName, rawName]), if_pos (decide_eq_true kept)]

theorem attr?_filled_eq_none {name : String} (dropped : name ∈ [escName, rawName]) (el : Element) (site : Node) :
    (filled el site).attr? name = none := by
  rw [filled, attr?_filter (fun name => name ∉ [escName, rawName])]
  exact if_neg (mt of_decide_eq_true (not_not_intro dropped))

theorem emitted?_filled (el : Element) (site : Node) : emitted? (filled el site) = none := by
  rw [emitted?, attr?_filled_eq_none (by decide), attr?_filled_eq_none (by decide)]
  rfl

theorem Replaces.filled {caller site : Node} {outer : List Node} (noLoop : ¬el.hasAttr foreachName)
    (noCall : ¬el.hasAttr callName) (plain : Plain el) (emits : emitsPassed el)
    (inside : WrittenOut templates outer [caller] [site]) :
    Replaces templates (caller :: outer) el (filled el site) where
  name := rfl
  attributes := attributeActions_filter el.attributes
  noLoop := by rwa [Element.hasAttr_eq, attr?_filled (by decide), ← Element.hasAttr_eq]
  noCall := by rwa [Element.hasAttr_eq, attr?_filled (by decide), ← Element.hasAttr_eq]
  plain := by
    refine ⟨?_, fun both => ?_⟩
    · rw [Element.hasAttr_eq, attr?_filled (by decide), ← Element.hasAttr_eq]
      exact plain.unset
    · rw [Element.hasAttr_eq, attr?_filled_eq_none (by decide)] at both
      cases both.1
  branch := by
    refine ofNode?_congr (attr?_filled (by decide) el site) fun name branch => attr?_filled ?_ el site
    revert name
    decide
  written _ _ others := .passed noLoop noCall emits inside others

theorem elementAround_writes {inside : Expand (List Block)}
    (kept : (bare form).Yields (fun blocks => ∃ whole, Replaces templates callers el whole ∧
      ∀ descend around, around.callers = [] → (bare form).Gives (insideOf descend around whole) blocks) inside) :
    (bare form).Yields (WritesNode form templates callers el.toNode) (elementAround el inside) := by
  rw [elementAround]
  refine .ite (fun wraps => ?_) fun stays => ?_
  · refine kept.mono fun blocks ⟨whole, replaces, given⟩ => ?_
    refine ⟨whole.toNode, replaces.branch, replaces.written, fun descend around outside => ?_⟩
    rw [nodeBlocks_eq replaces.noLoop replaces.noCall replaces.plain, elementAround, replaces.name, if_pos wraps]
    exact given descend around outside
  · refine Contract.Keeps.bind (attributeActions_steady el.attributes) fun actions made => ?_
    refine kept.bind fun blocks ⟨whole, replaces, given⟩ => .pure ?_
    refine ⟨whole.toNode, replaces.branch, replaces.written, fun descend around outside => ?_⟩
    rw [nodeBlocks_eq replaces.noLoop replaces.noCall replaces.plain, elementAround, replaces.name, if_neg stays,
      replaces.attributes]
    exact made.bind ((given descend around outside).bind .pure)

/-- All elements of a tree bind no names and emit at most one value. -/
def AllPlain : Node → Prop :=
  Node.Everywhere Plain fun _ => True

/-- Expanding nodes below the tree gives what their written-out form gives. -/
def BelowWrites (form : String → String) (templates : Fields Template) (descend : Descend) : Prop :=
  ∀ around nodes, Contract.Within templates AllPlain around nodes →
    (bare form).Yields (Writes form templates bodyOf around.callers nodes) (descend around nodes)

theorem WrittenOut.length {nodes written : List Node} (out : WrittenOut templates callers nodes written) :
    written.length = nodes.length := by
  induction out <;> simp [*]

theorem WrittenOut.singleton {node : Node} {written : List Node} (out : WrittenOut templates callers [node] written) :
    ∃ whole, written = [whole] :=
  List.length_eq_one_iff.mp out.length

theorem WrittenOut.isEmpty {nodes written : List Node} (out : WrittenOut templates callers nodes written) :
    written.isEmpty = nodes.isEmpty := by
  cases out <;> rfl

theorem insideOf_writes (below : BelowWrites form templates descend)
    (allows : (bare form).Allows around AllPlain (Contract.Within templates AllPlain))
    (noLoop : ¬el.hasAttr foreachName) (noCall : ¬el.hasAttr callName) (plain : Plain el)
    (body : (bare form).Yields (Writes form templates bodyOf around.callers el.children)
      (bodyOf descend around el.children)) :
    (bare form).Yields (fun blocks => ∃ whole, Replaces templates around.callers el whole ∧
      ∀ descend around, around.callers = [] → (bare form).Gives (insideOf descend around whole) blocks)
      (insideOf descend around el) := by
  cases emits : emitted? el with
  | none =>
    rw [insideOf_none emits]
    refine body.mono fun blocks ⟨written, out, given⟩ => ⟨_, .children noLoop noCall plain ?_ out, ?_⟩
    · simp [emitsPassed, emits]
    · intro descend around outside
      rw [insideOf_none (show emitted? { el with children := written } = none from emits)]
      exact given descend around outside
  | some value =>
    obtain ⟨escape, source⟩ := value
    have passes : emitsPassed el ↔ Text.trim source = passedContent := by simp [emitsPassed, emits]
    rw [insideOf_some emits]
    refine .get fun p state => ?_
    rw [bare_resolve state]
    simp only
    -- Under a call, passed content fills the element; anywhere else its value is an expression, zero or not.
    split
    case h_1 caller outer called =>
      obtain ⟨passed, nested⟩ := callerOf_eq_some.mp called
      refine (below _ _ (allows.caller caller outer nested)).mono fun blocks ⟨written, out, given⟩ => ?_
      obtain ⟨site, rfl⟩ := out.singleton
      rw [nested]
      refine ⟨_, .filled noLoop noCall plain (passes.mpr passed) out, fun descend around outside => ?_⟩
      rw [insideOf_none (emitted?_filled el site)]
      exact given descend around outside
    case h_2 free =>
      have stays : emitsPassed el → around.callers = [] := fun emits => callerOf_eq_none.mp free (passes.mp emits)
      refine Contract.Keeps.bind (expression_steady source) fun e made => ?_
      by_cases childless : el.children.isEmpty
      · have out : WrittenOut templates around.callers el.children [] := by
          rw [List.isEmpty_iff.mp childless]
          exact .nil
        rw [if_pos childless]
        refine .pure ⟨_, .children noLoop noCall plain stays out, fun descend around outside => ?_⟩
        rw [insideOf_some (show emitted? { el with children := [] } = _ from emits)]
        exact emission_gives outside made .none
      · rw [if_neg childless]
        refine body.bind fun blocks ⟨written, out, given⟩ => .pure ⟨_, .children noLoop noCall plain stays out, ?_⟩
        intro descend around outside
        rw [insideOf_some (show emitted? { el with children := written } = _ from emits), out.isEmpty, if_neg childless]
        exact emission_gives outside made (.some (given descend around outside))

theorem nodeBlocks_loop {source : String} (loop : el.attr? foreachName = some source) :
    nodeBlocks descend around el.toNode = match el.attr? asName with
      | none => throw (.structure .loopWithoutName)
      | some item => do
        let e ← expression source
        let blocks ← bodyOf descend around el.children
        return [.loop e item blocks] := by
  rw [Element.toNode, nodeBlocks]
  split
  case h_1 found =>
    cases loop.symm.trans found
    rfl
  case h_2 found => cases loop.symm.trans found

theorem nodeBlocks_call {target : String} (noLoop : ¬el.hasAttr foreachName)
    (called : el.attr? callName = some target) :
    nodeBlocks descend around el.toNode = inclusion descend around el target := by
  rw [Element.toNode, nodeBlocks]
  simp only [attr?_eq_none noLoop, called]

theorem loop_writes (loop : el.hasAttr foreachName)
    (body : (bare form).Yields (Writes form templates bodyOf around.callers el.children)
      (bodyOf descend around el.children)) :
    (bare form).Yields (WritesNode form templates around.callers el.toNode) (nodeBlocks descend around el.toNode) := by
  rw [Element.hasAttr_eq, Option.isSome_iff_exists] at loop
  obtain ⟨source, loops⟩ := loop
  rw [nodeBlocks_loop loops]
  cases named : el.attr? asName with
  | none => exact .throw trivial
  | some item =>
    refine Contract.Keeps.bind (expression_steady source) fun e made => ?_
    refine body.bind fun blocks ⟨written, out, given⟩ => .pure ?_
    refine ⟨Element.toNode { el with children := written }, rfl, ?_, ?_⟩
    · exact fun _ _ others => .loop (Element.hasAttr_of_attr? loops) out others
    · intro descend around outside
      rw [nodeBlocks_loop (show Element.attr? foreachName { el with children := written } = _ from loops)]
      simp only [show Element.attr? asName { el with children := written } = _ from named]
      exact made.bind ((given descend around outside).bind .pure)

theorem ofNode?_inPlace (noLoop : ¬el.hasAttr foreachName) (root : Node) :
    Branch.ofNode? (inPlace el root).toNode = Branch.ofNode? el.toNode := by
  refine ofNode?_congr ?_ fun name branch => ?_
  · rw [attr?_eq_none noLoop, inPlace, attr?_filter (· ∈ branchNames)]
    rfl
  · rw [inPlace, attr?_filter (· ∈ branchNames), if_pos (decide_eq_true branch)]

/-- A wrapper in the place of a call is no more than what it wraps. -/
theorem nodeBlocks_inPlace (el : Element) (root : Node) :
    nodeBlocks descend around (inPlace el root).toNode = bodyOf descend around [root] := by
  have lacks (name : String) (other : name ∉ branchNames) : (inPlace el root).attr? name = none := by
    rw [inPlace, attr?_filter (· ∈ branchNames)]
    exact if_neg (mt of_decide_eq_true other)
  have without (name : String) (other : name ∉ branchNames) : ¬(inPlace el root).hasAttr name := by
    rw [Element.hasAttr_eq, lacks name other]
    exact Bool.false_ne_true
  have silent : emitted? (inPlace el root) = none := by
    rw [emitted?, lacks escName (by decide), lacks rawName (by decide)]
    rfl
  rw [nodeBlocks_eq (without _ (by decide)) (without _ (by decide))
    ⟨without _ (by decide), fun both => without escName (by decide) both.1⟩, insideOf_none silent]
  exact if_pos rfl

theorem call_writes {target : String} (below : BelowWrites form templates descend)
    (allows : (bare form).Allows around AllPlain (Contract.Within templates AllPlain))
    (registered : around.templates = templates) (good : AllPlain el.toNode)
    (noLoop : ¬el.hasAttr foreachName) (called : el.attr? callName = some target) :
    (bare form).Yields (WritesNode form templates around.callers el.toNode) (nodeBlocks descend around el.toNode) := by
  rw [nodeBlocks_call noLoop called, inclusion]
  split
  case h_1 => exact .throw trivial
  case h_2 template found =>
    refine .ite (fun _ => .stop trivial) fun entered => ?_
    -- The call by itself is expanded only for the names that it binds, and there are none.
    have site := allows.site el good (Element.hasAttr_of_attr? called)
    refine (below _ _ site).isolated.bind fun made kept => ?_
    obtain ⟨-, binds⟩ := kept
    refine (Contract.Keeps.record _ _ _).bind fun _ _ => .withLayer ?_ (binds _ List.mem_cons_self)
    have reached := allows.root el target template good called found entered
    refine (below _ _ reached).mono fun blocks writes => ?_
    obtain ⟨written, out, given⟩ := writes
    obtain ⟨root, rfl⟩ := out.singleton
    refine ⟨(inPlace el root).toNode, ofNode?_inPlace noLoop root, ?_, fun descend around outside => ?_⟩
    · exact fun _ _ others => .call noLoop called (registered ▸ found) out others
    · rw [nodeBlocks_inPlace]
      exact given descend around outside

theorem bodyOf_writes {nodes : List Node}
    (row : (bare form).Yields (Writes form templates (siblings · · false) callers nodes)
      (siblings descend around false nodes)) :
    (bare form).Yields (Writes form templates bodyOf callers nodes) (bodyOf descend around nodes) :=
  row.bind fun _ ⟨written, out, given⟩ =>
    .pure ⟨written, out, fun descend around outside => (given descend around outside).bind .pure⟩

theorem element_writes (below : BelowWrites form templates descend)
    (allows : (bare form).Allows around AllPlain (Contract.Within templates AllPlain))
    (registered : around.templates = templates) (el : Element) (good : AllPlain el.toNode)
    (body : (bare form).Yields (Writes form templates bodyOf around.callers el.children)
      (bodyOf descend around el.children)) :
    (bare form).Yields (WritesNode form templates around.callers el.toNode) (nodeBlocks descend around el.toNode) := by
  by_cases loop : el.hasAttr foreachName
  · exact loop_writes loop body
  · cases called : el.attr? callName with
    | some target => exact call_writes below allows registered good loop called
    | none =>
      have noCall : ¬el.hasAttr callName := by simp [Element.hasAttr_eq, called]
      rw [nodeBlocks_eq loop noCall good.self]
      exact elementAround_writes (insideOf_writes below allows loop noCall good.self body)

/-- A node and the siblings after it, with their results put together in some way. -/
theorem linked_writes {node : Node} {rest : List Node} {opened : Bool} {x : Expand (List Block)} {y : Expand Row}
    (first : (bare form).Yields (WritesNode form templates callers node) x)
    (others : (bare form).Yields (Writes form templates (siblings · · opened) callers rest) y)
    (together : List Block → Row → Row) :
    (bare form).Yields
      (fun row => ∃ whole rest', Branch.ofNode? whole = Branch.ofNode? node ∧
        WrittenOut templates callers (node :: rest) (whole :: rest') ∧
        ∀ descend around, around.callers = [] → (bare form).Gives
          (do let blocks ← nodeBlocks descend around whole
              let row ← siblings descend around opened rest'
              return together blocks row) row)
      (do let blocks ← x; let row ← y; return together blocks row) := by
  refine first.bind fun blocks ⟨whole, same, out, given⟩ => others.bind fun row ⟨rest', outs, givens⟩ => ?_
  refine .pure ⟨whole, rest', same, out _ _ outs, fun descend around outside => ?_⟩
  exact (given descend around outside).bind ((givens descend around outside).bind .pure)

mutual

theorem siblings_writes (below : BelowWrites form templates descend)
    (allows : (bare form).Allows around AllPlain (Contract.Within templates AllPlain))
    (registered : around.templates = templates) (opened : Bool) : ∀ nodes, (∀ n ∈ nodes, AllPlain n) →
      (bare form).Yields (Writes form templates (siblings · · opened) around.callers nodes)
        (siblings descend around opened nodes)
  | [], _ => .pure ⟨[], .nil, fun _ _ _ => .pure⟩
  | n :: rest, good => by
    have first := nodeBlocks_writes below allows registered n (good n List.mem_cons_self)
    have others (opened : Bool) := siblings_writes below allows registered opened rest fun m member =>
      good m (List.mem_cons_of_mem _ member)
    rw [siblings]
    split
    case h_1 place =>
      refine (linked_writes first (others false) _).mono fun row ⟨whole, rest', same, out, given⟩ => ?_
      refine ⟨whole :: rest', out, fun descend around outside => ?_⟩
      simp only [siblings, same, place]
      exact given descend around outside
    case h_2 condition place =>
      refine Contract.Keeps.bind (conditionOf_steady condition) fun test made => ?_
      refine (linked_writes first (others true) _).mono fun row ⟨whole, rest', same, out, given⟩ => ?_
      refine ⟨whole :: rest', out, fun descend around outside => ?_⟩
      simp only [siblings, same, place]
      exact made.bind (given descend around outside)
    case h_3 condition place =>
      refine .ite (fun _ => .stop trivial) fun continues => ?_
      refine Contract.Keeps.bind (conditionOf_steady condition) fun test made => ?_
      refine (linked_writes first (others true) _).mono fun row ⟨whole, rest', same, out, given⟩ => ?_
      refine ⟨whole :: rest', out, fun descend around outside => ?_⟩
      simp only [siblings, same, place, if_neg continues]
      exact made.bind (given descend around outside)
    case h_4 place =>
      refine .ite (fun _ => .stop trivial) fun continues => ?_
      refine (linked_writes first (others false) _).mono fun row ⟨whole, rest', same, out, given⟩ => ?_
      refine ⟨whole :: rest', out, fun descend around outside => ?_⟩
      simp only [siblings, same, place, if_neg continues]
      exact given descend around outside

theorem nodeBlocks_writes (below : BelowWrites form templates descend)
    (allows : (bare form).Allows around AllPlain (Contract.Within templates AllPlain))
    (registered : around.templates = templates) : ∀ n, AllPlain n →
      (bare form).Yields (WritesNode form templates around.callers n) (nodeBlocks descend around n)
  | .text s, _ => .pure ⟨.text s, rfl, fun _ _ others => .leaf rfl others, fun _ _ _ => .pure⟩
  | .element name attributes children, good => by
    have row := siblings_writes below allows registered false children (allows.child ⟨name, attributes, children⟩ good)
    exact element_writes below allows registered ⟨name, attributes, children⟩ good (bodyOf_writes row)
  | .comment _, _ | .cdata _, _ | .instruction _ _, _ => .throw trivial

end

theorem bare_closed (roots : ∀ entry ∈ templates, AllPlain entry.2.root.toNode) :
    (bare form).Closed templates AllPlain where
  cache cache source forms other := by
    rw [scopedText_scopedText]
    exact forms other
  fault _ _ _ := trivial
  named _ _ _ _ := trivial
  linked _ _ := .inl trivial
  text _ _ := trivial
  escaped _ _ _ := trivial
  raw _ _ _ := trivial
  child _ good _ member := good.child member
  bound _ good sets := good.self.unset sets
  roots := roots
  site el good _ := by
    refine good.change rfl ⟨?_, ?_⟩
    · rw [hasAttr_callSite (by decide) (by decide)]
      exact good.self.unset
    · rw [hasAttr_callSite (by decide) (by decide), hasAttr_callSite (by decide) (by decide)]
      exact good.self.single
  content _ bound := bound.elim

theorem expand_writes (roots : ∀ entry ∈ templates, AllPlain entry.2.root.toNode) (depth : Nat) :
    BelowWrites form templates (expand depth) := by
  induction depth with
  | zero => exact fun _ _ _ => .throw trivial
  | succ depth ih =>
    intro around nodes within
    have allows : (bare form).Allows around AllPlain _ := (bare_closed roots).allows within
    exact bodyOf_writes (siblings_writes ih allows within.registered false nodes within.members)

end bare

theorem WrittenOut.unique {templates : Fields Template} {callers nodes first second : List Node}
    (one : WrittenOut templates callers nodes first) (two : WrittenOut templates callers nodes second) :
    first = second := by
  induction one generalizing second with
  | nil =>
    cases two
    rfl
  | leaf none _ ih =>
    cases two with
    | leaf _ others => rw [ih others]
    | loop | call | passed | plain => cases none
  | @loop _ _ _ _ el loop _ _ ihInside ihOthers =>
    generalize same : el.toNode = node at two
    cases two with
    | leaf none =>
      subst same
      cases none
    | loop _ inside others =>
      obtain rfl := toNode_injective same
      rw [ihInside inside, ihOthers others]
    | call noLoop | passed noLoop | plain noLoop =>
      obtain rfl := toNode_injective same
      exact absurd loop noLoop
  | @call _ _ _ el target template _ noLoop called found _ _ ihInside ihOthers =>
    generalize same : el.toNode = node at two
    have calls : el.hasAttr callName := Element.hasAttr_of_attr? called
    cases two with
    | leaf none =>
      subst same
      cases none
    | loop loop =>
      obtain rfl := toNode_injective same
      exact absurd loop noLoop
    | call _ again foundAgain inside others =>
      obtain rfl := toNode_injective same
      cases called.symm.trans again
      cases found.symm.trans foundAgain
      cases ihInside inside
      rw [ihOthers others]
    | passed _ noCall | plain _ noCall =>
      obtain rfl := toNode_injective same
      exact absurd calls noCall
  | @passed _ _ _ _ el _ noLoop noCall emits _ _ ihInside ihOthers =>
    generalize same : el.toNode = node at two
    cases two with
    | leaf none =>
      subst same
      cases none
    | loop loop =>
      obtain rfl := toNode_injective same
      exact absurd loop noLoop
    | call _ called =>
      obtain rfl := toNode_injective same
      exact absurd (Element.hasAttr_of_attr? called) noCall
    | passed _ _ _ inside others =>
      obtain rfl := toNode_injective same
      cases ihInside inside
      rw [ihOthers others]
    | plain _ _ stays =>
      obtain rfl := toNode_injective same
      cases stays emits
  | @plain _ _ _ _ el noLoop noCall stays _ _ ihInside ihOthers =>
    generalize same : el.toNode = node at two
    cases two with
    | leaf none =>
      subst same
      cases none
    | loop loop =>
      obtain rfl := toNode_injective same
      exact absurd loop noLoop
    | call _ called =>
      obtain rfl := toNode_injective same
      exact absurd (Element.hasAttr_of_attr? called) noCall
    | passed _ _ emits =>
      obtain rfl := toNode_injective same
      cases stays emits
    | plain _ _ _ inside others =>
      obtain rfl := toNode_injective same
      rw [ihInside inside, ihOthers others]

theorem WrittenOut.element {templates : Fields Template} {callers written : List Node} {el : Element}
    (out : WrittenOut templates callers [el.toNode] written) : ∃ whole : Element, written = [whole.toNode] := by
  generalize same : [el.toNode] = nodes at out
  cases out with
  | nil => cases same
  | leaf none others =>
    cases same
    cases none
  | loop _ _ others | call _ _ _ _ others | passed _ _ _ _ others | plain _ _ _ _ others =>
    obtain ⟨-, rfl⟩ := List.cons.inj same
    cases others
    exact ⟨_, rfl⟩

/-- Where no element binds a name or emits two values, a template that compiles can be written out in exactly
    one way, and what is written out compiles to the same program without any other template. -/
theorem compile_writtenOut {templates : Fields Template} {cache : Expr.ScopeCache} {name : String} {program : Program}
    (plain : ∀ entry ∈ templates, ∀ el ∈ entry.2.root.toNode.elements,
      ¬el.hasAttr setName ∧ ¬(el.hasAttr escName ∧ el.hasAttr rawName))
    (compiled : (Registry.compile templates cache name).1 = .ok program) :
    ∃ template whole, templates.get? name = some template ∧
      (∀ written, WrittenOut templates [] [template.root.toNode] written ↔ written = [whole.toNode]) ∧
      ∀ source, (Registry.compile [(name, ⟨source, whole⟩)] cache name).1 = .ok program := by
  have roots : ∀ entry ∈ templates, AllPlain entry.2.root.toNode := fun entry member =>
    ⟨fun el inside => ⟨(plain entry member el inside).1, (plain entry member el inside).2⟩, fun _ _ => trivial⟩
  obtain ⟨blocks, expanded, rfl⟩ := blocks_of_compile compiled
  obtain ⟨template, found, expanded⟩ := template_of_blocksOf expanded
  have state : (bare fun source => (cache.scopedText source).1).Holds { cache := cache } := .start fun _ => rfl
  have closed : (bare fun source => (cache.scopedText source).1).Closed templates AllPlain := bare_closed roots
  obtain ⟨-, -, ends⟩ := expand_writes roots (expansionDepth templates) _ _ (closed.start found) _ state
  rw [expanded] at ends
  obtain ⟨written, out, given⟩ := ends
  obtain ⟨whole, rfl⟩ := out.element
  refine ⟨template, whole, found, fun other => ⟨fun again => again.unique out, fun same => same ▸ out⟩, ?_⟩
  intro source
  obtain ⟨depth, deep⟩ : ∃ depth, expansionDepth [(name, ⟨source, whole⟩)] = depth + 1 :=
    Nat.exists_eq_succ_of_ne_zero (by simp [expansionDepth])
  obtain ⟨q, made, -⟩ := given (expand depth) ⟨[(name, ⟨source, whole⟩)], [name], []⟩ rfl _ state
  have same : blocksOf [(name, ⟨source, whole⟩)] name { cache := cache } = (.ok blocks, q) := by
    have registered : Fields.get? name [(name, (⟨source, whole⟩ : Template))] = some ⟨source, whole⟩ := by
      simp [Fields.get?_cons]
    rw [blocksOf_eq registered, deep]
    exact made
  rw [Registry.compile, same]
  rfl

/-- A call in the content that a call passes, the passed content in a loop, and a zero outside of calls. -/
def nestedCalls : Fields Template :=
  [("main", ⟨"", ⟨"div", [],
      [.element "t" [⟨"t-call", "card"⟩, ⟨"t-if", "open"⟩]
        [.element "t" [⟨"t-call", "frame"⟩] [.text "inside"]],
       .element "b" [⟨"t-else", ""⟩, ⟨"t-esc", "0"⟩] [.text "none"]]⟩⟩),
   ("card", ⟨"", ⟨"p", [⟨"class", "card"⟩],
      [.element "t" [⟨"t-foreach", "rows"⟩, ⟨"t-as", "row"⟩]
        [.element "b" [⟨"t-esc", " 0 "⟩] [.text "empty"]]]⟩⟩),
   ("frame", ⟨"", ⟨"span", [], [.element "t" [⟨"t-raw", "0"⟩] []]⟩⟩)]

theorem nestedCalls_compile_writtenOut : ∃ program, (Registry.compile nestedCalls [] "main").1 = .ok program ∧
    ∃ template whole, nestedCalls.get? "main" = some template ∧
      (∀ written, WrittenOut nestedCalls [] [template.root.toNode] written ↔ written = [whole.toNode]) ∧
      ∀ source, (Registry.compile [("main", ⟨source, whole⟩)] [] "main").1 = .ok program := by
  have compiles : (Registry.compile nestedCalls [] "main").1.toOption.isSome = true := by decide +kernel
  cases compiled : (Registry.compile nestedCalls [] "main").1 with
  | error e =>
    rw [compiled] at compiles
    cases compiles
  | ok program => exact ⟨program, rfl, compile_writtenOut (by decide) compiled⟩

end Stencil.Template
