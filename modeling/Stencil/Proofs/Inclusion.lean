import Mathlib.Logic.Relation
import Stencil.Proofs.Layers
import Stencil.Proofs.Validation

/-!
Which templates include which. An expansion goes from place to place: along siblings, down to children, and into the
templates that are called. Only where it emits does it turn to content that stands elsewhere, captured under a name or
passed by a call. Between two such turns it follows the calls in the trees of the templates, so that a template which
no circle of calls goes through is refused because it includes itself only if content that is put in inside of it
calls it.
-/
namespace Stencil

open Relation (ReflTransGen TransGen)
open Stateful

namespace Template

open Markup (Attribute Element Node)

/-! ### Calls in trees -/

/-- One of the attributes of the element calls the template. -/
def Carries (el : Element) (target : String) : Prop :=
  ⟨callName, target⟩ ∈ el.attributes

/-- An element in the tree of one template calls the other. -/
def Calls (templates : Fields Template) (caller target : String) : Prop :=
  ∃ template, templates.get? caller = some template ∧ ∃ el ∈ template.root.toNode.elements, Carries el target

variable {el : Element} {target : String}

theorem carries_of_attr? (calls : el.attr? callName = some target) : Carries el target := by
  obtain ⟨a, found, rfl⟩ := Option.map_eq_some_iff.mp calls
  have named : a.name = callName := by simpa using List.find?_some found
  rw [Carries, ← named]
  exact List.mem_of_find?_eq_some found

theorem carries_of_callSite (carries : Carries (callSite el) target) : Carries el target := by
  have removed {el : Element} {name : String} (carries : Carries (el.removeAttr name) target) : Carries el target :=
    List.mem_of_mem_eraseP carries
  exact removed (removed (removed (removed carries)))

/-! ### Places of an expansion -/

/-- Nodes that an expansion comes to, what surrounds them, and the names that are bound there. -/
structure Place where
  around : Surroundings
  scope : Scope
  nodes : List Node

/-- A step that succeeds leaves other bound names than it finds. -/
def Leaves {α : Type} (step : Expand α) (scope after : Scope) : Prop :=
  ∃ p a q, step p = (.ok a, q) ∧ p.scope = scope ∧ q.scope = after

/-- The test of a node can be expanded, if it has one. -/
def Tested (scope : Scope) (node : Node) : Prop :=
  match Branch.ofNode? node with
  | some (.first condition) | some (.next condition) => Leaves (conditionOf condition) scope scope
  | _ => True

/-- An element that is neither repeated nor a call, and whose attributes can be expanded. -/
structure Present (scope : Scope) (el : Element) : Prop where
  once : el.attr? foreachName = none
  uncalled : el.attr? callName = none
  attributes : el.name ≠ wrapper → Leaves (attributeActions el.attributes) (scope.after el) (scope.after el)

/-- What an element emits for an absent value: its children, if it has any. -/
def fallbackOf (descend : Descend) (around : Surroundings) (nodes : List Node) : Option (Expand (List Block)) :=
  if nodes.isEmpty then none else some (bodyOf descend around nodes)

/-- An element emits a value while names are bound as `after`: once it has set its own name, and the second value
    once the first is emitted. -/
inductive Emits (around : Surroundings) (el : Element) (scope : Scope) : (after : Scope) → (source : String) → Prop
  | escaped {source : String} (given : el.attr? escName = some source) : Emits around el scope (scope.after el) source
  | raw (depth : Nat) {after : Scope} {source : String} (given : el.attr? rawName = some source)
      (first : Leaves (emissionOf (expand depth) around true (fallbackOf (expand depth) around el.children)
        (el.attr? escName)) (scope.after el) after) :
      Emits around el scope after source

/-- The element calls a registered template that is not being expanded. -/
structure Enters (around : Surroundings) (el : Element) (called : String) (template : Template) : Prop where
  once : el.attr? foreachName = none
  calls : el.attr? callName = some called
  found : around.templates.get? called = some template
  new : called ∉ around.calls

/-- An expansion goes on from a place by what stands there: to the next sibling, to the children of an element, to a
    call by itself, and to the root of a template that is called. -/
inductive Walks : Place → Place → Prop
  | next (depth : Nat) {around : Surroundings} {scope after : Scope} {node : Node} {rest : List Node}
      (tested : Tested scope node) (done : Leaves (nodeBlocks (expand depth) around node) scope after) :
      Walks ⟨around, scope, node :: rest⟩ ⟨around, after, rest⟩
  | repeated {around : Surroundings} {scope : Scope} {el : Element} {rest : List Node} {source item : String}
      (tested : Tested scope el.toNode) (repeats : el.attr? foreachName = some source)
      (named : el.attr? asName = some item) (ready : Leaves (expression source) scope scope) :
      Walks ⟨around, scope, el.toNode :: rest⟩ ⟨around, scope, el.children⟩
  | body {around : Surroundings} {scope : Scope} {el : Element} {rest : List Node} (tested : Tested scope el.toNode)
      (present : Present scope el) (silent : emitsValue el = false)
      (kept : el.name = wrapper → el.hasAttr setName = false) :
      Walks ⟨around, scope, el.toNode :: rest⟩ ⟨around, scope.after el, el.children⟩
  | fallback {around : Surroundings} {scope after : Scope} {el : Element} {rest : List Node} {source value : String}
      (tested : Tested scope el.toNode) (present : Present scope el) (emits : Emits around el scope after source)
      (resolved : after.resolve source = .expr value) (other : callerOf around value = none)
      (ready : Leaves (expression value) after after) :
      Walks ⟨around, scope, el.toNode :: rest⟩ ⟨around, after, el.children⟩
  | site {around : Surroundings} {scope : Scope} {el : Element} {rest : List Node} {called : String}
      {template : Template} (tested : Tested scope el.toNode) (enters : Enters around el called template) :
      Walks ⟨around, scope, el.toNode :: rest⟩ ⟨{ around with callers := [] }, {}, [(callSite el).toNode]⟩
  | call (depth : Nat) {around : Surroundings} {scope made : Scope} {el : Element} {rest : List Node} {called : String}
      {template : Template} (tested : Tested scope el.toNode) (enters : Enters around el called template)
      (alone : Leaves (expand depth { around with callers := [] } [(callSite el).toNode]) {} made) :
      Walks ⟨around, scope, el.toNode :: rest⟩
        ⟨around.entered el called, scope.push made.innermost, [template.root.toNode]⟩

/-- An expansion turns to content that is put in place of an emission: content that a name stands for, or content that
    a call has passed. -/
inductive Brings : Place → Place → Prop
  | captured {around : Surroundings} {scope after : Scope} {el : Element} {rest nodes : List Node} {source : String}
      (tested : Tested scope el.toNode) (present : Present scope el) (emits : Emits around el scope after source)
      (resolved : after.resolve source = .content nodes) :
      Brings ⟨around, scope, el.toNode :: rest⟩ ⟨around, after, nodes⟩
  | passed {around : Surroundings} {scope after : Scope} {el : Element} {rest outer : List Node} {caller : Node}
      {source value : String} (tested : Tested scope el.toNode) (present : Present scope el)
      (emits : Emits around el scope after source) (resolved : after.resolve source = .expr value)
      (passes : callerOf around value = some (caller, outer)) :
      Brings ⟨around, scope, el.toNode :: rest⟩ ⟨{ around with callers := outer }, after, [caller]⟩

/-- An expansion of a template comes to a place. -/
def Comes (templates : Fields Template) (name : String) (place : Place) : Prop :=
  ∃ template, templates.get? name = some template ∧
    ReflTransGen (fun a b => Walks a b ∨ Brings a b) ⟨⟨templates, [name], []⟩, {}, [template.root.toNode]⟩ place

/-- What stands first at a place is a call of the template. -/
def Place.Calls (place : Place) (target : String) : Prop :=
  ∃ (el : Element) (rest : List Node), place.nodes = el.toNode :: rest ∧ Tested place.scope el.toNode ∧
    el.attr? foreachName = none ∧ el.attr? callName = some target

/-- Wherever an expansion of `name` puts in content inside of `target`, neither the content nor a template that is
    included from it calls `target`. -/
def KeepsApart (templates : Fields Template) (name target : String) : Prop :=
  ∀ place content last, Comes templates name place → target ∈ place.around.calls → Brings place content →
    ReflTransGen Walks content last → ¬last.Calls target

/-! ### Places that are safe -/

/-- The calls in the trees of the nodes are of templates that the template leads to. -/
def LedTo (templates : Fields Template) (target : String) (nodes : List Node) : Prop :=
  ∀ el ∈ Node.elementsOf nodes, ∀ other, Carries el other → TransGen (Calls templates) target other

/-- A place that an expansion comes to. If it is inside of `target`, it is there by the calls of trees or by content
    that was put in. -/
structure Safe (templates : Fields Template) (name target : String) (place : Place) : Prop where
  registered : place.around.templates = templates
  comes : Comes templates name place
  inside : target ∈ place.around.calls → LedTo templates target place.nodes ∨
    ∃ source content, Comes templates name source ∧ target ∈ source.around.calls ∧ Brings source content ∧
      ReflTransGen Walks content place

section safe

variable {templates : Fields Template} {name : String} {place later : Place}

theorem LedTo.mono {nodes others : List Node} (led : LedTo templates target nodes)
    (part : ∀ el ∈ Node.elementsOf others, el ∈ Node.elementsOf nodes) : LedTo templates target others :=
  fun el member => led el (part el member)

theorem mem_elementsOf_children {rest : List Node} {inner : Element} (member : inner ∈ Node.elementsOf el.children) :
    inner ∈ Node.elementsOf (el.toNode :: rest) :=
  List.mem_append_left _ (List.mem_cons_of_mem _ member)

theorem LedTo.callSite {rest : List Node} (led : LedTo templates target (el.toNode :: rest)) :
    LedTo templates target [(callSite el).toNode] := by
  intro inner member other carries
  rcases List.mem_cons.mp member with rfl | member
  · exact led el List.mem_cons_self other (carries_of_callSite carries)
  · rcases List.mem_append.mp member with member | none
    · exact led inner (mem_elementsOf_children member) other carries
    · cases none

/-- Where the calls of trees lead, the calls of the trees there lead on. -/
theorem LedTo.root {called : String} {template : Template} (found : templates.get? called = some template)
    (leads : ReflTransGen (Calls templates) target called) : LedTo templates target [template.root.toNode] := by
  intro el member other carries
  obtain ⟨node, same, member⟩ := Node.mem_elementsOf.mp member
  rw [List.mem_singleton.mp same] at member
  exact TransGen.tail' leads ⟨template, found, el, member, carries⟩

theorem Safe.start {template : Template} (found : templates.get? name = some template) :
    Safe templates name target ⟨⟨templates, [name], []⟩, {}, [template.root.toNode]⟩ where
  registered := rfl
  comes := ⟨template, found, .refl⟩
  inside member := by
    rw [List.mem_singleton.mp member]
    exact .inl (.root found .refl)

theorem Safe.walks (safe : Safe templates name target place) (walks : Walks place later) :
    Safe templates name target later := by
  have comes : Comes templates name later := by
    obtain ⟨template, found, way⟩ := safe.comes
    exact ⟨template, found, way.tail (.inl walks)⟩
  -- What was put in before is still where it came from, so only the calls of trees have to be followed.
  have inside (member : target ∈ place.around.calls)
      (led : LedTo templates target place.nodes → LedTo templates target later.nodes) :
      LedTo templates target later.nodes ∨ ∃ source content, Comes templates name source ∧
        target ∈ source.around.calls ∧ Brings source content ∧ ReflTransGen Walks content later := by
    rcases safe.inside member with own | ⟨source, content, came, inside, brings, way⟩
    · exact .inl (led own)
    · exact .inr ⟨source, content, came, inside, brings, way.tail walks⟩
  have registered := safe.registered
  cases walks with
  | next depth tested done =>
    exact ⟨registered, comes, fun member => inside member fun led => led.mono fun _ => List.mem_append_right _⟩
  | repeated tested repeats named ready =>
    exact ⟨registered, comes, fun member => inside member fun led => led.mono fun _ => mem_elementsOf_children⟩
  | body tested present silent kept =>
    exact ⟨registered, comes, fun member => inside member fun led => led.mono fun _ => mem_elementsOf_children⟩
  | fallback tested present emits resolved other ready =>
    exact ⟨registered, comes, fun member => inside member fun led => led.mono fun _ => mem_elementsOf_children⟩
  | site tested enters => exact ⟨registered, comes, fun member => inside member LedTo.callSite⟩
  | @call depth around scope made el rest called template tested enters alone =>
    have found : templates.get? called = some template := registered ▸ enters.found
    refine ⟨registered, comes, fun member => ?_⟩
    rcases List.mem_cons.mp member with rfl | member
    · exact .inl (.root found .refl)
    · refine inside member fun led => .root found ?_
      exact (led el List.mem_cons_self called (carries_of_attr? enters.calls)).to_reflTransGen

theorem Safe.brings (safe : Safe templates name target place) (brings : Brings place later) :
    Safe templates name target later := by
  have comes : Comes templates name later := by
    obtain ⟨template, found, way⟩ := safe.comes
    exact ⟨template, found, way.tail (.inr brings)⟩
  have inside (member : target ∈ place.around.calls) : LedTo templates target later.nodes ∨
      ∃ source content, Comes templates name source ∧ target ∈ source.around.calls ∧ Brings source content ∧
        ReflTransGen Walks content later :=
    .inr ⟨place, later, safe.comes, member, brings, .refl⟩
  have registered := safe.registered
  cases brings with
  | captured tested present emits resolved => exact ⟨registered, comes, inside⟩
  | passed tested present emits resolved passes => exact ⟨registered, comes, inside⟩

/-- At a safe place inside of a template, the template is not called. -/
theorem Safe.not_calls (safe : Safe templates name target place)
    (acyclic : ¬TransGen (Calls templates) target target) (apart : KeepsApart templates name target)
    (member : target ∈ place.around.calls) : ¬place.Calls target := by
  intro calls
  rcases safe.inside member with led | ⟨source, content, comes, inside, brings, way⟩
  · obtain ⟨el, rest, first, -, -, calls⟩ := calls
    rw [first] at led
    exact acyclic (led el List.mem_cons_self target (carries_of_attr? calls))
  · exact apart source content place comes inside brings way calls

end safe

/-! ### Steps that refuse nothing -/

/-- A step that leaves the bound names as they are and does not refuse a template for including itself. -/
def Stays {α : Type} (step : Expand α) : Prop :=
  ∀ p, (step p).2.scope = p.scope ∧ ∀ target, (step p).1 ≠ .error (.structure (.includesItself target))

/-- Where names are bound as `scope`, a step does not refuse the template for including itself. -/
def Spares {α : Type} (target : String) (scope : Scope) (step : Expand α) : Prop :=
  ∀ p, p.scope = scope → (step p).1 ≠ .error (.structure (.includesItself target))

section steps

variable {α β : Type} {scope : Scope} {step yes no : Expand α}

theorem Stays.pure (a : α) : Stays (pure a : Expand α) :=
  fun _ => ⟨rfl, fun _ => by rintro ⟨⟩⟩

theorem Stays.bind {next : α → Expand β} (first : Stays step) (second : ∀ a, Stays (next a)) :
    Stays (step >>= next) := by
  intro p
  obtain ⟨still, spares⟩ := first p
  rcases ran : step p with ⟨result, q⟩
  rw [ran] at still spares
  cases result with
  | error e =>
    rw [bind_error ran]
    exact ⟨still, fun target failed => spares target (by rw [Except.error.inj failed])⟩
  | ok a =>
    rw [bind_ok ran]
    obtain ⟨kept, others⟩ := second a q
    exact ⟨kept.trans still, others⟩

theorem Stays.get {next : Progress → Expand α} (stays : ∀ p, Stays (next p)) : Stays (get >>= next) :=
  fun p => stays p p

theorem Stays.spares (stays : Stays step) (target : String) (scope : Scope) : Spares target scope step :=
  fun p _ => (stays p).2 target

theorem Stays.leaves {after : Scope} (stays : Stays step) (leaves : Leaves step scope after) : after = scope := by
  obtain ⟨p, a, q, ran, rfl, rfl⟩ := leaves
  have still := (stays p).1
  rw [ran] at still
  exact still

theorem Spares.pure (a : α) : Spares target scope (pure a : Expand α) :=
  (Stays.pure a).spares target scope

/-- Whatever comes after a failure makes no difference. -/
theorem Spares.stop {e : CompileError} {next : α → Expand β} (other : e ≠ .structure (.includesItself target)) :
    Spares target scope ((throw e : Expand α) >>= next) :=
  fun _ _ failed => other (Except.error.inj failed)

theorem Spares.throw {e : CompileError} (other : e ≠ .structure (.includesItself target)) :
    Spares target scope (throw e : Expand α) :=
  fun _ _ failed => other (Except.error.inj failed)

theorem Spares.bind {next : α → Expand β} (first : Spares target scope step)
    (second : ∀ a after, Leaves step scope after → Spares target after (next a)) :
    Spares target scope (step >>= next) := by
  intro p same
  have spares := first p same
  rcases ran : step p with ⟨result, q⟩
  rw [ran] at spares
  cases result with
  | error e =>
    rw [bind_error ran]
    exact fun failed => spares (by rw [Except.error.inj failed])
  | ok a =>
    rw [bind_ok ran]
    exact second a q.scope ⟨p, a, q, ran, same, rfl⟩ q rfl

theorem Stays.bindSpares {next : α → Expand β} (first : Stays step)
    (second : ∀ a, Leaves step scope scope → Spares target scope (next a)) : Spares target scope (step >>= next) := by
  refine (first.spares target scope).bind fun a after leaves => ?_
  obtain rfl := first.leaves leaves
  exact second a leaves

theorem Spares.get {next : Progress → Expand α} (spares : ∀ p, p.scope = scope → Spares target scope (next p)) :
    Spares target scope (get >>= next) :=
  fun p same => spares p same p same

theorem Spares.ite {c : Prop} [Decidable c] (first : c → Spares target scope yes)
    (second : ¬c → Spares target scope no) : Spares target scope (if c then yes else no) := by
  by_cases holds : c
  · rw [if_pos holds]
    exact first holds
  · rw [if_neg holds]
    exact second holds

/-- A step in a scope of its own, before one that is given the scope. -/
theorem Spares.isolated {next : α × Scope → Expand β} (first : Spares target {} step)
    (second : ∀ a made, Leaves step {} made → Spares target scope (next (a, made))) :
    Spares target scope (isolated step >>= next) := by
  intro p same
  have spares := first { p with scope := {} } rfl
  rcases ran : step { p with scope := {} } with ⟨result, q⟩
  rw [ran] at spares
  cases result with
  | error e =>
    have failed : Template.isolated step p = (.error e, { q with scope := p.scope }) := by
      rw [Template.isolated, ran]
      rfl
    rw [bind_error failed]
    exact fun failed => spares (by rw [Except.error.inj failed])
  | ok a =>
    have done : Template.isolated step p = (.ok (a, q.scope), { q with scope := p.scope }) := by
      rw [Template.isolated, ran]
      rfl
    rw [bind_ok done]
    exact second a q.scope ⟨_, a, q, ran, rfl, rfl⟩ _ same

theorem Spares.withLayer {bindings : Bindings} (spares : Spares target (scope.push bindings) step) :
    Spares target scope (withLayer bindings step) := by
  rintro p rfl
  exact spares { p with scope := p.scope.push bindings } rfl

end steps

theorem expression_stays (source : String) : Stays (expression source) := by
  intro p
  simp only [expression, bind_apply, get_apply, set_apply]
  cases Expression.ofScopedText (p.cache.scopedText source).1 with
  | ok e => exact ⟨rfl, fun _ => by rintro ⟨⟩⟩
  | error e => exact ⟨rfl, fun _ => by rintro ⟨⟩⟩

theorem attributeParts_stays (pieces : List Piece) : Stays (attributeParts pieces) := by
  induction pieces with
  | nil => exact .pure []
  | cons piece rest ih =>
    cases piece with
    | literal s => exact ih.bind fun _ => .pure _
    | expr s => exact (expression_stays _).bind fun _ => ih.bind fun _ => .pure _

theorem attributeAction_stays (a : Attribute) : Stays (attributeAction a) := by
  rw [attributeAction]
  split
  · exact .pure _
  · exact (expression_stays _).bind fun _ => .pure _
  · exact (attributeParts_stays _).bind fun _ => .pure _
  · exact (expression_stays _).bind fun _ => .pure _
  · exact .pure _
  · exact .pure _

theorem attributeActions_stays (attributes : List Attribute) : Stays (attributeActions attributes) := by
  induction attributes with
  | nil => exact .pure []
  | cons a rest ih => exact (attributeAction_stays a).bind fun _ => ih.bind fun _ => .pure _

theorem conditionOf_stays (condition : String) : Stays (conditionOf condition) := by
  refine .get fun p => ?_
  split
  · exact expression_stays _
  · exact expression_stays _

theorem record_stays (level : Level) (target message : String) : Stays (record level target message) :=
  fun _ => ⟨rfl, fun _ => by rintro ⟨⟩⟩

/-! ### The walk -/

/-- The places from which an expansion to a depth spares a template. -/
def SparesSafe (templates : Fields Template) (name target : String) (depth : Nat) : Prop :=
  ∀ place, Safe templates name target place → Spares target place.scope (expand depth place.around place.nodes)

section leave

variable {templates : Fields Template} {name : String} {around : Surroundings} {scope after : Scope} {rest : List Node}
  {depth : Nat} (acyclic : ¬TransGen (Calls templates) target target) (apart : KeepsApart templates name target)
  (below : SparesSafe templates name target depth)
  (safe : Safe templates name target ⟨around, scope, el.toNode :: rest⟩)

include acyclic apart below safe in
theorem inclusion_spares {called : String} (tested : Tested scope el.toNode) (once : el.attr? foreachName = none)
    (calls : el.attr? callName = some called) : Spares target scope (inclusion (expand depth) around el called) := by
  rw [inclusion]
  split
  case h_1 => exact .throw (by rintro ⟨⟩)
  case h_2 template found =>
    refine .ite (fun entered => .stop ?_) fun new => ?_
    · rintro ⟨⟩
      exact safe.not_calls acyclic apart entered ⟨el, rest, rfl, tested, once, calls⟩
    · have enters : Enters around el called template := ⟨once, calls, found, new⟩
      have site := below _ (safe.walks (.site tested enters))
      refine site.isolated fun _ made alone => (record_stays _ _ _).bindSpares fun _ _ => ?_
      exact (below _ (safe.walks (.call depth tested enters alone))).withLayer

include below safe in
theorem emission_spares (escape : Bool) {source : String} (tested : Tested scope el.toNode)
    (present : Present scope el) (emits : Emits around el scope after source)
    (others : Safe templates name target ⟨around, after, el.children⟩ →
      ∀ step ∈ fallbackOf (expand depth) around el.children, Spares target after step) :
    Spares target after
      (emission (expand depth) around escape (fallbackOf (expand depth) around el.children) source) := by
  refine .get fun p same => ?_
  rw [same]
  split
  case h_1 nodes resolved => exact below _ (safe.brings (.captured tested present emits resolved))
  case h_2 value resolved =>
    split
    case h_1 caller outer passes => exact below _ (safe.brings (.passed tested present emits resolved passes))
    case h_2 other =>
      refine (expression_stays value).bindSpares fun _ ready => ?_
      have others := others (safe.walks (.fallback tested present emits resolved other ready))
      cases fallback : fallbackOf (expand depth) around el.children with
      | none => exact .pure _
      | some step => exact (others step fallback).bind fun _ _ _ => .pure _

include below safe in
theorem emissions_spares (tested : Tested scope el.toNode) (present : Present scope el)
    (others : ∀ after, Safe templates name target ⟨around, after, el.children⟩ →
      ∀ step ∈ fallbackOf (expand depth) around el.children, Spares target after step) :
    Spares target (scope.after el)
      (emissions (expand depth) around (fallbackOf (expand depth) around el.children) el) := by
  have first : Spares target (scope.after el) (emissionOf (expand depth) around true
      (fallbackOf (expand depth) around el.children) (el.attr? escName)) := by
    cases given : el.attr? escName with
    | none => exact .pure []
    | some source => exact emission_spares below safe true tested present (.escaped given) (others _)
  rw [emissions_eq]
  refine first.bind fun _ after done => Spares.bind ?_ fun _ _ _ => .pure _
  cases given : el.attr? rawName with
  | none => exact .pure []
  | some source => exact emission_spares below safe false tested present (.raw depth given done) (others _)

end leave

/-- An element that emits nothing has no emissions. -/
theorem emissions_silent (descend : Descend) (around : Surroundings) (fallback : Option (Expand (List Block)))
    (silent : emitsValue el = false) : emissions descend around fallback el = pure [] := by
  simp only [emitsValue, Element.hasAttr_eq, Bool.or_eq_false_iff, Option.isSome_eq_false_iff,
    Option.isNone_iff_eq_none] at silent
  rw [emissions_eq, silent.1, silent.2]
  rfl

section walk

variable {templates : Fields Template} {name : String} {around : Surroundings} {depth : Nat}

mutual

theorem siblings_spares (acyclic : ¬TransGen (Calls templates) target target) (apart : KeepsApart templates name target)
    (below : SparesSafe templates name target depth) (opened : Bool) : ∀ (nodes : List Node) (scope : Scope),
      Safe templates name target ⟨around, scope, nodes⟩ →
        Spares target scope (siblings (expand depth) around opened nodes)
  | [], _, _ => .pure _
  | node :: rest, scope, safe => by
    have first (tested : Tested scope node) := nodeBlocks_spares acyclic apart below node rest scope safe tested
    have others (tested : Tested scope node) (opened : Bool) (after : Scope)
        (done : Leaves (nodeBlocks (expand depth) around node) scope after) :=
      siblings_spares acyclic apart below opened rest after (safe.walks (.next depth tested done))
    have both (tested : Tested scope node) (opened : Bool) (row : List Block → Row → Row) :
        Spares target scope (do
          let blocks ← nodeBlocks (expand depth) around node
          let others ← siblings (expand depth) around opened rest
          return row blocks others) :=
      (first tested).bind fun _ _ done => (others tested opened _ done).bind fun _ _ _ => .pure _
    rw [siblings]
    split
    case h_1 found =>
      have tested : Tested scope node := by rw [Tested, found]; trivial
      exact both tested false fun _ _ => _
    case h_2 condition found =>
      refine (conditionOf_stays _).bindSpares fun test ready => ?_
      have tested : Tested scope node := by rw [Tested, found]; exact ready
      exact both tested true fun _ _ => _
    case h_3 condition found =>
      refine .ite (fun _ => .stop (by rintro ⟨⟩)) fun _ => (conditionOf_stays _).bindSpares fun test ready => ?_
      have tested : Tested scope node := by rw [Tested, found]; exact ready
      exact both tested true fun _ _ => _
    case h_4 found =>
      refine .ite (fun _ => .stop (by rintro ⟨⟩)) fun _ => ?_
      have tested : Tested scope node := by rw [Tested, found]; trivial
      exact both tested false fun _ _ => _

theorem nodeBlocks_spares (acyclic : ¬TransGen (Calls templates) target target)
    (apart : KeepsApart templates name target) (below : SparesSafe templates name target depth) :
    ∀ (node : Node) (rest : List Node) (scope : Scope), Safe templates name target ⟨around, scope, node :: rest⟩ →
      Tested scope node → Spares target scope (nodeBlocks (expand depth) around node)
  | .text _, _, _, _, _ => .pure _
  | .element tag attributes children, rest, scope, safe, tested => by
    let el : Element := ⟨tag, attributes, children⟩
    have body (after : Scope) (inner : Safe templates name target ⟨around, after, children⟩) :
        Spares target after (bodyOf (expand depth) around children) :=
      (siblings_spares acyclic apart below false children after inner).bind fun _ _ _ => .pure _
    have others (after : Scope) (inner : Safe templates name target ⟨around, after, children⟩) :
        ∀ step ∈ fallbackOf (expand depth) around children, Spares target after step := by
      intro step member
      rw [fallbackOf] at member
      split at member
      · cases member
      · cases member
        exact body after inner
    rw [nodeBlocks]
    split
    case h_1 source repeats =>
      split
      case h_1 => exact .throw (by rintro ⟨⟩)
      case h_2 item named =>
        refine (expression_stays source).bindSpares fun _ ready => ?_
        exact (body scope (safe.walks (.repeated tested repeats named ready))).bind fun _ _ _ => .pure _
    case h_2 once =>
      split
      case h_1 called calls => exact inclusion_spares acyclic apart below safe tested once calls
      case h_2 uncalled =>
        have bound : Spares target scope (bindFrom el) := fun p _ failed => by
          rw [bindFrom_apply] at failed
          cases failed
        refine bound.bind fun _ after binds => ?_
        obtain rfl : after = scope.after el := by
          obtain ⟨p, a, q, ran, rfl, rfl⟩ := binds
          rw [bindFrom_apply] at ran
          rw [← (Prod.mk.inj ran).2]
        -- An element that emits has no body of its own, and one that has a body emits nothing.
        by_cases emits : emitsValue el = true
        · refine .ite (fun wrapped => ?_) fun shown => (attributeActions_stays _).bindSpares fun _ made => ?_
          · have present : Present scope el := ⟨once, uncalled, fun shown => absurd wrapped shown⟩
            refine (emissions_spares below safe tested present others).bind fun _ _ _ => ?_
            rw [if_pos (Bool.or_eq_true_iff.mpr (.inl emits))]
            exact .pure _
          · have present : Present scope el := ⟨once, uncalled, fun _ => made⟩
            rw [if_pos emits]
            refine (Stays.pure []).bindSpares fun _ _ => ?_
            exact (emissions_spares below safe tested present others).bind fun _ _ _ => .pure _
        · have silent : emitsValue el = false := by simpa using emits
          rw [emissions_silent _ _ _ silent]
          refine .ite (fun wrapped => (Stays.pure []).bindSpares fun _ _ => .ite (fun _ => .pure _) fun unset => ?_)
            fun shown => (attributeActions_stays _).bindSpares fun _ made => ?_
          · have present : Present scope el := ⟨once, uncalled, fun shown => absurd wrapped shown⟩
            have kept := (Bool.or_eq_false_iff.mp (Bool.eq_false_iff.mpr unset)).2
            exact (body _ (safe.walks (.body tested present silent fun _ => kept))).bind fun _ _ _ => .pure _
          · have present : Present scope el := ⟨once, uncalled, fun _ => made⟩
            rw [if_neg emits]
            have inner := safe.walks (.body tested present silent fun wrapped => absurd wrapped shown)
            exact (body _ inner).bind fun _ _ _ => (Stays.pure []).bindSpares fun _ _ => .pure _
  | .comment _, _, _, _, _ | .cdata _, _, _, _, _ | .instruction _ _, _, _, _, _ => .throw (by rintro ⟨⟩)

end

end walk

/-- The templates that an element calls. -/
def callsOf (el : Element) : List String :=
  (el.attributes.filter (·.name = callName)).map Attribute.value

/-- The templates that the elements of trees call. -/
def callsIn (nodes : List Node) : List String :=
  (Node.elementsOf nodes).flatMap callsOf

theorem mem_callsOf : target ∈ callsOf el ↔ Carries el target := by
  rw [callsOf, List.mem_map]
  constructor
  · rintro ⟨a, member, rfl⟩
    obtain ⟨member, named⟩ := List.mem_filter.mp member
    rw [Carries, ← of_decide_eq_true named]
    exact member
  · exact fun carries => ⟨_, List.mem_filter.mpr ⟨carries, decide_eq_true rfl⟩, rfl⟩

theorem mem_callsIn {nodes : List Node} :
    target ∈ callsIn nodes ↔ ∃ el ∈ Node.elementsOf nodes, Carries el target := by
  simp only [callsIn, List.mem_flatMap, mem_callsOf]

/-- The templates that an element calls call nothing. -/
def CallsLeaves (templates : Fields Template) (el : Element) : Prop :=
  ∀ called ∈ callsOf el, ∀ template ∈ templates.get? called, callsIn [template.root.toNode] = []

instance (templates : Fields Template) (el : Element) : Decidable (CallsLeaves templates el) :=
  inferInstanceAs (Decidable (∀ called ∈ callsOf el, ∀ template ∈ templates.get? called,
    callsIn [template.root.toNode] = []))

/-- The element sets no name, what it calls calls nothing, and the content that it passes does not call it. -/
structure Shallow (templates : Fields Template) (el : Element) : Prop where
  unset : el.attr? setName = none
  leaves : CallsLeaves templates el
  apart : ∀ called ∈ callsOf el, called ∉ callsIn [(callSite el).toNode]

/-- The elements of the trees are shallow, and call nothing that is being expanded. -/
structure Clear (templates : Fields Template) (calls : List String) (nodes : List Node) : Prop where
  shallow : ∀ el ∈ Node.elementsOf nodes, Shallow templates el
  fresh : ∀ called ∈ callsIn nodes, called ∉ calls

/-- A place at which no names are bound. Passed content is at hand only where nothing is called. -/
structure Settled (templates : Fields Template) (place : Place) : Prop where
  registered : place.around.templates = templates
  unbound : ∀ layer ∈ place.scope.layers, layer = []
  clear : Clear templates place.around.calls place.nodes
  callers : place.around.callers = [] ∨
    ∃ caller, place.around.callers = [caller] ∧ Clear templates place.around.calls [caller] ∧ callsIn place.nodes = []

section shallow

variable {templates : Fields Template} {name : String} {around : Surroundings} {scope after : Scope} {rest : List Node}
  {place later : Place}

theorem Clear.mono {calls : List String} {nodes others : List Node} (clear : Clear templates calls nodes)
    (part : ∀ el ∈ Node.elementsOf others, el ∈ Node.elementsOf nodes) : Clear templates calls others where
  shallow el member := clear.shallow el (part el member)
  fresh called member := by
    obtain ⟨el, member, carries⟩ := mem_callsIn.mp member
    exact clear.fresh called (mem_callsIn.mpr ⟨el, part el member, carries⟩)

/-- A call by itself calls less than the call does, and not what that calls. -/
theorem Clear.siteOf {calls : List String} (clear : Clear templates calls (el.toNode :: rest)) :
    Clear templates (callsOf el ++ calls) [(callSite el).toNode] := by
  have self := clear.shallow el List.mem_cons_self
  have silent (called : String) : called ∉ callsOf (callSite el) := by
    intro member
    refine self.apart called (mem_callsOf.mpr (carries_of_callSite (mem_callsOf.mp member))) ?_
    exact mem_callsIn.mpr ⟨_, List.mem_cons_self, mem_callsOf.mp member⟩
  have children (inner : Element) (member : inner ∈ Node.elementsOf [(callSite el).toNode]) :
      inner = callSite el ∨ inner ∈ Node.elementsOf (el.toNode :: rest) := by
    rcases List.mem_cons.mp member with same | member
    · exact .inl same
    · rcases List.mem_append.mp member with member | none
      · exact .inr (mem_elementsOf_children member)
      · cases none
  constructor
  · intro inner member
    rcases children inner member with rfl | member
    · refine ⟨?_, fun called member => absurd member (silent called),
        fun called member => absurd member (silent called)⟩
      rw [attr?_callSite (by decide) (by decide)]
      exact self.unset
    · exact clear.shallow inner member
  · intro called member entered
    rcases List.mem_append.mp entered with calls | entered
    · exact self.apart called calls member
    · obtain ⟨inner, inTree, carries⟩ := mem_callsIn.mp member
      rcases children inner inTree with rfl | inTree
      · exact silent called (mem_callsOf.mpr carries)
      · exact clear.fresh called (mem_callsIn.mpr ⟨inner, inTree, carries⟩) entered

/-- Nothing in the tree of the element sets a name. -/
def Unset (el : Element) : Prop :=
  ∀ inner ∈ el.toNode.elements, inner.attr? setName = none

theorem inherited_unset : Inherited Unset :=
  fun _ unset _ below inner member => unset inner (List.mem_cons_of_mem _ (Node.mem_elementsOf.mpr ⟨_, below, member⟩))

theorem Clear.unset {calls : List String} {nodes : List Node} (clear : Clear templates calls nodes) :
    ∀ el : Element, el.toNode ∈ nodes → Unset el :=
  fun _ below inner member => (clear.shallow inner (Node.mem_elementsOf.mpr ⟨_, below, member⟩)).unset

/-- Steps that bind names only as elements without names set them bind none. -/
theorem Makes.leaves {α : Type} {step : Expand α} (makes : Makes Unset step)
    (unbound : ∀ layer ∈ scope.layers, layer = []) (leaves : Leaves step scope after) : after = scope := by
  obtain ⟨p, a, q, ran, rfl, rfl⟩ := leaves
  have captures : Captures Unset p.scope := by
    intro layer inside entry member
    rw [unbound layer inside] at member
    cases member
  obtain ⟨made, unset, reached⟩ := makes p captures
  rw [ran] at reached
  rw [show q.scope = _ from reached]
  clear reached ran captures
  induction made with
  | nil => rfl
  | cons el others ih =>
    obtain ⟨first, more⟩ := List.forall_mem_cons.mp unset
    have same : p.scope.after el = p.scope := by
      rw [Scope.after, first el List.mem_cons_self]
    rw [Scope.afterAll, List.foldl_cons, same]
    exact ih more

theorem Settled.callersUnset (settled : Settled templates place) :
    ∀ el : Element, el.toNode ∈ place.around.callers → Unset el := by
  rcases settled.callers with none | ⟨caller, one, clear, -⟩
  · rw [none]
    exact fun _ => by rintro ⟨⟩
  · rw [one]
    exact clear.unset

theorem Settled.after_eq (settled : Settled templates ⟨around, scope, el.toNode :: rest⟩) : scope.after el = scope := by
  rw [Scope.after, (settled.clear.shallow el List.mem_cons_self).unset]

/-- Whatever is emitted, no names are bound. -/
theorem Settled.emits (settled : Settled templates ⟨around, scope, el.toNode :: rest⟩) {source : String}
    (emits : Emits around el scope after source) : after = scope := by
  have children : ∀ inner : Element, inner.toNode ∈ el.children → Unset inner :=
    inherited_unset el (settled.clear.unset el List.mem_cons_self)
  cases emits with
  | escaped given => exact settled.after_eq
  | raw depth given first =>
    have others : ∀ step ∈ fallbackOf (expand depth) around el.children, Makes Unset step := by
      intro step member
      rw [fallbackOf] at member
      split at member
      · cases member
      · cases member
        exact (siblings_makes inherited_unset (expand_makes depth) settled.callersUnset false el.children children).bind
          inherited_unset fun _ => .pure _
    rw [settled.after_eq] at first
    cases value : el.attr? escName with
    | none =>
      rw [value] at first
      exact (Makes.pure []).leaves settled.unbound first
    | some source =>
      rw [value] at first
      exact (emission_makes inherited_unset (expand_makes depth) settled.callersUnset true others source).leaves
        settled.unbound first

/-- Places in the same surroundings, at nodes of the same trees. -/
theorem Settled.part (settled : Settled templates ⟨around, scope, rest⟩) {nodes : List Node}
    (part : ∀ el ∈ Node.elementsOf nodes, el ∈ Node.elementsOf rest) : Settled templates ⟨around, scope, nodes⟩ := by
  refine ⟨settled.registered, settled.unbound, settled.clear.mono part, settled.callers.imp_right ?_⟩
  rintro ⟨caller, one, clear, none⟩
  refine ⟨caller, one, clear, List.eq_nil_iff_forall_not_mem.mpr fun called member => ?_⟩
  obtain ⟨el, member, carries⟩ := mem_callsIn.mp member
  have some := mem_callsIn.mpr ⟨el, part el member, carries⟩
  rw [none] at some
  cases some

theorem Settled.walks (roots : ∀ entry ∈ templates, ∀ el ∈ entry.2.root.toNode.elements, Shallow templates el)
    (settled : Settled templates place) (walks : Walks place later) : Settled templates later := by
  cases walks with
  | @next depth around scope after node rest tested done =>
    have makes : Makes Unset (nodeBlocks (expand depth) around node) := by
      refine nodeBlocks_makes inherited_unset (expand_makes depth) settled.callersUnset node fun el same => ?_
      exact settled.clear.unset el (same ▸ List.mem_cons_self)
    obtain rfl := makes.leaves settled.unbound done
    exact settled.part fun _ => List.mem_append_right _
  | repeated tested repeats named ready => exact settled.part fun _ => mem_elementsOf_children
  | body tested present silent kept =>
    rw [settled.after_eq]
    exact settled.part fun _ => mem_elementsOf_children
  | fallback tested present emits resolved other ready =>
    obtain rfl := settled.emits emits
    exact settled.part fun _ => mem_elementsOf_children
  | site tested enters =>
    have clear := settled.clear.siteOf
    refine ⟨settled.registered, by simp [Scope.layers], ⟨clear.shallow, fun called member entered => ?_⟩, .inl rfl⟩
    exact clear.fresh called member (List.mem_append_right _ entered)
  | @call depth around scope made el rest called template tested enters alone =>
    have registered : around.templates = templates := settled.registered
    have found : templates.get? called = some template := registered ▸ enters.found
    have carries : Carries el called := carries_of_attr? enters.calls
    have carried : called ∈ callsOf el := mem_callsOf.mpr carries
    have site := settled.clear.siteOf
    -- The element is a call, so that there is no passed content where it stands.
    have alone' : around.callers = [] := by
      refine settled.callers.resolve_right ?_
      rintro ⟨caller, -, -, none⟩
      have some : called ∈ callsIn (el.toNode :: rest) := mem_callsIn.mpr ⟨el, List.mem_cons_self, carries⟩
      rw [none] at some
      cases some
    have makes : Makes Unset (expand depth { around with callers := [] } [(callSite el).toNode]) :=
      expand_makes depth Unset inherited_unset _ _ (fun _ => by rintro ⟨⟩) site.unset
    obtain rfl := makes.leaves (by simp [Scope.layers]) alone
    have leaf : callsIn [template.root.toNode] = [] :=
      (settled.clear.shallow el List.mem_cons_self).leaves called carried template found
    refine ⟨registered, ?_, ⟨?_, ?_⟩, .inr ⟨_, congrArg (_ :: ·) alone', ⟨site.shallow, ?_⟩, leaf⟩⟩
    · intro layer inside
      rcases List.mem_cons.mp inside with rfl | inside
      · rfl
      · exact settled.unbound layer inside
    · intro inner member
      obtain ⟨node, same, member⟩ := Node.mem_elementsOf.mp member
      rw [List.mem_singleton.mp same] at member
      exact roots _ (Fields.mem_of_get? found) inner member
    · intro other member
      rw [leaf] at member
      cases member
    · intro other member entered
      rcases List.mem_cons.mp entered with rfl | entered
      · exact site.fresh other member (List.mem_append_left _ carried)
      · exact site.fresh other member (List.mem_append_right _ entered)

theorem Settled.brings (settled : Settled templates place) (brings : Brings place later) :
    Settled templates later := by
  cases brings with
  | captured tested present emits resolved =>
    obtain rfl := settled.emits emits
    obtain ⟨layer, inside, entry, member, -⟩ := Scope.mem_of_resolve resolved
    rw [settled.unbound layer inside] at member
    cases member
  | passed tested present emits resolved passes =>
    obtain rfl := settled.emits emits
    obtain ⟨-, callers⟩ := callerOf_eq_some.mp passes
    rcases settled.callers with none | ⟨caller, one, clear, -⟩
    · cases callers.symm.trans none
    · cases callers.symm.trans one
      exact ⟨settled.registered, settled.unbound, clear, .inl rfl⟩

end shallow

/-! ### Compilation -/

end Template

end Stencil
