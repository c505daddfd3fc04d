import Stencil.Markup.Tree
import Stencil.Proofs.Stateful

/-!
Trees out of events. Exactly those sequences of events build a tree in which the tags are nested, with the same name
at either end, around one root that has nothing but blank text, comments, instructions and, before it, declarations
around it. A walk through the tree meets what the events inside the root say, with texts that follow each other put
together, and nothing else.
-/
namespace Stencil.Markup

open Stateful

/-! ### Walks through trees -/

/-- What is met on a walk through a tree. -/
inductive Visit where
  | enter (name : String) (attributes : List Attribute)
  | leave (name : String)
  | text (s : String)
  | comment (s : String)
  | cdata (s : String)
  | instruction (target data : String)
  deriving Repr, DecidableEq

namespace Node

mutual

/-- The walk through a tree, in document order. -/
def visits : Node → List Visit
  | element name attributes children => .enter name attributes :: visitsOf children ++ [.leave name]
  | text s => [.text s]
  | comment s => [.comment s]
  | cdata s => [.cdata s]
  | instruction target data => [.instruction target data]

/-- The walk through trees, one after the other. -/
def visitsOf : List Node → List Visit
  | [] => []
  | node :: rest => node.visits ++ visitsOf rest

end

theorem visitsOf_append (first second : List Node) :
    visitsOf (first ++ second) = visitsOf first ++ visitsOf second := by
  induction first with
  | nil => rfl
  | cons node rest ih => rw [List.cons_append, visitsOf, visitsOf, ih, List.append_assoc]

theorem visitsOf_concat (nodes : List Node) (node : Node) :
    visitsOf (nodes ++ [node]) = visitsOf nodes ++ node.visits := by
  rw [visitsOf_append, visitsOf, visitsOf, List.append_nil]

end Node

namespace Visit

/-- The visit is of a text. -/
def isText : Visit → Bool
  | text _ => true
  | _ => false

/-- A visit before others. Text joins text that follows. -/
def join : Visit → List Visit → List Visit
  | text s, text t :: rest => text (s ++ t) :: rest
  | visit, rest => visit :: rest

/-- The visits with each run of texts put together. -/
def joinTexts (visits : List Visit) : List Visit :=
  visits.foldr join []

/-- Visits with more text at the end, which joins text that stands there. -/
def addText (s : String) : List Visit → List Visit
  | [] => [text s]
  | [text t] => [text (t ++ s)]
  | visit :: rest => visit :: addText s rest

@[simp] theorem joinTexts_cons (visit : Visit) (rest : List Visit) :
    joinTexts (visit :: rest) = join visit (joinTexts rest) := rfl

theorem join_of_not_text {visit : Visit} (other : visit.isText = false) (rest : List Visit) :
    join visit rest = visit :: rest := by
  cases visit with
  | text => simp [isText] at other
  | _ => rfl

theorem join_append {visit : Visit} (other : visit.isText = false) (first : Visit) (before after : List Visit) :
    join first (before ++ visit :: after) = join first before ++ visit :: after := by
  cases before with
  | nil => cases first <;> cases visit <;> first | rfl | simp [isText] at other
  | cons next rest => cases first <;> cases next <;> rfl

/-- Texts are not put together across what is no text. -/
theorem joinTexts_append {visit : Visit} (other : visit.isText = false) (before after : List Visit) :
    joinTexts (before ++ visit :: after) = joinTexts before ++ visit :: joinTexts after := by
  induction before with
  | nil => exact join_of_not_text other _
  | cons first rest ih => rw [List.cons_append, joinTexts_cons, ih, join_append other, joinTexts_cons]

theorem join_addText (s : String) (visit : Visit) (visits : List Visit) :
    join visit (addText s visits) = addText s (join visit visits) := by
  cases visits with
  | nil => cases visit <;> rfl
  | cons first rest =>
    cases rest with
    | nil => cases visit <;> cases first <;> simp [join, addText, String.append_assoc]
    | cons second others => cases visit <;> cases first <;> simp [join, addText]

theorem joinTexts_concat_text (s : String) (visits : List Visit) :
    joinTexts (visits ++ [text s]) = addText s (joinTexts visits) := by
  induction visits with
  | nil => rfl
  | cons visit rest ih => rw [List.cons_append, joinTexts_cons, ih, join_addText, joinTexts_cons]

theorem addText_cons (s : String) (visit : Visit) {rest : List Visit} (more : rest ≠ []) :
    addText s (visit :: rest) = visit :: addText s rest := by
  obtain ⟨next, others, rfl⟩ := List.exists_cons_of_ne_nil more
  cases visit <;> rfl

theorem addText_concat_text (s t : String) (visits : List Visit) :
    addText s (visits ++ [text t]) = visits ++ [text (t ++ s)] := by
  induction visits with
  | nil => rfl
  | cons visit rest ih => rw [List.cons_append, addText_cons s visit (by simp), ih, List.cons_append]

theorem addText_concat {visit : Visit} (other : visit.isText = false) (s : String) (visits : List Visit) :
    addText s (visits ++ [visit]) = visits ++ [visit, text s] := by
  induction visits with
  | nil =>
    cases visit with
    | text => simp [isText] at other
    | _ => rfl
  | cons first rest ih => rw [List.cons_append, addText_cons s first (by simp), ih, List.cons_append]

end Visit

open Visit

/-- Text added to the children of an element is text added to their walk. -/
theorem Builder.visitsOf_appendText (s : String) (children : List Node) :
    Node.visitsOf (Builder.appendText s children) = Visit.addText s (Node.visitsOf children) := by
  rcases List.eq_nil_or_concat children with rfl | ⟨before, last, rfl⟩
  · rfl
  · unfold Builder.appendText
    rw [List.concat_eq_append, List.getLast?_concat, List.dropLast_concat]
    cases last with
    | text t => simp only [Node.visitsOf_concat, Node.visits, addText_concat_text]
    | element name attributes inner =>
      simp only [Node.visitsOf_concat, Node.visits, ← List.append_assoc]
      rw [addText_concat rfl, List.append_assoc]
      rfl
    | _ =>
      simp only [Node.visitsOf_concat, Node.visits]
      rw [addText_concat rfl, List.append_assoc]
      rfl

/-! ### Documents -/

namespace Event

/-- What an event says about the walk. A reference is kept as it is written, an empty tag opens and closes its
    element. -/
def visits : Event → List Visit
  | start tag =>
    match elementOfTag tag with
    | .ok el => [.enter el.name el.attributes]
    | .error _ => []
  | empty tag =>
    match elementOfTag tag with
    | .ok el => el.toNode.visits
    | .error _ => []
  | close name => [.leave name]
  | text s => [.text s]
  | reference name => [.text ("&" ++ name ++ ";")]
  | cdata s => [.cdata s]
  | comment s => [.comment s]
  | instruction content => (Builder.instruction content).visits
  | declaration | doctype => []

/-- The attributes of a tag can be read. -/
def Readable : Event → Prop
  | start tag | empty tag => ∃ el, elementOfTag tag = .ok el
  | _ => True

/-- The event is content of an element by itself. -/
def IsLeaf : Event → Prop
  | empty _ | text _ | reference _ | cdata _ | comment _ | instruction _ => True
  | _ => False

/-- The event may follow the root. -/
def MayFollow : Event → Prop
  | text s => Text.isBlankText s = true
  | comment _ | instruction _ => True
  | _ => False

/-- The event may precede the root. -/
def MayPrecede (event : Event) : Prop :=
  event = declaration ∨ event.MayFollow

end Event

/-- The events are the content of an element: what is opened is closed, under the same name. -/
inductive Content : List Event → Prop
  | nil : Content []
  | leaf {event : Event} {rest : List Event} (leaf : event.IsLeaf) (others : Content rest) : Content (event :: rest)
  | element {tag : Tag} {inside rest : List Event} (inner : Content inside) (others : Content rest) :
    Content (.start tag :: (inside ++ .close (tag.name) :: rest))

/-- The events are those of one element. -/
inductive IsElement : List Event → Prop
  | empty (tag : Tag) : IsElement [.empty tag]
  | element {tag : Tag} {inside : List Event} (inner : Content inside) :
    IsElement (.start tag :: (inside ++ [.close (tag.name)]))

/-- The events are one root element with something before and after it. -/
structure IsDocument (events before inside after : List Event) : Prop where
  split : events = before ++ inside ++ after
  leading : ∀ event ∈ before, event.MayPrecede
  root : IsElement inside
  trailing : ∀ event ∈ after, event.MayFollow

theorem Content.append {first second : List Event} (before : Content first) (after : Content second) :
    Content (first ++ second) := by
  induction before with
  | nil => exact after
  | leaf leaf _ ih => exact .leaf leaf ih
  | element inner _ _ ih =>
    rw [List.cons_append, List.append_assoc, List.cons_append]
    exact .element inner ih

theorem Content.single (event : Event) (leaf : event.IsLeaf) : Content [event] :=
  .leaf leaf .nil

theorem elementOfTag_eq {tag : Tag} {el : Element} (read : elementOfTag tag = .ok el) :
    el.name = tag.name ∧ el.children = [] := by
  unfold elementOfTag at read
  obtain ⟨attributes, -, made⟩ := bind_eq_ok.mp read
  obtain rfl := Except.ok.inj made
  exact ⟨rfl, rfl⟩

theorem Event.visits_start {tag : Tag} {el : Element} (read : elementOfTag tag = .ok el) :
    (Event.start tag).visits = [.enter el.name el.attributes] := by
  simp only [Event.visits, read]

theorem Event.visits_empty {tag : Tag} {el : Element} (read : elementOfTag tag = .ok el) :
    (Event.empty tag).visits = [Event.start tag, Event.close el.name].flatMap Event.visits := by
  simp only [Event.visits, read, List.flatMap_cons, List.flatMap_nil, Element.toNode, Node.visits]
  rw [(elementOfTag_eq read).2]
  rfl

/-- A reference as it is written is never blank. -/
theorem isBlankText_reference (name : String) : Text.isBlankText ("&" ++ name ++ ";") = false := by
  unfold Text.isBlankText
  rw [String.toList_append, String.toList_append]
  rfl

/-- A whole element keeps the texts on either side of it apart. -/
theorem joinTexts_element {tag : Tag} {inside : List Event} {opened el : Element}
    (read : elementOfTag tag = .ok opened) (name : el.name = opened.name)
    (attributes : el.attributes = opened.attributes)
    (walk : Node.visitsOf el.children = joinTexts (inside.flatMap Event.visits)) (visits : List Visit) :
    joinTexts (visits ++ (Event.start tag :: (inside ++ [Event.close el.name])).flatMap Event.visits) =
      joinTexts visits ++ el.toNode.visits := by
  rw [List.flatMap_cons, Event.visits_start read, List.singleton_append, joinTexts_append rfl, List.flatMap_append,
    List.flatMap_singleton, Event.visits, joinTexts_append rfl, ← walk, ← name, ← attributes]
  rfl

theorem joinTexts_empty {tag : Tag} {el : Element} (read : elementOfTag tag = .ok el) (visits : List Visit) :
    joinTexts (visits ++ [Event.empty tag].flatMap Event.visits) = joinTexts visits ++ el.toNode.visits := by
  rw [List.flatMap_singleton, Event.visits_empty read]
  have nothing : Node.visitsOf el.children = joinTexts (([] : List Event).flatMap Event.visits) := by
    rw [(elementOfTag_eq read).2]
    rfl
  exact joinTexts_element read rfl rfl nothing visits

/-! ### What is open -/

/-- The elements that are open, from the innermost on, after events of which the first opens the root. Each has
    what the events since its own tag say. -/
inductive Opened : List Event → List Element → Prop
  | nil : Opened [] []
  | start {events inside : List Event} {outer : List Element} {tag : Tag} {opened el : Element}
    (around : Opened events outer) (read : elementOfTag tag = .ok opened) (name : el.name = opened.name)
    (attributes : el.attributes = opened.attributes) (inner : Content inside)
    (walk : Node.visitsOf el.children = joinTexts (inside.flatMap Event.visits)) :
    Opened (events ++ .start tag :: inside) (el :: outer)

namespace Opened

variable {events more : List Event} {el : Element} {outer : List Element}

/-- The innermost element grows by content. -/
theorem grow (opened : Opened events (el :: outer)) (content : Content more) {children : List Node}
    (walk : ∀ {inside : List Event}, Node.visitsOf el.children = joinTexts (inside.flatMap Event.visits) →
      Node.visitsOf children = joinTexts ((inside ++ more).flatMap Event.visits)) :
    Opened (events ++ more) ({ el with children := children } :: outer) := by
  cases opened with
  | start around read name attributes inner known =>
    rw [List.append_assoc, List.cons_append]
    exact .start around read name attributes (inner.append content) (walk known)

/-- The innermost element grows by text. -/
theorem addText (opened : Opened events (el :: outer)) (event : Event) (leaf : event.IsLeaf) {s : String}
    (visits : event.visits = [.text s]) :
    Opened (events ++ [event]) ({ el with children := Builder.appendText s el.children } :: outer) := by
  refine opened.grow (.single event leaf) fun {inside} walk => ?_
  rw [Builder.visitsOf_appendText, walk, List.flatMap_append, List.flatMap_singleton, visits, joinTexts_concat_text]

/-- The innermost element grows by a child that is no text. -/
theorem addChild (opened : Opened events (el :: outer)) (content : Content more) {node : Node}
    (joins : ∀ visits, joinTexts (visits ++ more.flatMap Event.visits) = joinTexts visits ++ node.visits) :
    Opened (events ++ more) (el.addChild node :: outer) := by
  refine opened.grow content fun {inside} walk => ?_
  rw [Node.visitsOf_concat, walk, List.flatMap_append, joins]

theorem addLeaf (opened : Opened events (el :: outer)) (event : Event) (leaf : event.IsLeaf) {node : Node}
    {visit : Visit} (told : event.visits = [visit]) (meets : node.visits = [visit]) (other : visit.isText = false) :
    Opened (events ++ [event]) (el.addChild node :: outer) := by
  refine opened.addChild (.single event leaf) fun before => ?_
  rw [List.flatMap_singleton, told, meets]
  exact joinTexts_append other before []

/-- The innermost of several elements closes. -/
theorem close {parent : Element} (opened : Opened events (el :: parent :: outer)) :
    Opened (events ++ [.close el.name]) (parent.addChild el.toNode :: outer) := by
  cases opened with
  | start around read name attributes inner walk =>
    rw [List.append_assoc, List.cons_append]
    refine around.addChild ?_ (joinTexts_element read name attributes walk)
    rw [name, (elementOfTag_eq read).1]
    exact .element inner .nil

/-- The root closes. -/
theorem close_root (opened : Opened events [el]) :
    IsElement (events ++ [.close el.name]) ∧
      el.toNode.visits = joinTexts ((events ++ [Event.close el.name]).flatMap Event.visits) := by
  cases opened with
  | start around read name attributes inner walk =>
    cases around with
    | nil =>
      rw [List.nil_append, List.cons_append]
      constructor
      · rw [name, (elementOfTag_eq read).1]
        exact .element inner
      · exact (joinTexts_element read name attributes walk []).symm

end Opened

/-! ### Steps and runs -/

/-- Where the builder stands after events. -/
inductive Stands (events : List Event) : Builder → Prop
  | before {before inside : List Event} {stack : List Element} (split : events = before ++ inside)
    (leading : ∀ event ∈ before, event.MayPrecede) (opened : Opened inside stack) : Stands events ⟨stack, none⟩
  | after {before inside after : List Event} {root : Element} (document : IsDocument events before inside after)
    (walk : root.toNode.visits = joinTexts (inside.flatMap Event.visits)) : Stands events ⟨[], some root⟩

namespace Builder

theorem openTag_eq_ok {tag : Tag} {b : Builder} {el : Element} :
    b.openTag tag = .ok el ↔ elementOfTag tag = .ok el ∧ ¬(b.stack.isEmpty ∧ b.root.isSome) := by
  unfold openTag
  rw [bind_eq_ok]
  constructor
  · rintro ⟨opened, read, kept⟩
    by_cases second : b.stack.isEmpty ∧ b.root.isSome
    · rw [if_pos second] at kept
      cases kept
    · rw [if_neg second] at kept
      obtain rfl := Except.ok.inj kept
      exact ⟨read, second⟩
  · rintro ⟨read, first⟩
    exact ⟨el, read, by rw [if_neg first]; rfl⟩

theorem step_start_eq_ok {tag : Tag} {b next : Builder} :
    b.step (.start tag) = .ok next ↔
      ∃ el, b.openTag tag = .ok el ∧ { b with stack := el :: b.stack } = next := by
  simp only [step, bind_eq_ok, pure, Except.pure, Except.ok.injEq]

theorem step_empty_eq_ok {tag : Tag} {b next : Builder} :
    b.step (.empty tag) = .ok next ↔ ∃ el, b.openTag tag = .ok el ∧ b.attach el = next := by
  simp only [step, bind_eq_ok, pure, Except.pure, Except.ok.injEq]

/-- A step before the root is open. -/
theorem step_before {events : List Event} {event : Event} {b : Builder}
    (leading : ∀ event ∈ events, event.MayPrecede) (made : step ⟨[], none⟩ event = .ok b) :
    event.Readable ∧ Stands (events ++ [event]) b := by
  have outside (may : event.MayPrecede) : Stands (events ++ [event]) ⟨[], none⟩ := by
    refine .before (List.append_nil _).symm ?_ .nil
    exact List.forall_mem_append.mpr ⟨leading, List.forall_mem_singleton.mpr may⟩
  cases event with
  | start tag =>
    obtain ⟨el, opened, rfl⟩ := step_start_eq_ok.mp made
    have read := (openTag_eq_ok.mp opened).1
    refine ⟨⟨el, read⟩, .before rfl leading (.start .nil read rfl rfl .nil ?_)⟩
    rw [(elementOfTag_eq read).2]
    rfl
  | empty tag =>
    obtain ⟨el, opened, rfl⟩ := step_empty_eq_ok.mp made
    have read := (openTag_eq_ok.mp opened).1
    refine ⟨⟨el, read⟩, .after ⟨(List.append_nil _).symm, leading, .empty tag, List.forall_mem_nil _⟩ ?_⟩
    exact (joinTexts_empty read []).symm
  | text s =>
    by_cases blank : Text.isBlankText s = true
    · simp only [step, addText, if_pos blank] at made
      obtain rfl := Except.ok.inj made
      exact ⟨trivial, outside (.inr blank)⟩
    · simp only [step, addText, if_neg blank] at made
      cases made
  | reference name =>
    simp only [step, addText, isBlankText_reference] at made
    cases made
  | comment s =>
    obtain rfl := Except.ok.inj made
    exact ⟨trivial, outside (.inr trivial)⟩
  | instruction content =>
    obtain rfl := Except.ok.inj made
    exact ⟨trivial, outside (.inr trivial)⟩
  | declaration =>
    obtain rfl := Except.ok.inj made
    exact ⟨trivial, outside (.inl rfl)⟩
  | close name => cases made
  | cdata s => cases made
  | doctype => cases made

/-- A step inside the root. -/
theorem step_within {before inside : List Event} {event : Event} {el : Element} {outer : List Element} {b : Builder}
    (leading : ∀ event ∈ before, event.MayPrecede) (opened : Opened inside (el :: outer))
    (made : step ⟨el :: outer, none⟩ event = .ok b) :
    event.Readable ∧ Stands (before ++ inside ++ [event]) b := by
  have within {stack : List Element} (opened : Opened (inside ++ [event]) stack) :
      Stands (before ++ inside ++ [event]) ⟨stack, none⟩ :=
    .before (List.append_assoc ..) leading opened
  cases event with
  | start tag =>
    obtain ⟨el, first, rfl⟩ := step_start_eq_ok.mp made
    have read := (openTag_eq_ok.mp first).1
    refine ⟨⟨el, read⟩, within (.start opened read rfl rfl .nil ?_)⟩
    rw [(elementOfTag_eq read).2]
    rfl
  | empty tag =>
    obtain ⟨child, first, rfl⟩ := step_empty_eq_ok.mp made
    have read := (openTag_eq_ok.mp first).1
    exact ⟨⟨child, read⟩, within (opened.addChild (.single (.empty tag) trivial) (joinTexts_empty read))⟩
  | close name =>
    by_cases same : el.name = name
    · simp only [step, Builder.close, if_pos same] at made
      obtain rfl := Except.ok.inj made
      subst same
      refine ⟨trivial, ?_⟩
      cases outer with
      | cons parent outer => exact within opened.close
      | nil =>
        obtain ⟨whole, walk⟩ := opened.close_root
        refine .after ⟨?_, leading, whole, List.forall_mem_nil _⟩ walk
        rw [List.append_nil, List.append_assoc]
    · simp only [step, Builder.close, if_neg same] at made
      cases made
  | text s =>
    obtain rfl := Except.ok.inj made
    exact ⟨trivial, within (opened.addText (.text s) trivial rfl)⟩
  | reference name =>
    obtain rfl := Except.ok.inj made
    exact ⟨trivial, within (opened.addText (.reference name) trivial rfl)⟩
  | cdata s =>
    obtain rfl := Except.ok.inj made
    exact ⟨trivial, within (opened.addLeaf (.cdata s) trivial rfl rfl rfl)⟩
  | comment s =>
    obtain rfl := Except.ok.inj made
    exact ⟨trivial, within (opened.addLeaf (.comment s) trivial rfl rfl rfl)⟩
  | instruction content =>
    obtain rfl := Except.ok.inj made
    exact ⟨trivial, within (opened.addLeaf (.instruction content) trivial rfl rfl rfl)⟩
  | declaration => cases made
  | doctype => cases made

/-- A step after the root. -/
theorem step_after {events before inside after : List Event} {event : Event} {root : Element} {b : Builder}
    (document : IsDocument events before inside after) (made : step ⟨[], some root⟩ event = .ok b) :
    b = ⟨[], some root⟩ ∧ event.Readable ∧ IsDocument (events ++ [event]) before inside (after ++ [event]) := by
  have trailing (may : event.MayFollow) : IsDocument (events ++ [event]) before inside (after ++ [event]) := by
    obtain ⟨rfl, leading, root, following⟩ := document
    refine ⟨List.append_assoc .., leading, root, ?_⟩
    exact List.forall_mem_append.mpr ⟨following, List.forall_mem_singleton.mpr may⟩
  cases event with
  | start tag =>
    obtain ⟨el, opened, -⟩ := bind_eq_ok.mp made
    exact absurd ⟨rfl, rfl⟩ (openTag_eq_ok.mp opened).2
  | empty tag =>
    obtain ⟨el, opened, -⟩ := bind_eq_ok.mp made
    exact absurd ⟨rfl, rfl⟩ (openTag_eq_ok.mp opened).2
  | text s =>
    by_cases blank : Text.isBlankText s = true
    · simp only [step, addText, if_pos blank] at made
      exact ⟨(Except.ok.inj made).symm, trivial, trailing blank⟩
    · simp only [step, addText, if_neg blank] at made
      cases made
  | reference name =>
    simp only [step, addText, isBlankText_reference] at made
    cases made
  | comment s => exact ⟨(Except.ok.inj made).symm, trivial, trailing trivial⟩
  | instruction content => exact ⟨(Except.ok.inj made).symm, trivial, trailing trivial⟩
  | close name => cases made
  | cdata s => cases made
  | declaration => cases made
  | doctype => cases made

/-- A step keeps the builder where the events say. -/
theorem step_stands {events : List Event} {event : Event} {b next : Builder} (stands : Stands events b)
    (made : b.step event = .ok next) : event.Readable ∧ Stands (events ++ [event]) next := by
  cases stands with
  | before split leading opened =>
    subst split
    cases opened with
    | nil =>
      rw [List.append_nil]
      exact step_before leading made
    | start around read name attributes inner walk =>
      exact step_within leading (.start around read name attributes inner walk) made
  | after document walk =>
    obtain ⟨rfl, readable, longer⟩ := step_after document made
    exact ⟨readable, .after longer walk⟩

/-- A run keeps the builder where the events say. -/
theorem run_stands {events : List (Nat × Event)} {known : List Event} {b final : Builder} (stands : Stands known b)
    (made : b.run events = .ok final) :
    (∀ event ∈ events.map Prod.snd, event.Readable) ∧ Stands (known ++ events.map Prod.snd) final := by
  induction events generalizing known b with
  | nil =>
    obtain rfl := Except.ok.inj made
    rw [List.map_nil, List.append_nil]
    exact ⟨List.forall_mem_nil _, stands⟩
  | cons first rest ih =>
    obtain ⟨offset, event⟩ := first
    cases stepped : b.step event with
    | error cause =>
      rw [run, stepped] at made
      cases made
    | ok next =>
      rw [run, stepped] at made
      obtain ⟨readable, moved⟩ := step_stands stands stepped
      obtain ⟨others, ended⟩ := ih moved made
      rw [List.append_assoc] at ended
      exact ⟨List.forall_mem_cons.mpr ⟨readable, others⟩, ended⟩

/-! ### Documents are accepted -/

/-- A run without the offsets. -/
theorem run_eq_ok {events : List (Nat × Event)} {b final : Builder} :
    b.run events = .ok final ↔ (events.map Prod.snd).foldlM step b = .ok final := by
  induction events generalizing b with
  | nil => simp [run, pure, Except.pure]
  | cons first rest ih =>
    obtain ⟨offset, event⟩ := first
    rw [List.map_cons, List.foldlM_cons, bind_eq_ok, run]
    cases b.step event with
    | error cause => simp
    | ok next => simp [ih]

theorem foldlM_of_fixed {events : List Event} {b : Builder} (fixed : ∀ event ∈ events, b.step event = .ok b) :
    events.foldlM step b = .ok b := by
  induction events with
  | nil => rfl
  | cons event rest ih =>
    obtain ⟨first, others⟩ := List.forall_mem_cons.mp fixed
    rw [List.foldlM_cons, bind_eq_ok]
    exact ⟨b, first, ih others⟩

theorem step_mayFollow {event : Event} (may : event.MayFollow) (root : Option Element) :
    step ⟨[], root⟩ event = .ok ⟨[], root⟩ := by
  cases event with
  | text s => exact if_pos may
  | comment | instruction => rfl
  | _ => exact may.elim

theorem step_mayPrecede {event : Event} (may : event.MayPrecede) : step ⟨[], none⟩ event = .ok ⟨[], none⟩ := by
  obtain rfl | follows := may
  · rfl
  · exact step_mayFollow follows none

theorem step_leaf (el : Element) (outer : List Element) {event : Event} (leaf : event.IsLeaf)
    (readable : event.Readable) :
    ∃ grown, grown.name = el.name ∧ step ⟨el :: outer, none⟩ event = .ok ⟨grown :: outer, none⟩ := by
  cases event with
  | empty tag =>
    obtain ⟨child, read⟩ := readable
    exact ⟨el.addChild child.toNode, rfl, step_empty_eq_ok.mpr ⟨child, openTag_eq_ok.mpr ⟨read, by simp⟩, rfl⟩⟩
  | text s => exact ⟨{ el with children := appendText s el.children }, rfl, rfl⟩
  | reference name => exact ⟨{ el with children := appendText ("&" ++ name ++ ";") el.children }, rfl, rfl⟩
  | cdata s => exact ⟨el.addChild (.cdata s), rfl, rfl⟩
  | comment s => exact ⟨el.addChild (.comment s), rfl, rfl⟩
  | instruction content => exact ⟨el.addChild (Builder.instruction content), rfl, rfl⟩
  | _ => exact leaf.elim

theorem step_start {tag : Tag} (b : Builder) (readable : (Event.start tag).Readable) (first : b.root = none) :
    ∃ opened : Element, opened.name = tag.name ∧
      b.step (.start tag) = .ok { b with stack := opened :: b.stack } := by
  obtain ⟨opened, read⟩ := readable
  refine ⟨opened, (elementOfTag_eq read).1, ?_⟩
  exact step_start_eq_ok.mpr ⟨opened, openTag_eq_ok.mpr ⟨read, by simp [first]⟩, rfl⟩

/-- Content is read while an element is open, and leaves the same elements open. -/
theorem run_content (el : Element) (outer : List Element) {events : List Event} (content : Content events)
    (readable : ∀ event ∈ events, event.Readable) :
    ∃ grown, grown.name = el.name ∧ events.foldlM step ⟨el :: outer, none⟩ = .ok ⟨grown :: outer, none⟩ := by
  induction content generalizing el outer with
  | nil => exact ⟨el, rfl, rfl⟩
  | leaf leaf _ ih =>
    obtain ⟨first, others⟩ := List.forall_mem_cons.mp readable
    obtain ⟨next, kept, stepped⟩ := step_leaf el outer leaf first
    obtain ⟨grown, same, ran⟩ := ih next outer others
    refine ⟨grown, same.trans kept, ?_⟩
    rw [List.foldlM_cons, bind_eq_ok]
    exact ⟨_, stepped, ran⟩
  | element _ _ inner after =>
    obtain ⟨first, others⟩ := List.forall_mem_cons.mp readable
    obtain ⟨inside, rest⟩ := List.forall_mem_append.mp others
    obtain ⟨opened, named, stepped⟩ := step_start ⟨el :: outer, none⟩ first rfl
    obtain ⟨full, kept, ran⟩ := inner opened (el :: outer) inside
    obtain ⟨grown, same, ended⟩ := after (el.addChild full.toNode) outer (List.forall_mem_cons.mp rest).2
    refine ⟨grown, same, ?_⟩
    rw [List.foldlM_cons, bind_eq_ok]
    refine ⟨_, stepped, ?_⟩
    rw [List.foldlM_append, bind_eq_ok]
    refine ⟨_, ran, ?_⟩
    rw [List.foldlM_cons, bind_eq_ok]
    refine ⟨_, ?_, ended⟩
    exact if_pos (kept.trans named)

/-- The events of one element make it the root. -/
theorem run_element {events : List Event} (whole : IsElement events) (readable : ∀ event ∈ events, event.Readable) :
    ∃ root, events.foldlM step ⟨[], none⟩ = .ok ⟨[], some root⟩ := by
  cases whole with
  | empty tag =>
    obtain ⟨root, read⟩ := (List.forall_mem_cons.mp readable).1
    refine ⟨root, ?_⟩
    rw [List.foldlM_cons, bind_eq_ok]
    exact ⟨_, step_empty_eq_ok.mpr ⟨root, openTag_eq_ok.mpr ⟨read, by simp⟩, rfl⟩, rfl⟩
  | element inner =>
    obtain ⟨first, others⟩ := List.forall_mem_cons.mp readable
    obtain ⟨opened, named, stepped⟩ := step_start ⟨[], none⟩ first rfl
    obtain ⟨root, kept, ran⟩ := run_content opened [] inner (List.forall_mem_append.mp others).1
    refine ⟨root, ?_⟩
    rw [List.foldlM_cons, bind_eq_ok]
    refine ⟨_, stepped, ?_⟩
    rw [List.foldlM_append, bind_eq_ok]
    refine ⟨_, ran, ?_⟩
    rw [List.foldlM_cons, bind_eq_ok]
    exact ⟨⟨[], some root⟩, if_pos (kept.trans named), rfl⟩

/-- A document makes its root. -/
theorem run_document {events before inside after : List Event} (document : IsDocument events before inside after)
    (readable : ∀ event ∈ events, event.Readable) :
    ∃ root, events.foldlM step ⟨[], none⟩ = .ok ⟨[], some root⟩ := by
  obtain ⟨rfl, leading, whole, trailing⟩ := document
  obtain ⟨early, -⟩ := List.forall_mem_append.mp readable
  obtain ⟨root, ran⟩ := run_element whole (List.forall_mem_append.mp early).2
  refine ⟨root, ?_⟩
  rw [List.foldlM_append, List.foldlM_append, bind_eq_ok]
  refine ⟨⟨[], some root⟩, ?_, foldlM_of_fixed fun event among => step_mayFollow (trailing event among) _⟩
  rw [bind_eq_ok]
  exact ⟨⟨[], none⟩, foldlM_of_fixed fun event among => step_mayPrecede (leading event among), ran⟩

end Builder

namespace Reading

theorem root_eq_ok {events : List (Nat × Event)} {offset : Nat} {el : Element} :
    root ⟨events, .complete offset⟩ = .ok el ↔ Builder.run {} events = .ok ⟨[], some el⟩ := by
  unfold root
  rw [bind_eq_ok]
  constructor
  · rintro ⟨⟨stack, kept⟩, ran, ended⟩
    cases stack with
    | cons => cases ended
    | nil =>
      cases kept with
      | none => cases ended
      | some kept =>
        cases ended
        exact ran
  · intro ran
    exact ⟨_, ran, rfl⟩

/-- The events of a markup text make a tree exactly if their tags can be read and they are a document, and the tree
    is what they say inside the root. -/
theorem root_of_events (events : List (Nat × Event)) (offset : Nat) :
    ((∃ el, root ⟨events, .complete offset⟩ = .ok el) ↔
      (∀ event ∈ events.map Prod.snd, event.Readable) ∧
        ∃ before inside after, IsDocument (events.map Prod.snd) before inside after) ∧
    ∀ el, root ⟨events, .complete offset⟩ = .ok el →
      ∃ before inside after, IsDocument (events.map Prod.snd) before inside after ∧
        el.toNode.visits = joinTexts (inside.flatMap Event.visits) := by
  have start : Stands [] {} := .before rfl (List.forall_mem_nil _) .nil
  have document {el : Element} (made : root ⟨events, .complete offset⟩ = .ok el) :
      (∀ event ∈ events.map Prod.snd, event.Readable) ∧
        ∃ before inside after, IsDocument (events.map Prod.snd) before inside after ∧
          el.toNode.visits = joinTexts (inside.flatMap Event.visits) := by
    obtain ⟨readable, stands⟩ := Builder.run_stands start (root_eq_ok.mp made)
    cases stands with
    | after whole walk => exact ⟨readable, _, _, _, whole, walk⟩
  refine ⟨⟨?_, ?_⟩, fun el made => (document made).2⟩
  · rintro ⟨el, made⟩
    obtain ⟨readable, before, inside, after, whole, -⟩ := document made
    exact ⟨readable, before, inside, after, whole⟩
  · rintro ⟨readable, before, inside, after, whole⟩
    obtain ⟨el, ran⟩ := Builder.run_document whole readable
    exact ⟨el, root_eq_ok.mpr (Builder.run_eq_ok.mpr ran)⟩

/-- Text around a reference between two tags, with a declaration before the root and a comment after it. -/
def mixedEvents : List (Nat × Event) :=
  [(0, .declaration), (5, .text "\n"), (6, .start (scanTag ['a', ' ', 'k', '=', '"', '1', '"'])),
    (15, .text "x"), (16, .reference "amp"), (21, .text "y"), (22, .empty (scanTag ['b'])), (26, .text "z"),
    (27, .close "a"), (31, .comment "end")]

/-- The element that the events make. -/
def mixedRoot : Element :=
  ⟨"a", [⟨"k", "1"⟩], [.text "x&amp;y", .element "b" [] [], .text "z"]⟩

theorem mixedEvents_document :
    (∀ event ∈ mixedEvents.map Prod.snd, event.Readable) ∧
      ∃ before inside after, IsDocument (mixedEvents.map Prod.snd) before inside after ∧
        joinTexts (inside.flatMap Event.visits) =
          [.enter "a" [⟨"k", "1"⟩], .text "x&amp;y", .enter "b" [], .leave "b", .text "z", .leave "a"] := by
  have made : root ⟨mixedEvents, .complete 37⟩ = .ok mixedRoot := by rfl
  obtain ⟨before, inside, after, whole, walk⟩ := (root_of_events mixedEvents 37).2 mixedRoot made
  exact ⟨((root_of_events mixedEvents 37).1.mp ⟨mixedRoot, made⟩).1, before, inside, after, whole, walk.symm⟩

end Reading

end Stencil.Markup
