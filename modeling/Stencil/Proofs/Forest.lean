import Mathlib.Data.Finset.Card
import Mathlib.Logic.Relation
import Stencil.Document.Tree
import Stencil.Proofs.Fields

/-!
Documents as forests. A node and its parent know of each other, whatever nodes are created, appended and
changed: appending a node moves it, or the children in its place if it is a fragment, to the end of the
children of its new parent, and leaves the rest where it was (`WellLinked.children_append`). Where
no node is appended below itself there are no cycles, and to go through a node and everything below it
comes to an end.
-/
namespace Stencil.Document

open Relation (ReflTransGen TransGen)

variable {ℓ : Type} {doc : Document ℓ} {parent node : Nat}

/-! ### Nodes that exist -/

theorem kind?_eq_none : doc.kind? node = none ↔ doc.size ≤ node := by
  rw [kind?, Option.map_eq_none_iff, Array.getElem?_eq_none_iff, size]

theorem parent?_of_size_le (absent : doc.size ≤ node) : doc.parent? node = none := by
  rw [parent?, Array.getElem?_eq_none absent]
  rfl

theorem children_of_size_le (absent : doc.size ≤ node) : doc.children node = [] := by
  rw [children, Array.getElem?_eq_none absent]
  rfl

theorem lt_of_parent? (has : doc.parent? node = some parent) : node < doc.size := by
  by_contra absent
  rw [parent?_of_size_le (Nat.le_of_not_lt absent)] at has
  cases has

theorem lt_of_mem_children {child : Nat} (member : child ∈ doc.children node) : node < doc.size := by
  by_contra absent
  rw [children_of_size_le (Nat.le_of_not_lt absent)] at member
  cases member

/-! ### Created nodes -/

section create

variable (kind : NodeKind ℓ) (doc : Document ℓ) (node : Nat)

@[simp] theorem size_create : (doc.create kind).2.size = doc.size + 1 :=
  Array.size_push _

theorem kind?_create : (doc.create kind).2.kind? node = if node = doc.size then some kind else doc.kind? node := by
  rw [create, kind?, Array.getElem?_push, kind?, size]
  split <;> rfl

theorem parent?_create : (doc.create kind).2.parent? node = doc.parent? node := by
  rw [create, parent?, Array.getElem?_push]
  split
  case isTrue new => exact (parent?_of_size_le (Nat.le_of_eq new.symm)).symm
  case isFalse => rfl

theorem children_create : (doc.create kind).2.children node = doc.children node := by
  rw [create, children, Array.getElem?_push]
  split
  case isTrue new => exact (children_of_size_le (Nat.le_of_eq new.symm)).symm
  case isFalse => rfl

end create

/-! ### Changed nodes -/

section update

variable {change : DocumentNode ℓ → DocumentNode ℓ}

@[simp] theorem size_update (node : Nat) (change : DocumentNode ℓ → DocumentNode ℓ) (doc : Document ℓ) :
    (doc.update node change).size = doc.size :=
  Array.size_modify

theorem kind?_update (kept : ∀ n, (change n).kind = n.kind) (other : Nat) :
    (doc.update node change).kind? other = doc.kind? other := by
  rw [update, kind?, Array.getElem?_modify, kind?]
  split
  · rw [Option.map_map]
    exact congrArg (Option.map · _) (funext kept)
  · rfl

theorem parent?_update (kept : ∀ n, (change n).parent = n.parent) (other : Nat) :
    (doc.update node change).parent? other = doc.parent? other := by
  rw [update, parent?, Array.getElem?_modify, parent?]
  split
  · cases doc.nodes[other]? with
    | none => rfl
    | some n => exact kept n
  · rfl

theorem children_update (kept : ∀ n, (change n).children = n.children) (other : Nat) :
    (doc.update node change).children other = doc.children other := by
  rw [update, children, Array.getElem?_modify, children]
  split
  · cases doc.nodes[other]? with
    | none => rfl
    | some n => exact kept n
  · rfl

theorem parent?_update_parent (inside : node < doc.size) (other : Nat) :
    (doc.update node fun n => { n with parent := some parent }).parent? other =
      if node = other then some parent else doc.parent? other := by
  rw [update, parent?, Array.getElem?_modify]
  by_cases same : node = other
  · subst same
    rw [if_pos rfl, if_pos rfl, Array.getElem?_eq_getElem inside]
    rfl
  · rw [if_neg same, if_neg same]
    rfl

theorem children_update_children (f : List Nat → List Nat) (inside : node < doc.size) (other : Nat) :
    (doc.update node fun n => { n with children := f n.children }).children other =
      if node = other then f (doc.children other) else doc.children other := by
  rw [update, children, Array.getElem?_modify, children]
  by_cases same : node = other
  · subst same
    rw [if_pos rfl, if_pos rfl, Array.getElem?_eq_getElem inside]
    rfl
  · rw [if_neg same, if_neg same]

end update

/-! ### Attached nodes -/

theorem size_attach : (doc.attach parent node).size = doc.size := by
  rw [attach, size_update, size_update]

theorem kind?_attach (other : Nat) : (doc.attach parent node).kind? other = doc.kind? other := by
  simp only [attach, kind?_update, implies_true]

theorem parent?_attach (inside : node < doc.size) (other : Nat) :
    (doc.attach parent node).parent? other = if node = other then some parent else doc.parent? other := by
  simp only [attach, parent?_update, parent?_update_parent inside, implies_true]

theorem children_attach (inside : parent < doc.size) (other : Nat) :
    (doc.attach parent node).children other =
      if parent = other then doc.children other ++ [node] else doc.children other := by
  rw [attach, children_update_children (· ++ [node]) (by rwa [size_update])]
  simp only [children_update, implies_true]

/-- The document with nodes attached to a parent one after the other. -/
def attachAll (parent : Nat) (nodes : List Nat) (doc : Document ℓ) : Document ℓ :=
  nodes.foldl (fun doc child => doc.attach parent child) doc

section attachAll

variable (nodes : List Nat)

theorem size_attachAll (doc : Document ℓ) : (doc.attachAll parent nodes).size = doc.size := by
  induction nodes generalizing doc with
  | nil => rfl
  | cons child rest ih => exact (ih _).trans size_attach

theorem kind?_attachAll (other : Nat) (doc : Document ℓ) :
    (doc.attachAll parent nodes).kind? other = doc.kind? other := by
  induction nodes generalizing doc with
  | nil => rfl
  | cons child rest ih => exact (ih _).trans (kind?_attach other)

variable {nodes}

theorem parent?_attachAll (inside : ∀ child ∈ nodes, child < doc.size) (other : Nat) :
    (doc.attachAll parent nodes).parent? other = if other ∈ nodes then some parent else doc.parent? other := by
  induction nodes generalizing doc with
  | nil => rfl
  | cons child rest ih =>
    have insideRest : ∀ n ∈ rest, n < (doc.attach parent child).size := by
      intro n member
      rw [size_attach]
      exact inside n (List.mem_cons_of_mem _ member)
    rw [attachAll, List.foldl_cons, ← attachAll, ih insideRest, parent?_attach (inside child List.mem_cons_self)]
    by_cases same : child = other
    · simp [same]
    · simp [same, Ne.symm same]

theorem children_attachAll (inside : parent < doc.size) (other : Nat) :
    (doc.attachAll parent nodes).children other =
      if parent = other then doc.children other ++ nodes else doc.children other := by
  induction nodes generalizing doc with
  | nil => simp [attachAll]
  | cons child rest ih =>
    rw [attachAll, List.foldl_cons, ← attachAll, ih (by rwa [size_attach]), children_attach inside]
    by_cases same : parent = other
    · simp [same]
    · simp [same]

end attachAll

/-! ### Linked nodes -/

/-- A parent has a node among its children exactly if the node has it as its parent, and has it there once.
    Fragments stand for themselves. No attribute is there twice. -/
structure WellLinked (doc : Document ℓ) : Prop where
  linked : ∀ parent child, child ∈ doc.children parent ↔ doc.parent? child = some parent
  nodup : ∀ parent, (doc.children parent).Nodup
  fragment : ∀ node, doc.isFragment node → doc.parent? node = none ∧ ∀ parent, node ∉ doc.children parent
  attributes : ∀ node tag attributes listeners, doc.kind? node = some (.element tag attributes listeners) →
    attributes.names.Nodup

theorem wellLinked_empty : ({} : Document ℓ).WellLinked := by
  have absent (node : Nat) : ({} : Document ℓ).size ≤ node := Nat.zero_le node
  refine ⟨fun parent child => ?_, fun parent => ?_, fun node _ => ⟨?_, fun parent => ?_⟩, fun node _ _ _ found => ?_⟩
  · simp [children_of_size_le (absent parent), parent?_of_size_le (absent child)]
  · simp [children_of_size_le (absent parent)]
  · exact parent?_of_size_le (absent node)
  · simp [children_of_size_le (absent parent)]
  · rw [kind?_eq_none.mpr (absent node)] at found
    cases found

theorem isFragment_iff : doc.isFragment node ↔ doc.kind? node = some .fragment := by
  rw [isFragment]
  split <;> simp_all

theorem isFragment_update {change : DocumentNode ℓ → DocumentNode ℓ}
    (kept : ∀ n, (change n).kind = .fragment ↔ n.kind = .fragment) (other : Nat) :
    (doc.update node change).isFragment other = doc.isFragment other := by
  rw [Bool.eq_iff_iff, isFragment_iff, isFragment_iff, update, kind?, Array.getElem?_modify, kind?]
  split
  · cases doc.nodes[other]? with
    | none => rfl
    | some n => simpa using kept n
  · rfl

/-- A document with the same links, in which each node has the attributes of one kind. -/
theorem WellLinked.of_links {other : Document ℓ} (well : doc.WellLinked)
    (parents : ∀ n, other.parent? n = doc.parent? n) (children : ∀ n, other.children n = doc.children n)
    (fragments : ∀ n, n < doc.size → other.isFragment n → doc.isFragment n)
    (attributes : ∀ n tag attributes listeners, other.kind? n = some (.element tag attributes listeners) →
      attributes.names.Nodup) : other.WellLinked := by
  refine ⟨fun p c => ?_, fun p => ?_, fun n isFragment => ?_, attributes⟩
  · rw [children, parents]
    exact well.linked p c
  · rw [children]
    exact well.nodup p
  · simp only [parents, children]
    by_cases inside : n < doc.size
    · exact well.fragment n (fragments n inside isFragment)
    · have orphan := parent?_of_size_le (Nat.le_of_not_lt inside)
      refine ⟨orphan, fun p member => ?_⟩
      rw [well.linked, orphan] at member
      cases member

theorem WellLinked.create {kind : NodeKind ℓ} (well : doc.WellLinked)
    (new : ∀ tag attributes listeners, kind = .element tag attributes listeners → attributes.names.Nodup) :
    (doc.create kind).2.WellLinked := by
  refine well.of_links (parent?_create kind doc) (children_create kind doc) ?_ ?_
  · intro n inside isFragment
    rw [isFragment_iff, kind?_create, if_neg (Nat.ne_of_lt inside)] at isFragment
    exact isFragment_iff.mpr isFragment
  · intro n tag attributes listeners found
    rw [kind?_create] at found
    split at found
    · exact new tag attributes listeners (Option.some.inj found)
    · exact well.attributes n tag attributes listeners found

/-- Changing a node where it is, so that its attributes have distinct names if they had. -/
theorem WellLinked.update {change : DocumentNode ℓ → DocumentNode ℓ} (well : doc.WellLinked) (node : Nat)
    (parent : ∀ n, (change n).parent = n.parent) (children : ∀ n, (change n).children = n.children)
    (fragment : ∀ n, (change n).kind = .fragment → n.kind = .fragment)
    (distinct : ∀ n tag attributes listeners, (change n).kind = .element tag attributes listeners →
      ∃ before others, n.kind = .element tag before others ∧ (before.names.Nodup → attributes.names.Nodup)) :
    (doc.update node change).WellLinked := by
  have kinds (n : Nat) (kind : NodeKind ℓ) (found : (doc.update node change).kind? n = some kind) :
      ∃ before, doc.nodes[n]? = some before ∧ (kind = before.kind ∨ kind = (change before).kind) := by
    rw [Document.update, kind?, Array.getElem?_modify] at found
    obtain ⟨after, got, rfl⟩ := Option.map_eq_some_iff.mp found
    split at got
    · obtain ⟨before, held, rfl⟩ := Option.map_eq_some_iff.mp got
      exact ⟨before, held, .inr rfl⟩
    · exact ⟨after, got, .inl rfl⟩
  refine well.of_links (parent?_update parent) (children_update children) ?_ ?_
  · intro n _ isFragment
    obtain ⟨before, held, same⟩ := kinds n _ (isFragment_iff.mp isFragment)
    rw [isFragment_iff, kind?, held]
    rcases same with same | same
    · exact congrArg some same.symm
    · exact congrArg some (fragment before same.symm)
  · intro n tag attributes listeners found
    obtain ⟨before, held, same⟩ := kinds n _ found
    rcases same with same | same
    · refine well.attributes n tag attributes listeners ?_
      rw [kind?, held]
      exact congrArg some same.symm
    · obtain ⟨earlier, others, was, keeps⟩ := distinct before tag attributes listeners same.symm
      refine keeps (well.attributes n tag earlier others ?_)
      rw [kind?, held]
      exact congrArg some was

theorem WellLinked.setAttribute (well : doc.WellLinked) (node : Nat) (name value : String) :
    (doc.setAttribute node name value).WellLinked := by
  refine well.update node (fun n => ?_) (fun n => ?_) (fun n same => ?_) fun n tag attributes listeners same => ?_
  · split <;> rfl
  · split <;> rfl
  · split at same
    · cases same
    · exact same
  · split at same
    case h_1 before others was =>
      cases same
      exact ⟨before, listeners, was, Fields.nodup_names_set⟩
    case h_2 => exact ⟨attributes, listeners, same, id⟩

theorem WellLinked.listen (well : doc.WellLinked) (node : Nat) (event : String) (listener : ℓ) :
    (doc.listen node event listener).WellLinked := by
  refine well.update node (fun n => ?_) (fun n => ?_) (fun n same => ?_) fun n tag attributes listeners same => ?_
  · split <;> rfl
  · split <;> rfl
  · split at same
    · cases same
    · exact same
  · split at same
    case h_1 before others was =>
      cases same
      exact ⟨attributes, others, was, id⟩
    case h_2 => exact ⟨attributes, listeners, same, id⟩

/-! ### Appended nodes -/

/-- What moves when a node is appended: a fragment stays behind, and its children move. -/
def carried (doc : Document ℓ) (node : Nat) : List Nat :=
  if doc.isFragment node then doc.children node else [node]

theorem size_append : (doc.append parent node).size = doc.size := by
  rw [append]
  split
  · exact (size_attachAll _ _).trans (size_update _ _ _)
  · rw [size_attach, detach]
    split
    · exact size_update _ _ _
    · rfl

theorem kind?_append (other : Nat) : (doc.append parent node).kind? other = doc.kind? other := by
  rw [append]
  split
  · exact (kind?_attachAll _ _ _).trans (kind?_update (fun _ => by rfl) other)
  · rw [kind?_attach, detach]
    split
    · exact kind?_update (fun _ => by rfl) other
    · rfl

theorem isFragment_append (other : Nat) : (doc.append parent node).isFragment other = doc.isFragment other := by
  rw [isFragment, isFragment, kind?_append]

/-- A node without its parent. The parent itself is still what it was for the node. -/
theorem WellLinked.children_detach (well : doc.WellLinked) (node other : Nat) :
    (doc.detach node).children other = (doc.children other).filter (· != node) := by
  -- A node that is not among the children of `other` leaves nothing there to take out.
  have absent (orphan : doc.parent? node ≠ some other) :
      (doc.children other).filter (· != node) = doc.children other := by
    refine List.filter_eq_self.mpr fun child member => ?_
    have differ : child ≠ node := fun same => orphan ((well.linked other node).mp (same ▸ member))
    simpa using differ
  rw [detach]
  split
  case h_1 parent has =>
    have inside := lt_of_mem_children ((well.linked parent node).mpr has)
    rw [children_update_children (List.filter (· != node)) inside]
    by_cases same : parent = other
    · rw [if_pos same]
    · rw [if_neg same, absent (by rw [has]; simpa using same)]
  case h_2 orphan => rw [absent (by simp [orphan])]

theorem parent?_detach (node other : Nat) : (doc.detach node).parent? other = doc.parent? other := by
  rw [detach]
  split
  · exact parent?_update (fun _ => by rfl) other
  · rfl

theorem size_detach (node : Nat) : (doc.detach node).size = doc.size := by
  rw [detach]
  split
  · exact size_update _ _ _
  · rfl

/-- What is carried leaves the place where it was and comes last among the children of its new parent, in
    order; no other child moves. -/
theorem WellLinked.children_append (well : doc.WellLinked) (insideParent : parent < doc.size)
    (insideNode : node < doc.size) (other : Nat) : (doc.append parent node).children other =
      (doc.children other).filter (· ∉ doc.carried node) ++ if parent = other then doc.carried node else [] := by
  rw [Document.append, carried]
  split
  case isTrue =>
    have emptied : (doc.update node fun n => { n with children := [] }).children other =
        (doc.children other).filter (· ∉ doc.children node) := by
      rw [children_update_children (fun _ => []) insideNode]
      by_cases same : node = other
      · subst same
        rw [if_pos rfl]
        exact (List.filter_eq_nil_iff.mpr fun child member => by simp [member]).symm
      · rw [if_neg same]
        refine (List.filter_eq_self.mpr fun child member => ?_).symm
        have elsewhere : child ∉ doc.children node := by
          intro moved
          rw [well.linked] at member moved
          exact same (Option.some.inj (moved.symm.trans member))
        simpa using elsewhere
    refine (children_attachAll (by rwa [size_update]) other).trans ?_
    rw [emptied]
    split
    · rfl
    · rw [List.append_nil]
  case isFalse =>
    have single : (doc.children other).filter (· != node) = (doc.children other).filter (· ∉ [node]) :=
      List.filter_congr fun child _ => by simp [bne, beq_eq_decide]
    rw [children_attach (by rwa [size_detach]), well.children_detach, single]
    split
    · rfl
    · rw [List.append_nil]

theorem WellLinked.parent?_append (well : doc.WellLinked) (insideNode : node < doc.size) (other : Nat) :
    (doc.append parent node).parent? other =
      if other ∈ doc.carried node then some parent else doc.parent? other := by
  rw [Document.append, carried]
  split
  case isTrue =>
    refine (parent?_attachAll (fun child member => ?_) other).trans ?_
    · rw [size_update]
      exact lt_of_parent? ((well.linked node child).mp member)
    · simp only [parent?_update, implies_true]
  case isFalse =>
    rw [parent?_attach (by rwa [size_detach]), parent?_detach]
    simp [eq_comm]

theorem WellLinked.carried_nodup (well : doc.WellLinked) (node : Nat) : (doc.carried node).Nodup := by
  rw [carried]
  split
  · exact well.nodup node
  · exact List.nodup_singleton node

theorem WellLinked.not_isFragment_carried (well : doc.WellLinked) {child : Nat} (member : child ∈ doc.carried node) :
    ¬doc.isFragment child := by
  intro isFragment
  rw [carried] at member
  split at member
  case isTrue => exact (well.fragment child isFragment).2 node member
  case isFalse other => exact other (List.mem_singleton.mp member ▸ isFragment)

theorem WellLinked.append (well : doc.WellLinked) (insideParent : parent < doc.size) (insideNode : node < doc.size) :
    (doc.append parent node).WellLinked := by
  have linked : ∀ p c, c ∈ (doc.append parent node).children p ↔ (doc.append parent node).parent? c = some p := by
    intro p c
    rw [well.children_append insideParent insideNode, well.parent?_append insideNode, List.mem_append, List.mem_filter,
      well.linked]
    by_cases moved : c ∈ doc.carried node
    · by_cases same : parent = p <;> simp [moved, same]
    · by_cases same : parent = p <;> simp [moved, same]
  have orphans : ∀ n, (doc.append parent node).isFragment n → (doc.append parent node).parent? n = none := by
    intro n isFragment
    rw [isFragment_append] at isFragment
    rw [well.parent?_append insideNode, if_neg fun moved => well.not_isFragment_carried moved isFragment]
    exact (well.fragment n isFragment).1
  refine ⟨linked, fun p => ?_, fun n isFragment => ⟨orphans n isFragment, fun p member => ?_⟩, ?_⟩
  · rw [well.children_append insideParent insideNode, List.nodup_append]
    refine ⟨(well.nodup p).filter _, ?_, fun c kept c' moved same => ?_⟩
    · split
      · exact well.carried_nodup node
      · exact List.nodup_nil
    · subst same
      have stays : c ∉ doc.carried node := by simpa using (List.mem_filter.mp kept).2
      split at moved
      · exact stays moved
      · cases moved
  · rw [linked, orphans n isFragment] at member
    cases member
  · intro n tag attributes listeners found
    rw [kind?_append] at found
    exact well.attributes n tag attributes listeners found

/-! ### Cycles -/

/-- The second node is a child of the first. -/
def Child (doc : Document ℓ) (parent child : Nat) : Prop :=
  child ∈ doc.children parent

/-- No node is below itself. -/
def Acyclic (doc : Document ℓ) : Prop :=
  ∀ node, ¬TransGen doc.Child node node

/-- A node is outside of what another carries and of everything below that. -/
def Outside (doc : Document ℓ) (node carrier : Nat) : Prop :=
  ∀ top ∈ doc.carried carrier, ¬ReflTransGen doc.Child top node

/-- A node is outside of what another carries if that is among nodes that hold all their children and do not hold
    it. -/
theorem outside_of_closed {carrier : Nat} (nodes : List Nat) (carries : ∀ top ∈ doc.carried carrier, top ∈ nodes)
    (closed : ∀ n ∈ nodes, ∀ c ∈ doc.children n, c ∈ nodes) (outside : node ∉ nodes) : doc.Outside node carrier := by
  intro top member covers
  have inside {n : Nat} (covers : ReflTransGen doc.Child top n) : n ∈ nodes := by
    induction covers with
    | refl => exact carries top member
    | tail _ child ih => exact closed _ ih _ child
  exact outside (inside covers)

theorem Acyclic.of_children {other : Document ℓ} (acyclic : doc.Acyclic)
    (same : ∀ n, other.children n = doc.children n) : other.Acyclic := by
  have child : other.Child = doc.Child := by
    funext p c
    rw [Child, Child, same]
  rwa [Acyclic, child]

section append

variable (well : doc.WellLinked) (insideParent : parent < doc.size) (insideNode : node < doc.size)
include well insideParent insideNode

/-- A child after nodes were appended is one of them under its new parent, or was a child before. -/
theorem WellLinked.child_append {p c : Nat} (child : (doc.append parent node).Child p c) :
    (p = parent ∧ c ∈ doc.carried node) ∨ doc.Child p c := by
  rw [Child, well.children_append insideParent insideNode, List.mem_append] at child
  rcases child with kept | moved
  · exact .inr (List.mem_filter.mp kept).1
  · split at moved
    case isTrue same => exact .inl ⟨same.symm, moved⟩
    case isFalse => cases moved

/-- A way down to the new parent was there before: one that goes through a node that has moved would have
    led from that node to the parent. -/
theorem WellLinked.covers_append (outside : doc.Outside parent node) {n : Nat}
    (covers : ReflTransGen (doc.append parent node).Child n parent) : ReflTransGen doc.Child n parent := by
  induction covers using ReflTransGen.head_induction_on with
  | refl => exact .refl
  | head child _ ih =>
    rcases well.child_append insideParent insideNode child with ⟨-, moved⟩ | before
    · exact absurd ih (outside _ moved)
    · exact .head before ih

theorem WellLinked.acyclic_append (acyclic : doc.Acyclic) (outside : doc.Outside parent node) :
    (doc.append parent node).Acyclic := by
  -- A way down that was not there before leads to the new parent and goes on from a node that has moved.
  have ways {n m : Nat} (way : TransGen (doc.append parent node).Child n m) : TransGen doc.Child n m ∨
      ReflTransGen (doc.append parent node).Child n parent ∧
        ∃ top ∈ doc.carried node, ReflTransGen (doc.append parent node).Child top m := by
    induction way with
    | single child =>
      rcases well.child_append insideParent insideNode child with ⟨rfl, moved⟩ | before
      · exact .inr ⟨.refl, _, moved, .refl⟩
      · exact .inl (.single before)
    | tail way child ih =>
      rcases ih with before | ⟨up, top, moved, down⟩
      · rcases well.child_append insideParent insideNode child with ⟨rfl, moved⟩ | last
        · exact .inr ⟨way.to_reflTransGen, _, moved, .refl⟩
        · exact .inl (before.tail last)
      · exact .inr ⟨up, top, moved, down.tail child⟩
  intro n cycle
  rcases ways cycle with before | ⟨up, top, moved, down⟩
  · exact acyclic n before
  · exact outside top moved (well.covers_append insideParent insideNode outside (down.trans up))

end append

/-! ### Going through a tree -/

/-- To go through a node and everything below it comes to an end, and gives the tree and the descendants that
    the nodes themselves describe. -/
structure Traversable (doc : Document ℓ) : Prop where
  wellFounded : WellFounded fun child parent => doc.Child parent child
  tree : ∀ node kind, doc.kind? node = some kind → doc.tree node = kind.toTree ((doc.children node).map doc.tree)
  descendants : ∀ node, doc.descendantsWithin doc.size node =
    (doc.children node).flatMap fun child => child :: doc.descendantsWithin doc.size child

section rank

variable {rank : Nat → Nat} (absent : ∀ n, rank n = 0 → doc.size ≤ n)
  (falls : ∀ n, ∀ c ∈ doc.children n, rank c < rank n)
include absent falls

/-- A depth of at least the rank of a node makes no difference to its tree. -/
theorem treeWithin_of_rank_le (depth : Nat) :
    ∀ n, rank n ≤ depth → doc.treeWithin depth n = doc.treeWithin (rank n) n := by
  induction depth using Nat.strongRecOn with
  | ind depth ih =>
    intro n low
    cases depth with
    | zero => rw [Nat.le_zero.mp low]
    | succ depth =>
      cases ranked : rank n with
      | zero => simp only [treeWithin, kind?_eq_none.mpr (absent n ranked)]
      | succ below =>
        have same : (doc.children n).map (doc.treeWithin depth) = (doc.children n).map (doc.treeWithin below) := by
          refine List.map_congr_left fun c member => ?_
          have lower := falls n c member
          rw [ih depth (Nat.lt_succ_self depth) c (by omega), ih below (by omega) c (by omega)]
        rw [treeWithin, treeWithin, same]

theorem descendantsWithin_of_rank_le (depth : Nat) :
    ∀ n, rank n ≤ depth → doc.descendantsWithin depth n = doc.descendantsWithin (rank n) n := by
  induction depth using Nat.strongRecOn with
  | ind depth ih =>
    intro n low
    cases depth with
    | zero => rw [Nat.le_zero.mp low]
    | succ depth =>
      cases ranked : rank n with
      | zero => simp only [descendantsWithin, children_of_size_le (absent n ranked), List.flatMap_nil]
      | succ below =>
        rw [descendantsWithin, descendantsWithin]
        refine List.flatMap_congr fun c member => ?_
        have lower := falls n c member
        rw [ih depth (Nat.lt_succ_self depth) c (by omega), ih below (by omega) c (by omega)]

theorem traversable_of_rank (low : ∀ n, rank n ≤ doc.size) : doc.Traversable := by
  have trees (n : Nat) : doc.treeWithin (doc.size + 1) n = doc.tree n := by
    rw [tree, treeWithin_of_rank_le absent falls _ n (Nat.le_succ_of_le (low n)),
      treeWithin_of_rank_le absent falls _ n (low n)]
  have below (n : Nat) : doc.descendantsWithin (doc.size + 1) n = doc.descendantsWithin doc.size n := by
    rw [descendantsWithin_of_rank_le absent falls _ n (Nat.le_succ_of_le (low n)),
      descendantsWithin_of_rank_le absent falls _ n (low n)]
  refine ⟨Subrelation.wf (fun member => falls _ _ member) (measure rank).wf, fun n kind found => ?_, fun n => ?_⟩
  · rw [← trees, treeWithin, found]
    rfl
  · rw [← below, descendantsWithin]

end rank

section population

open Classical

/-- The number of nodes that are a node or below it. -/
noncomputable def population (doc : Document ℓ) (node : Nat) : Nat :=
  ((Finset.range doc.size).filter (ReflTransGen doc.Child node)).card

theorem population_le (doc : Document ℓ) (node : Nat) : doc.population node ≤ doc.size :=
  (Finset.card_filter_le _ _).trans_eq (Finset.card_range doc.size)

theorem size_le_of_population (none : doc.population node = 0) : doc.size ≤ node := by
  by_contra inside
  have self : node ∈ (Finset.range doc.size).filter (ReflTransGen doc.Child node) :=
    Finset.mem_filter.mpr ⟨Finset.mem_range.mpr (Nat.lt_of_not_le inside), .refl⟩
  rw [Finset.card_eq_zero.mp none] at self
  cases self

theorem Acyclic.population_lt (acyclic : doc.Acyclic) {child : Nat} (member : child ∈ doc.children node) :
    doc.population child < doc.population node := by
  apply Finset.card_lt_card
  refine Finset.ssubset_iff_of_subset (fun n below => ?_) |>.mpr ⟨node, ?_, fun below => ?_⟩
  · obtain ⟨inside, covers⟩ := Finset.mem_filter.mp below
    exact Finset.mem_filter.mpr ⟨inside, covers.head member⟩
  · exact Finset.mem_filter.mpr ⟨Finset.mem_range.mpr (lt_of_mem_children member), .refl⟩
  · exact acyclic node (.head' member (Finset.mem_filter.mp below).2)

end population

theorem Acyclic.traversable (acyclic : doc.Acyclic) : doc.Traversable :=
  traversable_of_rank (fun _ => size_le_of_population) (fun _ _ => acyclic.population_lt) (population_le doc)

/-! ### Edits -/

/-- A call that changes a document. -/
inductive Edit (ℓ : Type) where
  | fragment
  | element (tag : String)
  | text (s : String)
  | append (parent node : Nat)
  | setAttribute (node : Nat) (name value : String)
  | listen (node : Nat) (event : String) (listener : ℓ)

namespace Edit

/-- The document after an edit. -/
def apply (doc : Document ℓ) : Edit ℓ → Document ℓ
  | .fragment => (doc.create .fragment).2
  | .element tag => (doc.create (.element tag [] [])).2
  | .text s => (doc.create (.text s)).2
  | .append parent node => doc.append parent node
  | .setAttribute node name value => doc.setAttribute node name value
  | .listen node event listener => doc.listen node event listener

/-- The nodes of an edit exist. -/
def Existing (doc : Document ℓ) : Edit ℓ → Prop
  | .append parent node => parent < doc.size ∧ node < doc.size
  | .setAttribute node _ _ | .listen node _ _ => node < doc.size
  | _ => True

/-- An edit appends nothing below itself. -/
def Upward (doc : Document ℓ) : Edit ℓ → Prop
  | .append parent node => doc.Outside parent node
  | _ => True

end Edit

instance Edit.decidableExisting (doc : Document ℓ) : DecidablePred (Edit.Existing doc)
  | .fragment | .element _ | .text _ => .isTrue trivial
  | .append parent node => inferInstanceAs (Decidable (parent < doc.size ∧ node < doc.size))
  | .setAttribute node _ _ | .listen node _ _ => inferInstanceAs (Decidable (node < doc.size))

/-- Each of the edits has a property in the document that it is made in. -/
def Along (property : Document ℓ → Edit ℓ → Prop) : Document ℓ → List (Edit ℓ) → Prop
  | _, [] => True
  | doc, edit :: rest => property doc edit ∧ Along property (edit.apply doc) rest

instance Along.decidable (property : Document ℓ → Edit ℓ → Prop) [∀ doc, DecidablePred (property doc)] :
    ∀ doc edits, Decidable (Along property doc edits)
  | _, [] => .isTrue trivial
  | doc, edit :: rest =>
    have := Along.decidable property (edit.apply doc) rest
    inferInstanceAs (Decidable (property doc edit ∧ Along property (edit.apply doc) rest))

/-- The document after edits, in order. -/
def edited (doc : Document ℓ) (edits : List (Edit ℓ)) : Document ℓ :=
  edits.foldl Edit.apply doc

theorem WellLinked.apply {edit : Edit ℓ} (well : doc.WellLinked) (existing : edit.Existing doc) :
    (edit.apply doc).WellLinked := by
  cases edit with
  | fragment => exact well.create (by rintro _ _ _ ⟨⟩)
  | element tag => exact well.create (by rintro _ _ _ ⟨⟩; exact List.nodup_nil)
  | text s => exact well.create (by rintro _ _ _ ⟨⟩)
  | append parent node => exact well.append existing.1 existing.2
  | setAttribute node name value => exact well.setAttribute node name value
  | listen node event listener => exact well.listen node event listener

theorem WellLinked.acyclic_apply {edit : Edit ℓ} (well : doc.WellLinked) (existing : edit.Existing doc)
    (acyclic : doc.Acyclic) (upward : edit.Upward doc) : (edit.apply doc).Acyclic := by
  cases edit with
  | append parent node => exact well.acyclic_append existing.1 existing.2 acyclic upward
  | setAttribute node name value => exact acyclic.of_children (children_update fun n => by split <;> rfl)
  | listen node event listener => exact acyclic.of_children (children_update fun n => by split <;> rfl)
  | _ => exact acyclic.of_children (children_create _ doc)

theorem WellLinked.edited {edits : List (Edit ℓ)} (well : doc.WellLinked) (existing : Along Edit.Existing doc edits) :
    (doc.edited edits).WellLinked := by
  induction edits generalizing doc with
  | nil => exact well
  | cons edit rest ih => exact ih (well.apply existing.1) existing.2

theorem WellLinked.acyclic_edited {edits : List (Edit ℓ)} (well : doc.WellLinked)
    (existing : Along Edit.Existing doc edits) (acyclic : doc.Acyclic) (upward : Along Edit.Upward doc edits) :
    (doc.edited edits).Acyclic := by
  induction edits generalizing doc with
  | nil => exact acyclic
  | cons edit rest ih =>
    exact ih (well.apply existing.1) existing.2 (well.acyclic_apply existing.1 acyclic upward.1) upward.2

/-- What appending a node does to the places of nodes: what it carries goes to the end of the children of the new
    parent, in order, every other child stays, and no node that had a parent is left without one. -/
structure Moves (parent node : Nat) (before after : Document ℓ) : Prop where
  children : ∀ n, after.children n =
    (before.children n).filter (· ∉ before.carried node) ++ if parent = n then before.carried node else []
  parents : ∀ n, after.parent? n = if n ∈ before.carried node then some parent else before.parent? n
  attached : ∀ n, (before.parent? n).isSome → (after.parent? n).isSome
  kinds : ∀ n, after.kind? n = before.kind? n

theorem WellLinked.moves (well : doc.WellLinked) (insideParent : parent < doc.size) (insideNode : node < doc.size) :
    Moves parent node doc (doc.append parent node) := by
  refine ⟨well.children_append insideParent insideNode, well.parent?_append insideNode, fun n has => ?_, kind?_append⟩
  rw [well.parent?_append insideNode]
  split
  · rfl
  · exact has

theorem acyclic_empty : ({} : Document ℓ).Acyclic := by
  intro node cycle
  obtain ⟨child, member, -⟩ := TransGen.head'_iff.mp cycle
  rw [Child, children_of_size_le (Nat.zero_le node)] at member
  cases member

/-- A document is a forest whatever calls it was made by: its links agree and are there once, and appending a
    node moves what it carries and nothing else. Where no node was appended below itself there is no cycle, and
    to go through the tree of any node comes to an end. -/
theorem edited_wellLinked (edits : List (Edit ℓ)) (existing : Along Edit.Existing {} edits) :
    (edited {} edits).WellLinked ∧
      (∀ parent node, parent < (edited {} edits).size → node < (edited {} edits).size →
        Moves parent node (edited {} edits) ((edited {} edits).append parent node)) ∧
      (Along Edit.Upward {} edits → (edited {} edits).Acyclic ∧ (edited {} edits).Traversable) := by
  have well := wellLinked_empty.edited existing
  refine ⟨well, fun parent node => well.moves, fun upward => ?_⟩
  have acyclic := wellLinked_empty.acyclic_edited existing acyclic_empty upward
  exact ⟨acyclic, acyclic.traversable⟩

/-- A paragraph and a text that are put into a fragment, go from there into a section, and move within it. -/
def rearranged : List (Edit Nat) :=
  [.element "div", .fragment, .text "x", .element "p", .append 1 2, .append 1 3, .append 1 1, .append 0 1, .append 3 2,
   .setAttribute 3 "class" "a", .setAttribute 3 "class" "b", .listen 0 "click" 7, .element "section", .append 4 0]

theorem rearranged_wellLinked :
    (Along Edit.Existing {} rearranged ∧ Along Edit.Upward {} rearranged) ∧
      (edited {} rearranged).WellLinked ∧
      Moves 2 4 (edited {} rearranged) ((edited {} rearranged).append 2 4) ∧
      (edited {} rearranged).Acyclic ∧ (edited {} rearranged).Traversable := by
  have existing : Along Edit.Existing {} rearranged := by decide +kernel
  have upward : Along Edit.Upward {} rearranged := by
    refine ⟨trivial, trivial, trivial, trivial, ?_, ?_, ?_, ?_, ?_, trivial, trivial, trivial, trivial, ?_, trivial⟩
    · exact outside_of_closed [2] (by decide +kernel) (by decide +kernel) (by decide)
    · exact outside_of_closed [3] (by decide +kernel) (by decide +kernel) (by decide)
    · exact outside_of_closed [2, 3] (by decide +kernel) (by decide +kernel) (by decide)
    · exact outside_of_closed [2, 3] (by decide +kernel) (by decide +kernel) (by decide)
    · exact outside_of_closed [2] (by decide +kernel) (by decide +kernel) (by decide)
    · exact outside_of_closed [0, 2, 3] (by decide +kernel) (by decide +kernel) (by decide)
  obtain ⟨well, moves, forest⟩ := edited_wellLinked rearranged existing
  exact ⟨⟨existing, upward⟩, well, moves 2 4 (by decide +kernel) (by decide +kernel), forest upward⟩

end Stencil.Document
