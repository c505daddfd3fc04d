import Stencil.Proofs.Inlining
import Stencil.Proofs.Legality
import Stencil.Proofs.Separation
import Stencil.Proofs.Written

/-!
Static templates are rendered as they are. No directive applies to a static element, so that it is expanded to
itself; the program for it has no jumps and ends; and what it builds is written as markup that is read as the same
tree again.
-/
namespace Stencil

open Markup (Attribute Element Node StaticRow StaticTag)
open Stateful

/-! ### Expansion -/

namespace Template

mutual

/-- The block of a static node. -/
def verbatim : Node → Block
  | .element name attributes children =>
    .element name (attributes.map fun a => .set a.name a.value) (verbatims children)
  | .text s => .text s
  | _ => .text ""

/-- The blocks of static nodes. -/
def verbatims : List Node → List Block
  | [] => []
  | node :: rest => verbatim node :: verbatims rest

end

theorem suffix?_eq_none {name : String} (static : "t-".toList.isPrefixOf name.toList = false) {mark : String}
    (directive : "t-".toList <+: mark.toList) : suffix? mark name = none := by
  rw [suffix?, Text.after?, if_neg]
  · rfl
  · intro found
    have longer := directive.trans (List.isPrefixOf_iff_prefix.mp found)
    rw [List.isPrefixOf_iff_prefix.mpr longer] at static
    cases static

theorem kind_of_static {a : Attribute} (static : a.isStatic = true) : AttributeKind.of a = .static a.name a.value := by
  have plain := (Markup.Attribute.isStatic_iff.mp static).1.2
  have spread : a.name ≠ spreadName := by
    intro same
    rw [same] at plain
    revert plain
    decide
  have none (mark : String) (directive : "t-".toList <+: mark.toList) := suffix?_eq_none plain directive
  rw [AttributeKind.of, if_neg spread, none "t-attf-" ⟨_, rfl⟩, none "t-att-" ⟨_, rfl⟩, none "t-on-" ⟨_, rfl⟩,
    none "t-" ⟨[], rfl⟩]
  rfl

theorem attributeActions_static {attributes : List Attribute} (static : ∀ a ∈ attributes, a.isStatic = true) :
    attributeActions attributes = pure (attributes.map fun a => .set a.name a.value) := by
  induction attributes with
  | nil => rfl
  | cons a rest ih =>
    obtain ⟨first, others⟩ := List.forall_mem_cons.mp static
    rw [attributeActions, attributeAction, kind_of_static first, ih others]
    rfl

/-- No directive stands on a static element. -/
theorem hasAttr_directive {el : Element} (tag : StaticTag el) {name : String}
    (directive : "t-".toList.isPrefixOf name.toList = true) : el.hasAttr name = false := by
  rw [Bool.eq_false_iff]
  intro has
  obtain ⟨a, among, same⟩ := List.any_eq_true.mp has
  have plain := (Markup.Attribute.isStatic_iff.mp (tag.attributes a among)).1.2
  rw [of_decide_eq_true same, directive] at plain
  cases plain

theorem lacks_directive {el : Element} (tag : StaticTag el) {name : String}
    (directive : "t-".toList.isPrefixOf name.toList = true) : ¬el.hasAttr name :=
  Bool.eq_false_iff.mp (hasAttr_directive tag directive)

theorem attr?_directive {el : Element} (tag : StaticTag el) {name : String}
    (directive : "t-".toList.isPrefixOf name.toList = true) : el.attr? name = none :=
  attr?_eq_none (lacks_directive tag directive)

theorem ofNode?_static {el : Element} (tag : StaticTag el) : Branch.ofNode? el.toNode = none := by
  show (if el.hasAttr foreachName then none else Branch.of? el) = none
  rw [hasAttr_directive tag (by decide), Branch.of?, attr?_directive tag (by decide), attr?_directive tag (by decide),
    hasAttr_directive tag (by decide)]
  rfl

theorem emitted?_static {el : Element} (tag : StaticTag el) : emitted? el = none := by
  rw [emitted?, attr?_directive tag (by decide), attr?_directive tag (by decide)]
  rfl

theorem nodeBlocks_static {descend : Descend} {around : Surroundings} {el : Element} (tag : StaticTag el)
    (inside : siblings descend around false el.children = pure ⟨.otherwise [], verbatims el.children⟩) :
    nodeBlocks descend around el.toNode = pure [verbatim el.toNode] := by
  have plain : Plain el := ⟨lacks_directive tag (by decide), fun both => lacks_directive tag (by decide) both.1⟩
  rw [nodeBlocks_eq (lacks_directive tag (by decide)) (lacks_directive tag (by decide)) plain, elementAround,
    if_neg tag.visible, attributeActions_static tag.attributes, insideOf_none (emitted?_static tag), bodyOf, inside]
  rfl

/-- Static nodes are expanded to themselves, wherever they stand. -/
theorem siblings_static (descend : Descend) (around : Surroundings) (opened : Bool) {nodes : List Node}
    (static : StaticRow nodes) :
    siblings descend around opened nodes = pure ⟨.otherwise [], verbatims nodes⟩ := by
  induction static generalizing opened with
  | nil => rw [siblings, verbatims]
  | element tag _ _ inner others =>
    rw [siblings, ofNode?_static tag]
    dsimp only
    rw [others false]
    refine (congrArg (· >>= _) (nodeBlocks_static tag (inner false))).trans ?_
    rfl
  | text _ _ _ _ others =>
    rw [siblings, ofNode?_of_leaf rfl]
    dsimp only
    rw [others false]
    rfl

/-! ### Validation -/

theorem checkElement_static {el : Element} (tag : StaticTag el) :
    checkElement el = .ok () ∧ continuesChain el = false := by
  constructor
  · rw [checkElement, branchCount_eq, hasAttr_directive tag (by decide), hasAttr_directive tag (by decide),
      hasAttr_directive tag (by decide), hasAttr_directive tag (by decide)]
    rfl
  · rw [continuesChain, hasAttr_directive tag (by decide), hasAttr_directive tag (by decide)]
    rfl

theorem validateFrom_static (open? : Option Bool) (between : List Node) {nodes : List Node}
    (static : StaticRow nodes) : validateFrom open? between nodes = .ok (between ++ nodes) := by
  induction static generalizing open? between with
  | nil => rw [validateFrom, List.append_nil]
  | @element el rest tag _ _ inner others =>
    obtain ⟨checked, starts⟩ := checkElement_static tag
    have kept : keptBefore open? between el = .ok between := by
      rw [keptBefore, starts]
      rfl
    exact validateFrom_element.mpr ⟨checked, between, el.children, rest, kept, inner none [], others _ [], rfl⟩
  | text _ _ _ _ others =>
    rw [validateFrom_leaf rfl, others, List.append_assoc]
    rfl

theorem validate_static {root : Element} (static : root.toNode.isStatic = true) : validate root = .ok root := by
  obtain ⟨tag, inner⟩ := Markup.StaticRow.of_isStatic static
  obtain ⟨checked, starts⟩ := checkElement_static tag
  exact validate_eq_ok.mpr ⟨checked, by simp [starts], root.children, validateFrom_static none [] inner, rfl⟩

end Template

/-! ### Programs without jumps -/

/-- An instruction that only builds, and which is followed by the next one. -/
def Instr.builds : Instr → Bool
  | .fragment _ | .element _ _ | .text _ _ | .set _ _ _ | .append _ _ | .done _ => true
  | _ => false

namespace Program

open Template (verbatim verbatims)

theorem layActions_builds (node next depth : Nat) (attributes : List Attribute) :
    ∀ line ∈ (layActions node next depth (attributes.map fun a => .set a.name a.value)).lines,
      line.instr.builds = true := by
  induction attributes with
  | nil => exact List.forall_mem_nil _
  | cons a rest ih => exact List.forall_mem_cons.mpr ⟨rfl, ih⟩

theorem layBlocks_builds : ∀ (nodes : List Node) (parent next depth address : Nat),
    ∀ line ∈ (layBlocks parent next depth address (verbatims nodes)).lines, line.instr.builds = true
  | [], _, _, _, _ => List.forall_mem_nil _
  | .element name attributes children :: rest, parent, next, depth, address => by
    refine List.forall_mem_append.mpr ⟨?_, layBlocks_builds rest _ _ _ _⟩
    refine List.forall_mem_append.mpr ⟨List.forall_mem_cons.mpr ⟨rfl, layActions_builds _ _ _ attributes⟩, ?_⟩
    exact List.forall_mem_cons.mpr ⟨rfl, layBlocks_builds children _ _ _ _⟩
  | .text s :: rest, parent, next, depth, address
  | .comment s :: rest, parent, next, depth, address
  | .cdata s :: rest, parent, next, depth, address => by
    refine List.forall_mem_cons.mpr ⟨rfl, List.forall_mem_cons.mpr ⟨rfl, layBlocks_builds rest _ _ _ _⟩⟩
  | .instruction target data :: rest, parent, next, depth, address => by
    refine List.forall_mem_cons.mpr ⟨rfl, List.forall_mem_cons.mpr ⟨rfl, layBlocks_builds rest _ _ _ _⟩⟩

theorem ofBlocks_builds (nodes : List Node) {address : Nat} {instr : Instr}
    (found : (ofBlocks (verbatims nodes)).instr? address = some instr) : instr.builds = true := by
  obtain ⟨line, held, rfl⟩ := line_of_instr? (verbatims nodes) found
  have all : ∀ line ∈ allLines (verbatims nodes), line.instr.builds = true := by
    refine List.forall_mem_append.mpr ⟨List.forall_mem_singleton.mpr rfl, ?_⟩
    exact List.forall_mem_append.mpr ⟨layBlocks_builds nodes _ _ _ _, List.forall_mem_singleton.mpr rfl⟩
  exact all line (List.mem_of_getElem? held)

end Program

namespace Machine

/-- A step that is never stopped, and whose results are of some kind. -/
def Settles {α : Type} (step : Run α) (good : α → Prop) : Prop :=
  ∀ m, (∀ a, (step m).1 = .ok a → good a) ∧ (step m).1 ≠ .error .unfinished

namespace Settles

variable {α β : Type} {good : α → Prop}

theorem bind {step : Run α} {next : α → Run β} {good' : β → Prop} (first : Settles step good)
    (second : ∀ a, good a → Settles (next a) good') : Settles (step >>= next) good' := by
  intro m
  have known := first m
  rcases ran : step m with ⟨result, after⟩
  rw [ran] at known
  cases result with
  | error e =>
    rw [bind_error ran]
    refine ⟨?_, fun same => known.2 (congrArg _ (Except.error.inj same))⟩
    rintro b ⟨⟩
  | ok a =>
    rw [bind_ok ran]
    exact second a (known.1 a rfl) after

theorem of_ok {step : Run α} (succeeds : ∀ m, ∃ a, (step m).1 = .ok a ∧ good a) : Settles step good := by
  intro m
  obtain ⟨a, done, holds⟩ := succeeds m
  rw [done]
  refine ⟨?_, by rintro ⟨⟩⟩
  rintro b ⟨⟩
  exact holds

theorem throw {e : RenderError} (other : e ≠ .unfinished) : Settles (throw e : Run α) good :=
  fun _ => ⟨by rintro a ⟨⟩, fun same => other (Except.error.inj same)⟩

theorem get : Settles (get : Run Machine) fun _ => True :=
  of_ok fun m => ⟨m, rfl, trivial⟩

end Settles

theorem write_settles (slot : Nat) (content : Register) : Settles (write slot content) fun _ => True := by
  refine Settles.get.bind fun m _ => ?_
  split
  · exact .of_ok fun _ => ⟨(), rfl, trivial⟩
  · exact .throw (by rintro ⟨⟩)

theorem node_settles (slot : Nat) : Settles (node slot) fun _ => True := by
  refine Settles.get.bind fun m _ => ?_
  split
  · exact .of_ok fun _ => ⟨_, rfl, trivial⟩
  · exact .throw (by rintro ⟨⟩)

theorem create_settles (slot : Nat) (kind : NodeKind Nat) : Settles (create slot kind) fun _ => True := by
  have set (m : Machine) : Settles (set m : Run PUnit) fun _ => True := .of_ok fun _ => ⟨⟨⟩, rfl, trivial⟩
  exact Settles.get.bind fun m _ => (set _).bind fun _ _ => write_settles slot _

theorem changeDocument_settles (change : Document Nat → Document Nat) : Settles (changeDocument change) fun _ => True :=
  .of_ok fun _ => ⟨(), rfl, trivial⟩

/-- The run goes on with the next instruction, if it goes on. -/
def Control.Onward (address : Nat) (control : Control) : Prop :=
  ∀ next, control = .goto next → next = address + 1

/-- An instruction that only builds is not stopped, and leads to the next one or to the end. -/
theorem exec_settles {instr : Instr} (builds : instr.builds = true) (address : Nat) :
    Settles (exec address instr) (Control.Onward address) := by
  have onward : Settles (pure (Control.goto (address + 1))) (Control.Onward address) :=
    .of_ok fun _ => ⟨_, rfl, fun next same => (Control.goto.inj same).symm⟩
  cases instr with
  | fragment slot => exact (create_settles slot _).bind fun _ _ => onward
  | element slot tag => exact (create_settles slot _).bind fun _ _ => onward
  | text slot s => exact (create_settles slot _).bind fun _ _ => onward
  | set slot name text =>
    exact (node_settles slot).bind fun _ _ => (changeDocument_settles _).bind fun _ _ => onward
  | append parent child =>
    exact (node_settles parent).bind fun _ _ => (node_settles child).bind fun _ _ =>
      (changeDocument_settles _).bind fun _ _ => onward
  | done root => exact (node_settles root).bind fun node _ => .of_ok fun _ => ⟨_, rfl, by rintro next ⟨⟩⟩
  | _ => cases builds

/-- A program that only builds ends within as many steps as it has instructions. -/
theorem execute_settles {program : Program}
    (builds : ∀ address instr, program.instr? address = some instr → instr.builds = true) (steps address : Nat)
    (inside : address ≤ program.size) (enough : program.size < steps + address) :
    Settles (execute program steps address) fun _ => True := by
  induction steps generalizing address with
  | zero => omega
  | succ steps ih =>
    rw [execute]
    cases found : program.instr? address with
    | none => exact .throw (by rintro ⟨⟩)
    | some instr =>
      have below : address < program.size := by
        obtain ⟨line, held, -⟩ := Option.map_eq_some_iff.mp found
        exact (Array.getElem?_eq_some_iff.mp held).1
      refine (exec_settles (builds address instr found) address).bind fun control onward => ?_
      cases control with
      | finish root => exact .of_ok fun _ => ⟨root, rfl, trivial⟩
      | goto next =>
        obtain rfl := onward next rfl
        exact ih (address + 1) below (by omega)

theorem root_run (program : Program) (steps : Nat) (document : Document Nat) (data : Fields Value) :
    (program.run steps document data).root = (execute program steps 0 (initial program.slots document data)).1 := by
  rw [Program.run, initial]
  rcases execute program steps 0 ⟨document, data, Array.replicate program.slots .empty, []⟩ with ⟨result, m⟩
  cases result <;> rfl

end Machine

/-- The program for static nodes does what their build does. -/
theorem run_static (nodes : List Node) (document : Document Nat) (data : Fields Value) :
    let program := Program.ofBlocks (Template.verbatims nodes)
    (program.run program.stepsAllowed document data).result =
      Build.rooted (Template.verbatims nodes) ⟨document, data⟩ := by
  intro program
  obtain ⟨enough, stopped, ended⟩ := ofBlocks_run (Template.verbatims nodes) document data
  by_cases few : program.stepsAllowed < enough
  · obtain ⟨reached, result⟩ := stopped _ few
    have settles := Machine.execute_settles (fun _ _ => Program.ofBlocks_builds nodes) program.stepsAllowed 0
      (Nat.zero_le _) (Nat.lt_add_of_pos_left (Nat.two_pow_pos 62))
    have finished := (settles (Machine.initial program.slots document data)).2
    rw [← Machine.root_run] at finished
    exact absurd (congrArg Prod.fst result) finished
  · exact ended _ (Nat.le_of_not_lt few)

/-! ### What is built -/

theorem Fields.set_of_absent {α : Type} {name : String} {fields : Fields α} (absent : fields.get? name = none)
    (value : α) : fields.set name value = fields ++ [(name, value)] := by
  induction fields with
  | nil => rfl
  | cons entry rest ih =>
    obtain ⟨key, old⟩ := entry
    rw [Fields.get?_cons] at absent
    by_cases same : key = name
    · simp [same] at absent
    · rw [Fields.set, if_neg same, ih (by simpa [same] using absent), List.cons_append]

mutual

/-- The tree that is built for a static node. -/
def treeOf : Node → Tree Nat
  | .element name attributes children =>
    .element name (attributes.map fun a => (a.name, a.value)) [] (treesOf children)
  | .text s => .text s []
  | _ => .text "" []

/-- The trees that are built for static nodes. -/
def treesOf : List Node → List (Tree Nat)
  | [] => []
  | node :: rest => treeOf node :: treesOf rest

end

namespace Document

theorem Grown.traversable {ℓ : Type} {doc : Document ℓ} {loose : List Nat} (grown : doc.Grown loose) :
    doc.Traversable := by
  refine @traversable_of_rank _ doc (fun n => doc.size - n) (fun n => Nat.le_of_sub_eq_zero) ?_ fun n => Nat.sub_le _ _
  intro n c member
  have newer := grown.later c n ((grown.linked n c).mp member)
  have inside := lt_of_mem_children member
  omega

/-- Trees have been built under a parent: they are its last children, all their nodes are new, and no other node has
    changed. -/
structure Extends (parent : Nat) (trees : List (Tree Nat)) (before after : Document Nat) : Prop where
  ready : Build.Ready parent after
  le : before.size ≤ after.size
  kinds : ∀ n < before.size, after.kind? n = before.kind? n
  others : ∀ n < before.size, n ≠ parent → after.children n = before.children n
  added : ∃ nodes, after.children parent = before.children parent ++ nodes ∧ (∀ n ∈ nodes, before.size ≤ n) ∧
    nodes.map after.tree = trees

variable {parent : Nat} {trees : List (Tree Nat)} {before after : Document Nat}

theorem Extends.refl (ready : Build.Ready parent before) : Extends parent [] before before :=
  ⟨ready, Nat.le_refl _, fun _ _ => rfl, fun _ _ _ => rfl, [], (List.append_nil _).symm, List.forall_mem_nil _, rfl⟩

/-- A node that was there before, and is newer than the parent, keeps its tree. -/
theorem Extends.tree_eq (longer : Extends parent trees before after) {loose : List Nat} (grown : before.Grown loose)
    {n : Nat} (newer : parent < n) (inside : n < before.size) : after.tree n = before.tree n := by
  induction rank : before.size - n using Nat.strongRecOn generalizing n with
  | ind rank' ih =>
    obtain ⟨kind, found⟩ : ∃ kind, before.kind? n = some kind := by
      cases found : before.kind? n with
      | none => exact absurd (kind?_eq_none.mp found) (by omega)
      | some kind => exact ⟨kind, rfl⟩
    rw [grown.traversable.tree n kind found,
      longer.ready.1.traversable.tree n kind ((longer.kinds n inside).trans found),
      longer.others n inside (by omega)]
    refine congrArg kind.toTree (List.map_congr_left fun c member => ?_)
    have has := (grown.linked n c).mp member
    have later := grown.later c n has
    have below := lt_of_parent? has
    exact ih (before.size - c) (by omega) (by omega) below rfl

theorem Extends.append {more : List (Tree Nat)} {last : Document Nat} (ready : Build.Ready parent before)
    (first : Extends parent trees before after) (second : Extends parent more after last) :
    Extends parent (trees ++ more) before last := by
  obtain ⟨nodes, children, new, built⟩ := first.added
  obtain ⟨nodes', children', new', built'⟩ := second.added
  refine ⟨second.ready, first.le.trans second.le, fun n old => ?_, fun n old differ => ?_, nodes ++ nodes', ?_, ?_, ?_⟩
  · exact (second.kinds n (old.trans_le first.le)).trans (first.kinds n old)
  · exact (second.others n (old.trans_le first.le) differ).trans (first.others n old differ)
  · rw [children', children, List.append_assoc]
  · exact List.forall_mem_append.mpr ⟨new, fun n among => first.le.trans (new' n among)⟩
  · rw [List.map_append, built', ← built]
    refine congrArg (· ++ more) (List.map_congr_left fun n among => ?_)
    have child : n ∈ after.children parent := by
      rw [children]
      exact List.mem_append_right _ among
    have inside := lt_of_parent? ((first.ready.1.linked parent n).mp child)
    exact second.tree_eq first.ready.1 (Nat.lt_of_lt_of_le ready.2 (new n among)) inside

/-- A node of some kind has been created to be a child of a parent. -/
structure Created (parent : Nat) (kind : NodeKind Nat) (before after : Document Nat) : Prop where
  pending : after.Pending parent before.size
  size : after.size = before.size + 1
  children : ∀ n, after.children n = before.children n
  kinds : ∀ n < before.size, after.kind? n = before.kind? n
  kind : after.kind? before.size = some kind

theorem Created.create (ready : Build.Ready parent before) {kind : NodeKind Nat} (solid : kind ≠ .fragment)
    (new : ∀ tag attributes listeners, kind = .element tag attributes listeners → attributes.names.Nodup) :
    Created parent kind before (before.create kind).2 := by
  refine ⟨ready.1.create ready.2 solid new, size_create kind before, children_create kind before, fun n old => ?_, ?_⟩
  · rw [kind?_create, if_neg (Nat.ne_of_lt old)]
  · rw [kind?_create, if_pos rfl]

theorem kind?_setAttribute {ℓ : Type} {doc : Document ℓ} {node : Nat} {tag : String} {fields : Fields String}
    {listeners : List (String × ℓ)} (found : doc.kind? node = some (.element tag fields listeners))
    (name value : String) (other : Nat) :
    (doc.setAttribute node name value).kind? other =
      if other = node then some (.element tag (fields.set name value) listeners) else doc.kind? other := by
  rw [setAttribute, update, kind?, Array.getElem?_modify]
  by_cases same : node = other
  · subst same
    obtain ⟨held, stored, kind⟩ := Option.map_eq_some_iff.mp found
    rw [if_pos rfl, if_pos rfl, stored, Option.map_some, Option.map_some, kind]
  · rw [if_neg same, if_neg (Ne.symm same)]
    rfl

theorem Created.setAttribute {tag : String} {fields : Fields String} {listeners : List (String × Nat)}
    (created : Created parent (.element tag fields listeners) before after) (name value : String) :
    Created parent (.element tag (fields.set name value) listeners) before
      (after.setAttribute before.size name value) := by
  refine ⟨created.pending.setAttribute name value, ?_, fun n => ?_, fun n old => ?_, ?_⟩
  · rw [Document.setAttribute, size_update, created.size]
  · rw [Document.setAttribute, children_update fun n => by split <;> rfl, created.children]
  · rw [kind?_setAttribute created.kind, if_neg (Nat.ne_of_lt old), created.kinds n old]
  · rw [kind?_setAttribute created.kind, if_pos rfl]

/-- Attributes with new names are set in order. -/
theorem Created.setAttributes {tag : String} {attributes : List Attribute} {fields : Fields String}
    (distinct : (attributes.map Attribute.name).Nodup) (fresh : ∀ a ∈ attributes, a.name ∉ fields.names)
    (created : Created parent (.element tag fields []) before after) :
    Created parent (.element tag (fields ++ attributes.map fun a => (a.name, a.value)) []) before
      (attributes.foldl (fun doc a => doc.setAttribute before.size a.name a.value) after) := by
  induction attributes generalizing fields after with
  | nil => simpa using created
  | cons a rest ih =>
    obtain ⟨once, apart⟩ := List.nodup_cons.mp distinct
    obtain ⟨unused, later⟩ := List.forall_mem_cons.mp fresh
    have set := created.setAttribute a.name a.value
    rw [Fields.set_of_absent (Fields.get?_eq_none.mpr unused)] at set
    have freshLater : ∀ b ∈ rest, b.name ∉ Fields.names (fields ++ [(a.name, a.value)]) := by
      intro b among found
      rw [Fields.names, List.map_append, List.mem_append, List.map_singleton, List.mem_singleton] at found
      rcases found with old | same
      · exact later b among old
      · exact once (List.mem_map.mpr ⟨b, among, same⟩)
    have all := ih apart freshLater set
    rwa [List.append_assoc] at all

/-- A new node that is appended to its parent, with trees built under it, is a tree under the parent. -/
theorem Created.extends {kind : NodeKind Nat} {mid : Document Nat} (created : Created parent kind before mid)
    (ready : Build.Ready parent before) (inside : Extends before.size trees (mid.append parent before.size) after) :
    Extends parent [kind.toTree trees] before after := by
  have size : (mid.append parent before.size).size = before.size + 1 := size_append.trans created.size
  have low : parent < before.size := ready.2
  have differ : parent ≠ before.size := Nat.ne_of_lt low
  have children (n : Nat) : (mid.append parent before.size).children n =
      before.children n ++ if parent = n then [before.size] else [] := by
    have carried : mid.carried before.size = [before.size] := if_neg created.pending.solid
    rw [created.pending.grown.children_append (by rw [created.size]; omega) created.pending.inside, carried,
      created.children, List.filter_eq_self.mpr]
    intro c member
    have old := lt_of_parent? ((ready.1.linked n c).mp member)
    simpa using Nat.ne_of_lt old
  have last : after.children parent = before.children parent ++ [before.size] := by
    rw [inside.others parent (by omega) differ, children, if_pos rfl]
  obtain ⟨nodes, below, -, built⟩ := inside.added
  have kind? : after.kind? before.size = some kind := by
    rw [inside.kinds _ (by omega), kind?_append, created.kind]
  have tree : after.tree before.size = kind.toTree trees := by
    rw [inside.ready.1.traversable.tree _ kind kind?, below, children, if_neg differ,
      children_of_size_le (Nat.le_refl _), ← built]
    rfl
  have longer := inside.le
  refine ⟨⟨inside.ready.1, low.trans inside.ready.2⟩, by omega, fun n old => ?_, fun n old other => ?_, [before.size],
    last, List.forall_mem_singleton.mpr (Nat.le_refl _), by rw [List.map_singleton, tree]⟩
  · rw [inside.kinds n (by omega), kind?_append, created.kinds n old]
  · rw [inside.others n (by omega) (Nat.ne_of_lt old), children, if_neg (Ne.symm other), List.append_nil]

/-- The new node itself may be built under. -/
theorem Created.ready {kind : NodeKind Nat} (created : Created parent kind before after) :
    Build.Ready before.size (after.append parent before.size) := by
  refine ⟨created.pending.append, ?_⟩
  rw [size_append]
  exact created.pending.inside

end Document

open Document

namespace Build

theorem actAll_static (node : Nat) (attributes : List Attribute) (document : Document Nat) (data : Fields Value) :
    actAll node (attributes.map fun a => .set a.name a.value) ⟨document, data⟩ =
      (.ok (), ⟨attributes.foldl (fun doc a => doc.setAttribute node a.name a.value) document, data⟩) := by
  induction attributes generalizing document with
  | nil => rfl
  | cons a rest ih => exact ih _

/-- Static nodes are built under a parent as they are. -/
theorem blocks_static (data : Fields Value) {nodes : List Node} (static : StaticRow nodes) (parent : Nat)
    (before : Document Nat) (ready : Ready parent before) :
    ∃ after, blocks parent (Template.verbatims nodes) ⟨before, data⟩ = (.ok (), ⟨after, data⟩) ∧
      Extends parent (treesOf nodes) before after := by
  induction static generalizing parent before with
  | nil => exact ⟨before, rfl, .refl ready⟩
  | @element el rest tag _ _ buildsInside buildsRest =>
    have created : Created parent (.element el.name [] []) before (before.create (.element el.name [] [])).2 :=
      .create ready (by rintro ⟨⟩) (by rintro _ _ _ ⟨⟩; exact List.nodup_nil)
    have furnished := created.setAttributes tag.distinct fun _ _ => List.not_mem_nil
    obtain ⟨inner, builtInside, inside⟩ := buildsInside before.size _ furnished.ready
    have first := furnished.extends ready inside
    obtain ⟨after, builtRest, others⟩ := buildsRest parent inner first.ready
    refine ⟨after, ?_, first.append ready others⟩
    have built : block parent (Template.verbatim el.toNode) ⟨before, data⟩ = (.ok (), ⟨inner, data⟩) :=
      (bind_ok (actAll_static before.size el.attributes _ data) _).trans builtInside
    exact (bind_ok built _).trans builtRest
  | @text s rest _ _ _ _ buildsRest =>
    have created : Created parent (.text s) before (before.create (.text s)).2 :=
      .create ready (by rintro ⟨⟩) (by rintro _ _ _ ⟨⟩)
    have first := created.extends ready (.refl created.ready)
    obtain ⟨after, builtRest, others⟩ := buildsRest parent _ first.ready
    exact ⟨after, builtRest, first.append ready others⟩

theorem rooted_static (data : Fields Value) {nodes : List Node} (static : StaticRow nodes) :
    ∃ after, rooted (Template.verbatims nodes) ⟨{}, data⟩ = (.ok 0, ⟨after, data⟩) ∧
      after.tree 0 = .fragment (treesOf nodes) := by
  have ready : Ready 0 (({} : Document Nat).create .fragment).2 := ⟨grown_fragment, Nat.one_pos⟩
  obtain ⟨after, built, longer⟩ := blocks_static data static 0 _ ready
  obtain ⟨added, children, -, trees⟩ := longer.added
  refine ⟨after, bind_ok built _, ?_⟩
  have kind : after.kind? 0 = some .fragment := longer.kinds 0 ready.2
  rw [longer.ready.1.traversable.tree 0 .fragment kind, children, ← trees]
  rfl

end Build

/-! ### What is written -/

theorem Text.toList_escapeAttribute (s : String) :
    (Text.escapeAttribute s).toList = s.toList.flatMap Markup.writtenChar := by
  rw [Text.escapeAttribute_eq, String.toList_ofList, Text.replaceChar, Text.replaceChar, List.flatMap_assoc]
  refine List.flatMap_congr fun c _ => ?_
  unfold Markup.writtenChar
  by_cases ampersand : c = '&'
  · rw [if_pos ampersand, if_pos ampersand]
    decide
  · rw [if_neg ampersand, if_neg ampersand, List.flatMap_singleton]

theorem Tree.toList_attributeMarkup (a : Attribute) :
    (Tree.attributeMarkup (a.name, a.value)).toList = Markup.spelledAttribute (Markup.writtenValue a) := by
  simp [Tree.attributeMarkup, Markup.spelledAttribute, Markup.writtenValue, Text.toList_escapeAttribute]

/-- The attributes of a static element as they are written. -/
theorem Tree.toList_attributes (attributes : List Attribute) :
    (String.join ((attributes.map fun a => (a.name, a.value)).map Tree.attributeMarkup)).toList =
      (attributes.map Markup.writtenValue).flatMap Markup.spelledAttribute := by
  rw [String.toList_join, List.map_map, List.flatMap_map, List.flatMap_map]
  exact List.flatMap_congr fun a _ => Tree.toList_attributeMarkup a

theorem Tree.toList_markups {nodes : List Node} (static : StaticRow nodes) :
    (Tree.markups (treesOf nodes)).toList = Markup.writtenRow nodes := by
  induction static with
  | nil => rfl
  | @element el rest tag _ _ inner others =>
    have opening : Tree.voidTags.contains el.name = false := by simpa using tag.closed
    rw [treesOf, Tree.markups, String.toList_append, others, Element.toNode, treeOf, Tree.markup, opening]
    simp only [Bool.false_and, Bool.false_eq_true, if_false, String.toList_append, Tree.toList_attributes, inner]
    simp [Markup.writtenRow, Markup.written, Markup.spelledTag]
  | text _ _ _ _ others =>
    rw [treesOf, Tree.markups, String.toList_append, others]
    rfl

/-! ### Static templates -/

namespace Registry

theorem compile_static {templates : Fields Template} {name : String} {template : Template}
    (found : templates.get? name = some template) (static : template.root.toNode.isStatic = true)
    (cache : Expr.ScopeCache) :
    (compile templates cache name).1 = .ok (Program.ofBlocks (Template.verbatims [template.root.toNode])) := by
  have deep : 0 < Template.expansionDepth templates :=
    Nat.mul_pos (Nat.mul_pos (Nat.succ_pos _) (Nat.succ_pos _)) (Nat.succ_pos _)
  obtain ⟨depth, more⟩ := Nat.exists_eq_add_one.mpr deep
  have expanded : Template.blocksOf templates name = pure (Template.verbatims [template.root.toNode]) := by
    rw [Template.blocksOf_eq found, more, Template.expand, Template.siblings_static _ _ _ (.singleton static)]
    rfl
  rw [compile, expanded]
  rfl

theorem routine_static {registry : Registry} {name : String} {template : Template} (stale : registry.routines = [])
    (found : registry.templates.get? name = some template) (static : template.root.toNode.isStatic = true) :
    (registry.routine name).1.map (·.program) =
      .ok (Program.ofBlocks (Template.verbatims [template.root.toNode])) := by
  have compiled := compile_static found static registry.cache
  rw [routine, stale]
  rcases made : compile registry.templates registry.cache name with ⟨result, progress⟩
  rw [made] at compiled
  subst compiled
  rfl

/-- The program for a static template builds what the template was written as. -/
theorem run_static_markup {root : Element} (static : root.toNode.isStatic = true) (data : Fields Value) :
    let program := Program.ofBlocks (Template.verbatims [root.toNode])
    let outcome := program.run program.stepsAllowed {} data
    outcome.root.map outcome.document.markup = .ok (String.ofList (Markup.written root.toNode)) := by
  intro program outcome
  have row : StaticRow [root.toNode] := .singleton static
  have ran : outcome.result = _ := run_static [root.toNode] {} data
  obtain ⟨after, built, tree⟩ := Build.rooted_static data row
  rw [built] at ran
  obtain ⟨ended, site⟩ := Prod.mk.inj ran
  have document : outcome.document = after := congrArg Site.document site
  rw [ended, document]
  refine congrArg Except.ok (String.toList_inj.mp ?_)
  rw [Document.markup, tree, Tree.markup, Tree.toList_markups row, Markup.writtenRow, Markup.writtenRow,
    List.append_nil, String.toList_ofList]

/-- A static template renders as markup that is read as the same tree, by any reader that can be relied on and
    whatever the registry and the data are. -/
theorem static_roundTrip {reader : Markup.Reader} (faithful : reader.Faithful) (registry : Registry) (name : String)
    (data : Fields Value) {markup : String} {tree : Element} (static : tree.toNode.isStatic = true)
    (read : Markup.parse markup reader = .ok tree) :
    ∃ later log output, registry.register name markup reader = (.ok (), later, log) ∧
      (later.renderToString name data).1 = .ok output ∧ Markup.parse output reader = .ok tree := by
  have parsed : Template.parse name markup reader = .ok ⟨markup, tree⟩ :=
    Template.parse_ok (Markup.isBlankText_of_parse faithful read) read (Template.validate_static static)
  let later : Registry := { registry with routines := [], templates := registry.templates.set name ⟨markup, tree⟩ }
  have registered : ∃ log, registry.register name markup reader = (.ok (), later, log) := by
    rw [register, parsed]
    exact ⟨_, rfl⟩
  obtain ⟨log, registered⟩ := registered
  have found : later.templates.get? name = some ⟨markup, tree⟩ := Fields.get?_set_self
  have routine : (later.routine name).1.map (·.program) = .ok (Program.ofBlocks (Template.verbatims [tree.toNode])) :=
    routine_static rfl found static
  refine ⟨later, log, String.ofList (Markup.written tree.toNode), registered, ?_, ?_⟩
  · rw [renderToString_eq, routine]
    dsimp only
    rw [run_static_markup static data]
    rfl
  · exact Markup.parse_written faithful static

/-- Quotes and references in attributes and texts, an empty tag, and constructs around the root. -/
def quotedMarkup : String :=
  "<?xml version='1.0'?><div title='a &amp; \"b\"' id=\"x\">p &lt; q<i/><b>r\n</b>s</div><!-- end -->"

/-- The tree of the markup. -/
def quotedTree : Element :=
  ⟨"div", [⟨"title", "a & \"b\""⟩, ⟨"id", "x"⟩],
    [.text "p &lt; q", .element "i" [] [], .element "b" [] [.text "r\n"], .text "s"]⟩

theorem quotedTree_roundTrip :
    (quotedTree.toNode.isStatic = true ∧ Markup.parse quotedMarkup Markup.read = .ok quotedTree) ∧
      ∃ later log output, Registry.register "page" quotedMarkup {} Markup.read = (.ok (), later, log) ∧
        (later.renderToString "page" []).1 = .ok output ∧ Markup.parse output Markup.read = .ok quotedTree := by
  have static : quotedTree.toNode.isStatic = true := by decide +kernel
  have read : Markup.parse quotedMarkup Markup.read = .ok quotedTree := by rfl
  exact ⟨⟨static, read⟩, static_roundTrip Markup.read_faithful {} "page" [] static read⟩

end Registry

end Stencil
