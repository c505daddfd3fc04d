import Mathlib.Data.List.Forall2
import Stencil.Proofs.Execution
import Stencil.Proofs.Rendering

/-!
Two runs of one program side by side. A run sees nothing of a document but the nodes that it has made, and
of the data only the fields that its instructions read. So a run in a document that holds other nodes, on
data that differ elsewhere, goes step by step like one in an empty document: its nodes have higher numbers,
and all else is the same.
-/
namespace Stencil

open Stateful

/-! ### Fields that are read -/

/-- Data that read the same under some names. -/
def Fields.Agree (names : List String) (data data' : Fields Value) : Prop :=
  ∀ name ∈ names, data.read name = data'.read name

namespace Fields.Agree

variable {names others : List String} {data data' : Fields Value} {name : String} {value : Value}

theorem mono (agree : Agree names data data') (fewer : ∀ name ∈ others, name ∈ names) : Agree others data data' :=
  fun name member => agree name (fewer name member)

theorem left (agree : Agree (names ++ others) data data') : Agree names data data' :=
  agree.mono fun _ => List.mem_append_left _

theorem right (agree : Agree (names ++ others) data data') : Agree others data data' :=
  agree.mono fun _ => List.mem_append_right _

/-- Whatever is put under a name in the one way or the other, the same is read under it. -/
theorem override {changed changed' : Fields Value} (agree : Agree names data data')
    (same : name ∈ names → changed.read name = changed'.read name)
    (kept : ∀ other ≠ name, get? other changed = get? other data)
    (kept' : ∀ other ≠ name, get? other changed' = get? other data') : Agree names changed changed' := by
  intro other member
  by_cases differ : other = name
  · subst differ
    exact same member
  · rw [read, read, kept other differ, kept' other differ]
    exact agree other member

theorem set (agree : Agree names data data') (name : String) (value : Value) :
    Agree names (data.set name value) (data'.set name value) := by
  have kept (fields : Fields Value) : ∀ other ≠ name, get? other (fields.set name value) = get? other fields :=
    fun _ => get?_set_of_ne
  refine agree.override (fun _ => ?_) (kept data) (kept data')
  rw [read, read, get?_set_self, get?_set_self]

theorem writeFields (agree : Agree names data data') (entries : List (String × Value)) :
    Agree names (writeFields entries data) (writeFields entries data') := by
  induction entries generalizing data data' with
  | nil => exact agree
  | cons entry rest ih => exact ih (agree.set entry.1 entry.2)

end Fields.Agree

/-- What two loops have put by for one field: the same, as far as the field is read. -/
def SavedAlike (names : List String) (saved saved' : String × Option Value) : Prop :=
  saved.1 = saved'.1 ∧ (saved.1 ∈ names → saved.2.getD .undefined = saved'.2.getD .undefined)

theorem loopSnapshot_alike {names : List String} {data data' : Fields Value} (agree : data.Agree names data')
    (name : String) : List.Forall₂ (SavedAlike names) (loopSnapshot name data) (loopSnapshot name data') := by
  rw [loopSnapshot, loopSnapshot, List.forall₂_map_left_iff, List.forall₂_map_right_iff, List.forall₂_same]
  exact fun suffix _ => ⟨rfl, agree (name ++ suffix)⟩

/-- Fields are put back alike, whether a field that reads `undefined` was there or not. -/
theorem restoreFields_alike {names : List String} {saved saved' : List (String × Option Value)}
    (alike : List.Forall₂ (SavedAlike names) saved saved') {data data' : Fields Value}
    (agree : data.Agree names data') : (restoreFields saved data).Agree names (restoreFields saved' data') := by
  have put (name : String) (value : Option Value) (data : Fields Value) :
      (restoreFields [(name, value)] data).read name = value.getD .undefined ∧
        ∀ other ≠ name, Fields.get? other (restoreFields [(name, value)] data) = Fields.get? other data := by
    cases value with
    | none =>
      have removed : restoreFields [(name, none)] data = data.remove name := rfl
      rw [removed, Fields.read, Fields.get?_remove_self]
      exact ⟨rfl, fun _ => Fields.get?_remove_of_ne⟩
    | some value =>
      have written : restoreFields [(name, some value)] data = data.set name value := rfl
      rw [written, Fields.read, Fields.get?_set_self]
      exact ⟨rfl, fun _ => Fields.get?_set_of_ne⟩
  induction alike generalizing data data' with
  | nil => exact agree
  | @cons entry entry' _ _ same _ ih =>
    obtain ⟨name, value⟩ := entry
    obtain ⟨name', value'⟩ := entry'
    obtain ⟨rfl, same⟩ := same
    obtain ⟨back, kept⟩ := put name value data
    obtain ⟨back', kept'⟩ := put name value' data'
    exact ih (agree.override (fun named => back.trans ((same named).trans back'.symm)) kept kept')

namespace Expr

mutual

/-- The fields that an expression reads. -/
def reads : Expr → List String
  | literal _ => []
  | field name => [name]
  | member target _ => target.reads
  | index target key => target.reads ++ key.reads
  | unary _ operand => operand.reads
  | binary _ left right => left.reads ++ right.reads
  | conditional test yes no => test.reads ++ (yes.reads ++ no.reads)
  | array items => itemReads items
  | object entries => entryReads entries

def itemReads : List Expr → List String
  | [] => []
  | e :: rest => e.reads ++ itemReads rest

def entryReads : List (String × Expr) → List String
  | [] => []
  | (_, e) :: rest => e.reads ++ entryReads rest

end

variable {data data' : Fields Value}

mutual

/-- The value of an expression depends on the fields that it reads, and on nothing else in the data. -/
theorem eval_congr : ∀ e : Expr, data.Agree e.reads data' → e.eval data = e.eval data'
  | literal _, _ => rfl
  | field name, agree => congrArg Except.ok (agree name List.mem_cons_self)
  | member target _, agree => by
    rw [eval, eval, eval_congr target agree]
  | index target key, agree => by
    rw [eval, eval, eval_congr target agree.left, eval_congr key agree.right]
  | unary _ operand, agree => by
    rw [eval, eval, eval_congr operand agree]
  | binary _ left right, agree => by
    rw [eval, eval, eval_congr left agree.left, eval_congr right agree.right]
  | conditional test yes no, agree => by
    rw [eval, eval, eval_congr test agree.left, eval_congr yes agree.right.left, eval_congr no agree.right.right]
  | array items, agree => by
    rw [eval, eval, evalItems_congr items agree]
  | object entries, agree => by
    rw [eval, eval, evalEntries_congr entries agree]

theorem evalItems_congr : ∀ items, data.Agree (itemReads items) data' → evalItems data items = evalItems data' items
  | [], _ => rfl
  | e :: rest, agree => by
    rw [evalItems, evalItems, eval_congr e agree.left, evalItems_congr rest agree.right]

theorem evalEntries_congr :
    ∀ entries, data.Agree (entryReads entries) data' → evalEntries data entries = evalEntries data' entries
  | [], _ => rfl
  | (_, e) :: rest, agree => by
    rw [evalEntries, evalEntries, eval_congr e agree.left, evalEntries_congr rest agree.right]

end

end Expr

/-- The fields that a part of an attribute value reads. -/
def Template.Part.reads : Template.Part → List String
  | .literal _ => []
  | .expr e => e.root.reads

/-- The fields that an instruction reads: those in its expressions, and the one with its handler. -/
def Instr.reads : Instr → List String
  | .eval _ e | .jumpUnless e _ | .loop _ e _ => e.root.reads
  | .setParts _ _ parts => parts.flatMap Template.Part.reads
  | .listen _ _ handler => [handler]
  | _ => []

/-- The fields that a program reads. -/
def Program.reads (program : Program) : List String :=
  program.lines.toList.flatMap fun line => line.instr.reads

/-! ### Documents beside each other -/

/-- A node whose parent and children have numbers that are higher by `base`. -/
def DocumentNode.shift {ℓ : Type} (base : Nat) (n : DocumentNode ℓ) : DocumentNode ℓ :=
  { n with parent := n.parent.map (· + base), children := n.children.map (· + base) }

namespace Document

variable {ℓ : Type}

/-- The nodes of a document after those of another, with their numbers moved up. -/
def beside (held doc : Document ℓ) : Document ℓ :=
  ⟨held.nodes ++ doc.nodes.map (DocumentNode.shift held.size)⟩

variable {held doc : Document ℓ} {node : Nat}

@[simp] theorem beside_empty (held : Document ℓ) : held.beside {} = held := by
  rw [beside, Array.map_empty, Array.append_empty]

@[simp] theorem size_beside : (held.beside doc).size = held.size + doc.size := by
  simp [beside, size]

theorem getElem?_beside (node : Nat) :
    (held.beside doc).nodes[node + held.size]? = (doc.nodes[node]?).map (DocumentNode.shift held.size) := by
  rw [beside, size, Array.getElem?_append_right (Nat.le_add_left _ _), Nat.add_sub_cancel, Array.getElem?_map]

theorem getElem?_beside_of_lt (inside : node < held.size) : (held.beside doc).nodes[node]? = held.nodes[node]? := by
  rw [beside, Array.getElem?_append_left inside]

theorem kind?_beside (node : Nat) : (held.beside doc).kind? (node + held.size) = doc.kind? node := by
  rw [kind?, getElem?_beside, Option.map_map, kind?]
  rfl

theorem parent?_beside (node : Nat) :
    (held.beside doc).parent? (node + held.size) = (doc.parent? node).map (· + held.size) := by
  rw [parent?, getElem?_beside, parent?]
  cases doc.nodes[node]? <;> rfl

theorem children_beside (node : Nat) :
    (held.beside doc).children (node + held.size) = (doc.children node).map (· + held.size) := by
  rw [children, getElem?_beside, children]
  cases doc.nodes[node]? <;> rfl

theorem isFragment_beside (node : Nat) : (held.beside doc).isFragment (node + held.size) = doc.isFragment node := by
  rw [isFragment, kind?_beside, isFragment]

theorem create_beside (kind : NodeKind ℓ) (held doc : Document ℓ) : (held.beside doc).create kind =
    ((doc.create kind).1 + held.size, held.beside (doc.create kind).2) := by
  refine Prod.ext (size_beside.trans (Nat.add_comm _ _)) (congrArg Document.mk ?_)
  simp only [create, beside, Array.map_push, Array.append_push, DocumentNode.shift, List.map_nil, Option.map_none]

/-- A change of a node and the same change of the node with higher numbers. -/
theorem update_beside (change change' : DocumentNode ℓ → DocumentNode ℓ)
    (same : ∀ n, change' (n.shift held.size) = (change n).shift held.size) (node : Nat) (doc : Document ℓ) :
    (held.beside doc).update (node + held.size) change' = held.beside (doc.update node change) := by
  refine congrArg Document.mk (Array.ext_getElem? fun i => ?_)
  rw [Array.getElem?_modify]
  by_cases old : i < held.size
  · rw [if_neg (by omega), getElem?_beside_of_lt old]
    exact (getElem?_beside_of_lt old).symm
  · obtain ⟨j, rfl⟩ : ∃ j, i = j + held.size := ⟨i - held.size, by omega⟩
    refine Eq.trans ?_ (getElem?_beside j).symm
    rw [getElem?_beside, update, Array.getElem?_modify]
    by_cases here : node = j
    · rw [if_pos (congrArg (· + held.size) here), if_pos here, Option.map_map, Option.map_map]
      exact congrArg (Option.map · _) (funext same)
    · rw [if_neg (fun equal => here (Nat.add_right_cancel equal)), if_neg here]

theorem setAttribute_beside (node : Nat) (name value : String) (doc : Document ℓ) :
    (held.beside doc).setAttribute (node + held.size) name value = held.beside (doc.setAttribute node name value) := by
  refine update_beside _ _ (fun n => ?_) node doc
  rcases n with ⟨kind, parent, children⟩
  cases kind <;> rfl

theorem setAttributes_beside (node : Nat) (entries : List (String × String)) (doc : Document ℓ) :
    entries.foldl (fun doc (name, text) => doc.setAttribute (node + held.size) name text) (held.beside doc) =
      held.beside (entries.foldl (fun doc (name, text) => doc.setAttribute node name text) doc) := by
  induction entries generalizing doc with
  | nil => rfl
  | cons entry rest ih =>
    rw [List.foldl_cons, List.foldl_cons, ← ih]
    exact congrArg (fun doc => rest.foldl _ doc) (setAttribute_beside node entry.1 entry.2 doc)

theorem listen_beside (node : Nat) (event : String) (listener : ℓ) (doc : Document ℓ) :
    (held.beside doc).listen (node + held.size) event listener = held.beside (doc.listen node event listener) := by
  refine update_beside _ _ (fun n => ?_) node doc
  rcases n with ⟨kind, parent, children⟩
  cases kind <;> rfl

theorem attach_beside (parent node : Nat) (doc : Document ℓ) :
    (held.beside doc).attach (parent + held.size) (node + held.size) = held.beside (doc.attach parent node) := by
  rw [attach, update_beside (fun n => { n with parent := some parent }) _ fun _ => by rfl]
  exact update_beside (fun n => { n with children := n.children ++ [node] }) _
    (fun n => by simp [DocumentNode.shift]) parent _

theorem detach_beside (node : Nat) (doc : Document ℓ) :
    (held.beside doc).detach (node + held.size) = held.beside (doc.detach node) := by
  rw [detach, parent?_beside, detach]
  cases doc.parent? node with
  | none => rfl
  | some parent =>
    refine update_beside _ _ (fun n => ?_) parent doc
    have same : (· != node + held.size) ∘ (· + held.size) = (· != node) := by
      funext c
      simp [bne]
    simp only [DocumentNode.shift, List.filter_map, same]

/-- Appending nodes touches only the document that they are in. -/
theorem append_beside (parent node : Nat) (doc : Document ℓ) :
    (held.beside doc).append (parent + held.size) (node + held.size) = held.beside (doc.append parent node) := by
  have attached (children : List Nat) (doc : Document ℓ) :
      (children.map (· + held.size)).foldl (fun doc child => doc.attach (parent + held.size) child) (held.beside doc) =
        held.beside (children.foldl (fun doc child => doc.attach parent child) doc) := by
    induction children generalizing doc with
    | nil => rfl
    | cons child rest ih => rw [List.map_cons, List.foldl_cons, attach_beside, ih, List.foldl_cons]
  rw [append, isFragment_beside, append]
  split
  · rw [children_beside, update_beside (fun n => { n with children := [] }) _ fun _ => by rfl]
    exact attached _ _
  · rw [detach_beside, attach_beside]

/-- The tree of a node does not depend on what stands beside it. -/
theorem treeWithin_beside (depth node : Nat) :
    (held.beside doc).treeWithin depth (node + held.size) = doc.treeWithin depth node := by
  induction depth generalizing node with
  | zero => rfl
  | succ depth ih =>
    rw [treeWithin, kind?_beside, children_beside, List.map_map, treeWithin]
    have same : (held.beside doc).treeWithin depth ∘ (· + held.size) = doc.treeWithin depth := funext ih
    rw [same]

end Document

/-! ### Machines side by side -/

/-- Loops that are under way in two runs at the same item, with alike fields put by. -/
structure Loop.Twin (names : List String) (l l' : Loop) : Prop where
  name : l'.name = l.name
  items : l'.items = l.items
  cursor : l'.cursor = l.cursor
  saved : List.Forall₂ (SavedAlike names) l.saved l'.saved

/-- Registers that hold the same in two runs, where the nodes of the second have numbers higher by `base`. -/
inductive Register.Twin (names : List String) (base : Nat) : Register → Register → Prop
  | empty : Twin names base .empty .empty
  | node (n : Nat) : Twin names base (.node n) (.node (n + base))
  | value (v : Value) : Twin names base (.value v) (.value v)
  | loop {l l' : Loop} : l.Twin names l' → Twin names base (.loop l) (.loop l')

namespace Machine

/-- The states of two runs: the second has built beside `held` what the first has built, and its data read the
    same under the names. -/
structure Twin (names : List String) (held : Document Nat) (m m' : Machine) : Prop where
  document : m'.document = held.beside m.document
  data : m.data.Agree names m'.data
  registers : List.Forall₂ (Register.Twin names held.size) m.registers.toList m'.registers.toList

/-- Two results that are related, or the same failure. -/
inductive Ends {α β : Type} (related : α → β → Prop) : Except RenderError α → Except RenderError β → Prop
  | ok {a : α} {b : β} : related a b → Ends related (.ok a) (.ok b)
  | error (e : RenderError) : Ends related (.error e) (.error e)

/-- Steps that keep two machines twins and give related results. -/
def InStep (names : List String) (held : Document Nat) {α β : Type} (related : α → β → Prop) (x : Run α) (y : Run β) :
    Prop :=
  ∀ m m', Twin names held m m' → Ends related (x m).1 (y m').1 ∧ Twin names held (x m).2 (y m').2

variable {names : List String} {held : Document Nat} {m m' : Machine} {slot : Nat}

section steps

variable {α β γ δ : Type} {related : α → β → Prop} {related' : γ → δ → Prop}

theorem InStep.pure {a : α} {b : β} (holds : related a b) : InStep names held related (pure a) (pure b) :=
  fun _ _ twin => ⟨.ok holds, twin⟩

theorem InStep.throw (e : RenderError) : InStep names held related (throw e) (throw e) :=
  fun _ _ twin => ⟨.error e, twin⟩

theorem InStep.bind {x : Run α} {y : Run β} {f : α → Run γ} {g : β → Run δ} (first : InStep names held related x y)
    (second : ∀ a b, related a b → InStep names held related' (f a) (g b)) :
    InStep names held related' (x >>= f) (y >>= g) := by
  intro m m' twin
  obtain ⟨ends, after⟩ := first m m' twin
  rcases left : x m with ⟨result, n⟩
  rcases right : y m' with ⟨result', n'⟩
  rw [left, right] at ends after
  cases ends with
  | error e =>
    rw [bind_error left, bind_error right]
    exact ⟨.error e, after⟩
  | @ok a b holds =>
    rw [bind_ok left, bind_ok right]
    exact second a b holds n n' after

theorem InStep.get {f : Machine → Run α} {g : Machine → Run β}
    (inStep : ∀ m m', Twin names held m m' → InStep names held related (f m) (g m')) :
    InStep names held related (get >>= f) (get >>= g) :=
  fun m m' twin => inStep m m' twin m m' twin

theorem InStep.ite {c : Prop} [Decidable c] {x x' : Run α} {y y' : Run β} (yes : InStep names held related x y)
    (no : InStep names held related x' y') :
    InStep names held related (if c then x else x') (if c then y else y') := by
  split
  · exact yes
  · exact no

theorem InStep.lift (result : Except RenderError α) :
    InStep names held Eq (liftM result : Run α) (liftM result : Run α) := by
  cases result with
  | ok a => exact .pure rfl
  | error e => exact .throw e

end steps

/-! ### Registers -/

theorem Twin.register (twin : Twin names held m m') (slot : Nat) :
    (m.registers[slot]? = none ∧ m'.registers[slot]? = none) ∨
      ∃ r r', m.registers[slot]? = some r ∧ m'.registers[slot]? = some r' ∧ Register.Twin names held.size r r' := by
  have look {l l' : List Register} (all : List.Forall₂ (Register.Twin names held.size) l l') (slot : Nat) :
      (l[slot]? = none ∧ l'[slot]? = none) ∨
        ∃ r r', l[slot]? = some r ∧ l'[slot]? = some r' ∧ Register.Twin names held.size r r' := by
    induction all generalizing slot with
    | nil => exact .inl ⟨rfl, rfl⟩
    | cons first _ ih =>
      cases slot with
      | zero => exact .inr ⟨_, _, rfl, rfl, first⟩
      | succ slot => exact ih slot
  rw [← Array.getElem?_toList, ← Array.getElem?_toList]
  exact look twin.registers slot

theorem Twin.put {content content' : Register} (twin : Twin names held m m')
    (same : Register.Twin names held.size content content') (slot : Nat) :
    Twin names held (m.put slot content) (m'.put slot content') := by
  have replace {l l' : List Register} (all : List.Forall₂ (Register.Twin names held.size) l l') (slot : Nat) :
      List.Forall₂ (Register.Twin names held.size) (l.set slot content) (l'.set slot content') := by
    induction all generalizing slot with
    | nil => exact .nil
    | cons first rest ih =>
      cases slot with
      | zero => exact .cons same rest
      | succ slot => exact .cons first (ih slot)
  refine ⟨twin.document, twin.data, ?_⟩
  rw [Machine.put, Machine.put, Array.toList_setIfInBounds, Array.toList_setIfInBounds]
  exact replace twin.registers slot

theorem Twin.size (twin : Twin names held m m') : m'.registers.size = m.registers.size :=
  twin.registers.length_eq.symm

theorem write_inStep {content content' : Register} (same : Register.Twin names held.size content content')
    (slot : Nat) : InStep names held Eq (write slot content) (write slot content') := by
  refine .get fun m m' twin => ?_
  rw [twin.size]
  split
  · exact fun _ _ _ => ⟨.ok rfl, twin.put same slot⟩
  · exact .throw _

theorem node_inStep (slot : Nat) : InStep names held (fun n n' => n' = n + held.size) (node slot) (node slot) := by
  refine .get fun m m' twin => ?_
  rcases twin.register slot with ⟨left, right⟩ | ⟨_, _, left, right, same⟩
  · simp only [left, right]
    exact .throw _
  · simp only [left, right]
    cases same with
    | node n => exact .pure rfl
    | _ => exact .throw _

theorem value_inStep (slot : Nat) : InStep names held Eq (value slot) (value slot) := by
  refine .get fun m m' twin => ?_
  rcases twin.register slot with ⟨left, right⟩ | ⟨_, _, left, right, same⟩
  · simp only [left, right]
    exact .throw _
  · simp only [left, right]
    cases same with
    | value v => exact .pure rfl
    | _ => exact .throw _

theorem loop_inStep (slot : Nat) : InStep names held (Loop.Twin names) (loop slot) (loop slot) := by
  refine .get fun m m' twin => ?_
  rcases twin.register slot with ⟨left, right⟩ | ⟨_, _, left, right, same⟩
  · simp only [left, right]
    exact .throw _
  · simp only [left, right]
    cases same with
    | loop twin => exact .pure twin
    | _ => exact .throw _

theorem takeLoop_inStep (slot : Nat) : InStep names held (Loop.Twin names) (takeLoop slot) (takeLoop slot) := by
  intro m m' twin
  have emptied := twin.put .empty slot
  rcases twin.register slot with ⟨left, right⟩ | ⟨_, _, left, right, same⟩
  · simp only [takeLoop, bind_apply, get_apply, set_apply, left, right]
    exact ⟨.error _, emptied⟩
  · simp only [takeLoop, bind_apply, get_apply, set_apply, left, right]
    cases same with
    | loop twin => exact ⟨.ok twin, emptied⟩
    | _ => exact ⟨.error _, emptied⟩

/-! ### Documents, data and expressions -/

theorem note_inStep (message : String) : InStep names held Eq (note message) (note message) :=
  fun _ _ twin => ⟨.ok rfl, twin.document, twin.data, twin.registers⟩

theorem changeDocument_inStep {change change' : Document Nat → Document Nat}
    (same : ∀ doc, change' (held.beside doc) = held.beside (change doc)) :
    InStep names held Eq (changeDocument change) (changeDocument change') := by
  intro m m' twin
  refine ⟨.ok rfl, ?_, twin.data, twin.registers⟩
  exact (congrArg change' twin.document).trans (same m.document)

theorem changeData_inStep {change change' : Fields Value → Fields Value}
    (alike : ∀ data data', data.Agree names data' → (change data).Agree names (change' data')) :
    InStep names held Eq (changeData change) (changeData change') :=
  fun _ _ twin => ⟨.ok rfl, twin.document, alike _ _ twin.data, twin.registers⟩

theorem create_inStep (slot : Nat) (kind : NodeKind Nat) :
    InStep names held Eq (create slot kind) (create slot kind) := by
  intro m m' twin
  have made := Document.create_beside kind held m.document
  rw [← twin.document] at made
  simp only [create, bind_apply, get_apply, set_apply, made]
  exact write_inStep (.node _) slot _ _ ⟨rfl, twin.data, twin.registers⟩

theorem eval_inStep {e : Expression} (named : ∀ name ∈ e.root.reads, name ∈ names) :
    InStep names held Eq (eval e) (eval e) := by
  refine .get fun m m' twin => ?_
  have same : e.eval m.data = e.eval m'.data := Expr.eval_congr e.root (twin.data.mono named)
  rw [same]
  split
  · exact .pure rfl
  · exact .throw _

theorem partsText_inStep {parts : List Template.Part}
    (named : ∀ name ∈ parts.flatMap Template.Part.reads, name ∈ names) :
    InStep names held Eq (partsText parts) (partsText parts) := by
  induction parts with
  | nil => exact .pure rfl
  | cons part rest ih =>
    rw [List.flatMap_cons] at named
    have more := ih fun name member => named name (List.mem_append_right _ member)
    cases part with
    | literal s => exact more.bind fun _ _ same => .pure (congrArg _ same)
    | expr e =>
      have first : InStep names held Eq (eval e) (eval e) :=
        eval_inStep fun name member => named name (List.mem_append_left _ member)
      exact first.bind fun _ _ value => more.bind fun _ _ same => .pure (by rw [value, same])

/-! ### Instructions and runs -/

/-- The same address, or the same root under its higher number. -/
inductive Control.Twin (base : Nat) : Control → Control → Prop
  | goto (address : Nat) : Twin base (.goto address) (.goto address)
  | finish (root : Nat) : Twin base (.finish root) (.finish (root + base))

theorem exec_inStep (address : Nat) {instr : Instr} (named : ∀ name ∈ instr.reads, name ∈ names) :
    InStep names held (Control.Twin held.size) (exec address instr) (exec address instr) := by
  have next : InStep names held (Control.Twin held.size) (pure (.goto (address + 1))) (pure (.goto (address + 1))) :=
    .pure (.goto _)
  cases instr with
  | fragment dst => exact (create_inStep dst .fragment).bind fun _ _ _ => next
  | element dst tag => exact (create_inStep dst (.element tag [] [])).bind fun _ _ _ => next
  | text dst s => exact (create_inStep dst (.text s)).bind fun _ _ _ => next
  | set slot name text =>
    refine (node_inStep slot).bind ?_
    rintro node _ rfl
    exact (changeDocument_inStep (Document.setAttribute_beside node name text)).bind fun _ _ _ => next
  | eval dst e =>
    refine (eval_inStep named).bind ?_
    rintro v _ rfl
    exact (write_inStep (.value v) dst).bind fun _ _ _ => next
  | setIf slot name value =>
    refine (value_inStep value).bind ?_
    rintro v _ rfl
    refine .ite ?_ next
    refine (node_inStep slot).bind ?_
    rintro node _ rfl
    exact (changeDocument_inStep (Document.setAttribute_beside node name v.toText)).bind fun _ _ _ => next
  | setParts slot name parts =>
    refine (partsText_inStep named).bind ?_
    rintro text _ rfl
    refine (node_inStep slot).bind ?_
    rintro node _ rfl
    exact (changeDocument_inStep (Document.setAttribute_beside node name text)).bind fun _ _ _ => next
  | spread slot value =>
    refine (node_inStep slot).bind ?_
    rintro node _ rfl
    refine (value_inStep value).bind ?_
    rintro v _ rfl
    exact (changeDocument_inStep (Document.setAttributes_beside node (spreadEntries v))).bind fun _ _ _ => next
  | listen slot event handler =>
    refine .get fun m m' twin => ?_
    rw [← twin.data handler (named handler List.mem_cons_self)]
    split
    · refine (note_inStep _).bind fun _ _ _ => (node_inStep slot).bind ?_
      rintro node _ rfl
      exact (changeDocument_inStep (Document.listen_beside node event _)).bind fun _ _ _ => next
    · exact .throw _
  | textOf dst value escape =>
    refine (value_inStep value).bind ?_
    rintro v _ rfl
    exact (create_inStep dst _).bind fun _ _ _ => next
  | append parent child =>
    refine (node_inStep parent).bind ?_
    rintro p _ rfl
    refine (node_inStep child).bind ?_
    rintro c _ rfl
    exact (changeDocument_inStep (Document.append_beside p c)).bind fun _ _ _ => next
  | jumpUnless test target =>
    refine (eval_inStep named).bind ?_
    rintro v _ rfl
    exact .pure (.goto _)
  | jumpAbsent value target =>
    refine (value_inStep value).bind ?_
    rintro v _ rfl
    exact .pure (.goto _)
  | jump target => exact .pure (.goto target)
  | loop iter source name =>
    refine (eval_inStep named).bind ?_
    rintro v _ rfl
    refine (InStep.lift (loopItems v)).bind ?_
    rintro items _ rfl
    refine .get fun m m' twin => ?_
    have saved := loopSnapshot_alike twin.data name
    have opened : (opened name items m.data).Twin names (opened name items m'.data) := ⟨rfl, rfl, rfl, saved⟩
    exact (write_inStep (.loop opened) iter).bind fun _ _ _ => next
  | next iter exit =>
    refine (loop_inStep iter).bind fun l l' twin => ?_
    rw [twin.name, twin.items, twin.cursor]
    split
    · exact .pure (.goto exit)
    · refine (changeData_inStep fun _ _ agree => agree.writeFields _).bind fun _ _ _ => ?_
      have advanced : Loop.Twin names { l with cursor := l.cursor + 1 } ⟨l.name, l.items, l.cursor + 1, l'.saved⟩ :=
        ⟨rfl, rfl, rfl, twin.saved⟩
      exact (write_inStep (.loop advanced) iter).bind fun _ _ _ => next
  | endLoop iter =>
    refine (takeLoop_inStep iter).bind fun l l' twin => ?_
    exact (changeData_inStep fun _ _ => restoreFields_alike twin.saved).bind fun _ _ _ => next
  | done root =>
    refine (node_inStep root).bind ?_
    rintro node _ rfl
    exact .pure (.finish node)

theorem reads_of_instr? {program : Program} {address : Nat} {instr : Instr}
    (found : program.instr? address = some instr) : ∀ name ∈ instr.reads, name ∈ program.reads := by
  intro name member
  obtain ⟨line, at_address, rfl⟩ := Option.map_eq_some_iff.mp found
  exact List.mem_flatMap.mpr ⟨line, Array.mem_toList_iff.mpr (Array.mem_of_getElem? at_address), member⟩

theorem execute_inStep {program : Program} (named : ∀ name ∈ program.reads, name ∈ names) (steps address : Nat) :
    InStep names held (fun n n' => n' = n + held.size) (execute program steps address)
      (execute program steps address) := by
  induction steps generalizing address with
  | zero => exact .throw _
  | succ steps ih =>
    rw [execute]
    split
    · exact .throw _
    · next instr found =>
      refine (exec_inStep address fun name member => named name (reads_of_instr? found name member)).bind ?_
      intro control control' same
      cases same with
      | goto target => exact ih target
      | finish root => exact .pure rfl

theorem initial_twin {data data' : Fields Value} (agree : data.Agree names data') (slots : Nat) (held : Document Nat) :
    Twin names held (initial slots {} data) (initial slots held data') := by
  refine ⟨(Document.beside_empty held).symm, agree, ?_⟩
  simp only [initial, Array.toList_replicate]
  exact List.forall₂_same.mpr fun register member => List.eq_of_mem_replicate member ▸ .empty

end Machine

open Machine

/-- What a run leaves in a document that holds other nodes is what it leaves in an empty one, beside them. -/
theorem run_beside {program : Program} {data data' : Fields Value} (agree : data.Agree program.reads data')
    (steps : Nat) (held : Document Nat) :
    (program.run steps held data').root = (program.run steps {} data).root.map (· + held.size) ∧
      (program.run steps held data').document = held.beside (program.run steps {} data).document := by
  obtain ⟨ends, after⟩ := execute_inStep (fun _ => id) steps 0 _ _ (initial_twin agree program.slots held)
  rcases left : execute program steps 0 (initial program.slots {} data) with ⟨result, m⟩
  rcases right : execute program steps 0 (initial program.slots held data') with ⟨result', m'⟩
  rw [left, right] at ends after
  rw [initial] at left right
  rw [Program.run, Program.run, left, right]
  cases ends with
  | error e =>
    refine ⟨rfl, ?_⟩
    simp only [unwind_document]
    exact after.document
  | ok same => exact ⟨congrArg Except.ok same, after.document⟩

/-- Rendering depends only on the fields that a program names: on data that read the same under the names in
    its expressions and the names of its handlers, a run builds the same nodes under the same root, or fails in
    the same way. The fields that loops write over the data make no difference. -/
theorem run_eq_of_agree (program : Program) (steps : Nat) (document : Document Nat) {data data' : Fields Value}
    (agree : ∀ name ∈ program.reads, data.read name = data'.read name) :
    (program.run steps document data).root = (program.run steps document data').root ∧
      (program.run steps document data).document = (program.run steps document data').document := by
  obtain ⟨root, built⟩ := run_beside (fun _ _ => rfl) steps document
  obtain ⟨root', built'⟩ := run_beside agree steps document
  exact ⟨root.trans root'.symm, built.trans built'.symm⟩

/-- Data that differ in a field that is not read, in the order of fields, and in a field that is `undefined` in
    the one and absent in the other, and that a loop writes over. -/
theorem overlappingLoops_run_eq_of_agree :
    ∃ program, (Registry.compile overlappingLoops [] "main").1 = .ok program ∧
      let data : Fields Value := [("go", .function 3), ("xs", .array [.string "ab"]), ("x_first", .undefined)]
      let data' : Fields Value := [("other", .null), ("xs", .array [.string "ab"]), ("go", .function 3)]
      (∀ name ∈ program.reads, data.read name = data'.read name) ∧ ∀ steps document,
        (program.run steps document data).root = (program.run steps document data').root ∧
          (program.run steps document data).document = (program.run steps document data').document := by
  obtain ⟨program, compiled⟩ := overlappingLoops_compiles
  have named : (Registry.compile overlappingLoops [] "main").1.toOption.map Program.reads =
      some ["xs", "x_value", "x_first_last", "go", "x_first"] := by decide +kernel
  rw [compiled] at named
  have agree : ∀ name ∈ program.reads,
      Fields.read name [("go", .function 3), ("xs", .array [.string "ab"]), ("x_first", .undefined)] =
        Fields.read name [("other", .null), ("xs", .array [.string "ab"]), ("go", .function 3)] := by
    rw [Option.some.inj named]
    simp [Fields.read, Fields.get?_cons]
  exact ⟨program, compiled, agree, fun steps document => run_eq_of_agree program steps document agree⟩

end Stencil
