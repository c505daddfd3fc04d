import Stencil.Proofs.Contract
import Stencil.Registry

/-!
How deep expansions are nested. Trees are left for an included template, for a call by itself and for
the content that a call has passed; a rank falls each time, whatever the templates call. Where no name
stands for content the rank at the start is below the depth that an expansion is given, so that no
expansion is cut short.
-/
namespace Stencil.Template

open Markup (Element Node)

/-- What the element sets is an expression, and not content. -/
def SetsExpression (el : Element) : Prop :=
  el.hasAttr setName → ∃ value, el.attr? valueName = some value ∧ value ≠ ""

instance : DecidablePred SetsExpression := fun el =>
  decidable_of_iff (el.hasAttr setName → (el.attr? valueName).any (· ≠ ""))
    (by simp [SetsExpression, Option.any_eq_true])

variable {templates : Fields Template} {around : Surroundings} {el : Element} {nodes : List Node}

theorem SetsExpression.callSite (sets : SetsExpression el) : SetsExpression (callSite el) := by
  rw [SetsExpression, hasAttr_callSite (by decide) (by decide), attr?_callSite (by decide) (by decide)]
  exact sets

theorem SetsExpression.bound (sets : SetsExpression el) (set : el.hasAttr setName) :
    ∃ source, bound el = .expr source := by
  obtain ⟨value, given, shown⟩ := sets set
  exact ⟨value, by rw [Template.bound, given]; exact if_neg shown⟩

/-! ### Sizes -/

theorem size_removeAttr_le (name : String) (el : Element) : (el.removeAttr name).toNode.size ≤ el.toNode.size := by
  have shorter := List.length_eraseP_le (p := (·.name = name)) (l := el.attributes)
  simp only [Element.toNode, Element.removeAttr, Node.size]
  omega

theorem size_removeAttr_lt {name : String} (has : el.hasAttr name) :
    (el.removeAttr name).toNode.size < el.toNode.size := by
  obtain ⟨a, member, named⟩ := List.any_eq_true.mp has
  have positive : 0 < el.attributes.length := List.length_pos_of_mem member
  have shorter := List.length_eraseP_of_mem (p := (·.name = name)) member named
  simp only [Element.toNode, Element.removeAttr, Node.size]
  omega

theorem size_callSite_lt (calls : el.hasAttr callName) : (callSite el).toNode.size < el.toNode.size := by
  simp only [callSite, branchNames, List.foldl_cons, List.foldl_nil]
  calc
    _ ≤ _ := size_removeAttr_le elseName _
    _ ≤ _ := size_removeAttr_le elifName _
    _ ≤ _ := size_removeAttr_le ifName _
    _ < _ := size_removeAttr_lt calls

/-- The size of all templates together. -/
def totalSize (templates : Fields Template) : Nat :=
  templates.foldr (fun entry total => entry.2.root.toNode.size + total) 0

theorem size_le_totalSize {entry : String × Template} (member : entry ∈ templates) :
    entry.2.root.toNode.size ≤ totalSize templates := by
  induction templates with
  | nil => cases member
  | cons first rest ih =>
    rw [totalSize, List.foldr_cons]
    rcases List.mem_cons.mp member with rfl | member
    · omega
    · have := ih member
      rw [totalSize] at this
      omega

/-- The registered names that may still be called. -/
def uncalled (templates : Fields Template) (calls : List String) : List String :=
  templates.names.filter (· ∉ calls)

theorem uncalled_cons_lt {calls : List String} {target : String} {template : Template}
    (found : templates.get? target = some template) (entered : target ∉ calls) :
    (uncalled templates (target :: calls)).length < (uncalled templates calls).length := by
  have registered : target ∈ templates.names := List.mem_map_of_mem (Fields.mem_of_get? found)
  have fewer : uncalled templates (target :: calls) = (uncalled templates calls).filter (· ≠ target) := by
    rw [uncalled, uncalled, List.filter_filter]
    congr 1
    funext name
    simp
  rw [fewer]
  apply List.length_filter_lt_length_iff_exists.mpr
  exact ⟨target, by simp [uncalled, registered, entered], by simp⟩

/-! ### Ranks -/

/-- A call of another template takes one name from those that may still be called and adds one caller. -/
def weight (around : Surroundings) : Nat :=
  2 * (uncalled around.templates around.calls).length + around.callers.length

/-- A number that falls each time a tree is left. An included template and passed content have less weight;
    a call by itself has no more weight than before, and is smaller than the nodes in which it stands. -/
def rank (around : Surroundings) (nodes : List Node) : Nat :=
  weight around * (totalSize around.templates + 1) + Node.sizes nodes

theorem weight_caller_lt {caller : Node} {outer : List Node} (called : around.callers = caller :: outer) :
    weight { around with callers := outer } < weight around := by
  simp only [weight, called, List.length_cons]
  omega

theorem weight_site_le (around : Surroundings) : weight { around with callers := [] } ≤ weight around := by
  simp [weight]

theorem weight_root_lt {target : String} {template : Template} {site : Node}
    (found : around.templates.get? target = some template) (entered : target ∉ around.calls) :
    weight { around with calls := target :: around.calls, callers := site :: around.callers } < weight around := by
  have fewer := uncalled_cons_lt found entered
  simp only [weight, List.length_cons]
  omega

/-- Nodes that are part of a template, of those whose names stand for expressions only. -/
structure Sized (templates : Fields Template) (node : Node) : Prop where
  sets : node.Everywhere SetsExpression fun _ => True
  size : node.size ≤ totalSize templates

theorem Sized.callSite (sized : Sized templates el.toNode) (calls : el.hasAttr callName) :
    Sized templates (callSite el).toNode :=
  ⟨sized.sets.change rfl sized.sets.self.callSite, Nat.le_trans (Nat.le_of_lt (size_callSite_lt calls)) sized.size⟩

theorem Sized.child {child : Node} (sized : Sized templates el.toNode) (member : child ∈ el.children) :
    Sized templates child := by
  have smaller := Node.size_le_sizes member
  have whole := sized.size
  simp only [Element.toNode, Node.size] at whole
  exact ⟨sized.sets.child member, by omega⟩

/-- Nodes that can be expanded at a depth. -/
structure Reached (templates : Fields Template) (depth : Nat) (around : Surroundings) (nodes : List Node) : Prop
    extends Contract.Within templates (Sized templates) around nodes where
  rank : rank around nodes < depth

variable {depth : Nat}

theorem Reached.single {node : Node} (registered : around.templates = templates)
    (callers : ∀ caller ∈ around.callers, Sized templates caller) (sized : Sized templates node)
    (low : weight around * (totalSize templates + 1) + node.size < depth) :
    Reached templates depth around [node] := by
  subst registered
  refine ⟨.single rfl callers sized, ?_⟩
  simpa [Template.rank, Node.sizes] using low

/-- Whatever is expanded with less weight is reached one level below. -/
theorem Reached.below {other : Surroundings} {node : Node} (reached : Reached templates (depth + 1) around nodes)
    (registered : other.templates = templates) (callers : ∀ caller ∈ other.callers, Sized templates caller)
    (sized : Sized templates node) (lighter : weight other < weight around) :
    Reached templates depth other [node] := by
  refine .single registered callers sized ?_
  have high := reached.rank
  rw [Template.rank, reached.registered] at high
  have small := sized.size
  calc
    weight other * (totalSize templates + 1) + node.size
      < (weight other + 1) * (totalSize templates + 1) := by rw [Nat.succ_mul]; omega
    _ ≤ weight around * (totalSize templates + 1) := Nat.mul_le_mul_right _ lighter
    _ ≤ depth := by omega

/-- Names stand for expressions, and an expansion is not cut short. -/
def complete : Contract where
  binding b := ∃ source, b = .expr source
  fault e := e ≠ .endlessContent

/-- A template that may be registered as far as its bound names are concerned. -/
theorem sized_root (sets : ∀ entry ∈ templates, ∀ el ∈ entry.2.root.toNode.elements, SetsExpression el)
    {name : String} {template : Template} (found : templates.get? name = some template) :
    Sized templates template.root.toNode := by
  have member := Fields.mem_of_get? found
  exact ⟨⟨sets _ member, fun _ _ => trivial⟩, size_le_totalSize member⟩

theorem Reached.allows
    (sets : ∀ entry ∈ templates, ∀ el ∈ entry.2.root.toNode.elements, SetsExpression el)
    (reached : Reached templates (depth + 1) around nodes) :
    complete.Allows around (fun node => Sized templates node ∧ node.size ≤ Node.sizes nodes)
      (Reached templates depth) := by
  refine ⟨⟨fun _ _ _ => trivial, fun _ allowed _ => allowed, fun _ _ _ _ => nofun, fun _ _ => .inl nofun,
    fun _ _ => trivial, fun _ _ _ => trivial, fun _ _ _ => trivial, ?child,
    fun el good set => good.1.sets.self.bound set⟩, ?content, ?caller, ?site, ?root⟩
  case child =>
    rintro el ⟨sized, low⟩ child member
    have smaller := Node.size_le_sizes member
    simp only [Element.toNode, Node.size] at low
    exact ⟨sized.child member, by omega⟩
  case content =>
    rintro nodes ⟨source, differ⟩
    cases differ
  case caller =>
    intro caller outer called
    have sized : ∀ n ∈ caller :: outer, Sized templates n := called ▸ reached.callers
    exact reached.below reached.registered (fun n member => sized n (List.mem_cons_of_mem _ member))
      (sized caller List.mem_cons_self) (weight_caller_lt called)
  case site =>
    rintro el ⟨sized, low⟩ calls
    have high := reached.rank
    rw [Template.rank, reached.registered] at high
    have smaller := size_callSite_lt calls
    have weight := Nat.mul_le_mul_right (totalSize templates + 1) (weight_site_le around)
    exact .single reached.registered (List.forall_mem_nil _) (sized.callSite calls) (by omega)
  case root =>
    rintro el target template ⟨sized, low⟩ called found entered
    refine reached.below reached.registered ?_ (sized_root sets (reached.registered ▸ found))
      (weight_root_lt found entered)
    intro n member
    rcases List.mem_cons.mp member with rfl | member
    · exact sized.callSite (Element.hasAttr_of_attr? called)
    · exact reached.callers n member

theorem expand_complete
    (sets : ∀ entry ∈ templates, ∀ el ∈ entry.2.root.toNode.elements, SetsExpression el) (more depth : Nat)
    (reached : Reached templates depth around nodes) :
    complete.Keeps complete.Blocks (expand depth around nodes) (expand (depth + more) around nodes) := by
  refine Contract.expand_keeps (Reached templates) more ?_ ?_ depth around nodes reached
  · intro around nodes reached
    exact absurd reached.rank (Nat.not_lt_zero _)
  · intro depth around nodes reached
    refine ⟨_, fun n member => ⟨reached.members n member, Node.size_le_sizes member⟩, .inl nofun,
      reached.allows sets⟩

/-! ### Compilation -/

theorem rank_lt_expansionDepth {name : String} {template : Template} (found : templates.get? name = some template) :
    rank ⟨templates, [name], []⟩ [template.root.toNode] < expansionDepth templates := by
  have root := size_le_totalSize (Fields.mem_of_get? found)
  have names : (uncalled templates [name]).length ≤ templates.length := by
    have all : templates.names.length = templates.length := List.length_map _
    exact all ▸ List.length_filter_le _ _
  have depth : expansionDepth templates =
      (totalSize templates + 2) * (totalSize templates + 2) * (2 * templates.length + 2) := rfl
  simp only [rank, weight, Node.sizes, List.length_nil, Nat.add_zero]
  rw [depth]
  generalize totalSize templates = total at *
  generalize (uncalled templates [name]).length = fewer at *
  simp only at root
  calc
    2 * fewer * (total + 1) + template.root.toNode.size < (2 * templates.length + 1) * (total + 1) := by
      have scaled := Nat.mul_le_mul_right (total + 1) (Nat.mul_le_mul_left 2 names)
      have product : (2 * templates.length + 1) * (total + 1) = 2 * templates.length * (total + 1) + (total + 1) :=
        Nat.succ_mul _ _
      omega
    _ ≤ (2 * templates.length + 2) * ((total + 2) * (total + 2)) :=
      Nat.mul_le_mul (by omega) (Nat.le_trans (by omega) (Nat.le_mul_of_pos_right (total + 2) (by omega)))
    _ = (total + 2) * (total + 2) * (2 * templates.length + 2) := Nat.mul_comm _ _

/-- Compilation ends whatever templates call each other: where every name that is set stands for an
    expression, it gives a program or fails for a reason in the templates, and to let trees be left more
    often would make no difference. -/
theorem compile_ends (sets : ∀ entry ∈ templates, ∀ el ∈ entry.2.root.toNode.elements, SetsExpression el)
    (cache : Expr.ScopeCache) (name : String) :
    ((∃ program, (Registry.compile templates cache name).1 = .ok program) ∨
      ∃ e, (Registry.compile templates cache name).1 = .error e ∧ e ≠ .endlessContent) ∧
    ∀ template, templates.get? name = some template → ∀ depth, expansionDepth templates ≤ depth →
      expand depth ⟨templates, [name], []⟩ [template.root.toNode] { cache := cache } =
        blocksOf templates name { cache := cache } := by
  cases found : templates.get? name with
  | none =>
    refine ⟨.inr ⟨.templateNotFound name, ?_, by rintro ⟨⟩⟩, by rintro _ ⟨⟩⟩
    rw [Registry.compile, blocksOf, found]
    rfl
  | some template =>
    have start : Reached templates (expansionDepth templates) ⟨templates, [name], []⟩ [template.root.toNode] :=
      .single rfl (List.forall_mem_nil _) (sized_root sets found) (rank_lt_expansionDepth found)
    have kept (more : Nat) := expand_complete sets more _ start { cache := cache } (.start trivial)
    rw [← blocksOf_eq found] at kept
    constructor
    · obtain ⟨-, -, ends⟩ := kept 0
      rw [Registry.compile]
      rcases ran : blocksOf templates name { cache := cache } with ⟨result, progress⟩
      rw [ran] at ends
      cases result with
      | ok blocks => exact .inl ⟨_, rfl⟩
      | error e => exact .inr ⟨e, rfl, ends⟩
    · rintro _ ⟨⟩ depth deep
      obtain ⟨more, rfl⟩ := Nat.exists_eq_add_of_le deep
      exact (kept more).1.symm

/-- Templates that call each other in a circle, with calls in passed content and passed content in calls. -/
def circle : Fields Template :=
  [("page", ⟨"", ⟨"div", [],
      [.element "t" [⟨"t-call", "card"⟩]
        [.element "t" [⟨"t-set", "x"⟩, ⟨"t-value", "y"⟩] [],
         .element "b" [⟨"t-call", "row"⟩] [.element "t" [⟨"t-esc", "x"⟩] []]]]⟩⟩),
   ("card", ⟨"", ⟨"p", [],
      [.element "t" [⟨"t-esc", "0"⟩] [],
       .element "t" [⟨"t-call", "row"⟩] [.element "t" [⟨"t-raw", "0"⟩] []]]⟩⟩),
   ("row", ⟨"", ⟨"i", [⟨"t-if", "z"⟩, ⟨"t-call", "page"⟩], [.element "t" [⟨"t-esc", "0"⟩] []]⟩⟩)]

theorem circle_compile_ends :
    (∀ entry ∈ circle, ∀ el ∈ entry.2.root.toNode.elements, SetsExpression el) ∧
      ((∃ program, (Registry.compile circle [] "page").1 = .ok program) ∨
        ∃ e, (Registry.compile circle [] "page").1 = .error e ∧ e ≠ .endlessContent) ∧
      ∀ template, circle.get? "page" = some template → ∀ depth, expansionDepth circle ≤ depth →
        expand depth ⟨circle, ["page"], []⟩ [template.root.toNode] { cache := [] } =
          blocksOf circle "page" { cache := [] } := by
  have sets : ∀ entry ∈ circle, ∀ el ∈ entry.2.root.toNode.elements, SetsExpression el := by decide
  exact ⟨sets, compile_ends sets [] "page"⟩

end Stencil.Template
