import Stencil.Proofs.Fields
import Stencil.Proofs.Stateful
import Stencil.Template.Expansion

/-!
What an expansion depends on. Scoped texts that were worked out before make no difference to its result
as long as they are right, and they stay right; nor does the order of the registered templates, but only
what stands under each name. Expansions that differ in no more than that are alike.
-/
namespace Stencil

/-- Every entry is the scoped form of its source. -/
def Expr.ScopeCache.Faithful (cache : Expr.ScopeCache) : Prop :=
  ∀ entry ∈ cache, entry.2 = Expr.scopedText entry.1

theorem Expr.ScopeCache.faithful_nil : Expr.ScopeCache.Faithful [] := by
  simp [Faithful]

theorem Expr.ScopeCache.Faithful.scopedText {cache : Expr.ScopeCache} (faithful : cache.Faithful)
    (source : String) :
    (cache.scopedText source).1 = Expr.scopedText source ∧ (cache.scopedText source).2.Faithful := by
  rw [ScopeCache.scopedText]
  cases found : cache.get? source with
  | some form => exact ⟨faithful _ (Fields.mem_of_get? found), faithful⟩
  | none =>
    refine ⟨rfl, fun entry member => ?_⟩
    rcases Fields.mem_of_mem_set member with rfl | member
    · rfl
    · exact faithful entry member

namespace Template

open Markup (Attribute Element Node)
open Stateful

variable {α β : Type}

/-! ### Steps that are alike -/

/-- States with the same bindings, whose caches are right. -/
structure Progress.Agree (p q : Progress) : Prop where
  scope : p.scope = q.scope
  left : p.cache.Faithful
  right : q.cache.Faithful

/-- Steps with the same result that go on agreeing. -/
def Alike (x y : Expand α) : Prop :=
  ∀ p q, p.Agree q → (x p).1 = (y q).1 ∧ (x p).2.Agree (y q).2

theorem Alike.pure (a : α) : Alike (pure a : Expand α) (pure a) :=
  fun _ _ agree => ⟨rfl, agree⟩

theorem Alike.throw (e : CompileError) : Alike (throw e : Expand α) (throw e) :=
  fun _ _ agree => ⟨rfl, agree⟩

theorem Alike.bind {x y : Expand α} {f g : α → Expand β} (first : Alike x y) (second : ∀ a, Alike (f a) (g a)) :
    Alike (x >>= f) (y >>= g) := by
  intro p q agree
  obtain ⟨same, after⟩ := first p q agree
  rcases left : x p with ⟨result, p'⟩
  rcases right : y q with ⟨result', q'⟩
  rw [left, right] at same after
  cases same
  cases result with
  | error e =>
    rw [bind_error left, bind_error right]
    exact ⟨rfl, after⟩
  | ok a =>
    rw [bind_ok left, bind_ok right]
    exact second a p' q' after

theorem Alike.get {f g : Progress → Expand α} (alike : ∀ p q, p.scope = q.scope → Alike (f p) (g q)) :
    Alike (get >>= f) (get >>= g) :=
  fun p q agree => alike p q agree.scope p q agree

theorem Alike.ite {c : Prop} [Decidable c] {x y x' y' : Expand α} (yes : Alike x x') (no : Alike y y') :
    Alike (if c then x else y) (if c then x' else y') := by
  split
  · exact yes
  · exact no

theorem Alike.unless {x y : Expand α} (alike : Alike x y) (c : Prop) [Decidable c] :
    Option.Rel Alike (if c then none else some x) (if c then none else some y) := by
  split
  · exact .none
  · exact .some alike

theorem record_alike (level : Level) (target message : String) :
    Alike (record level target message) (record level target message) :=
  fun _ _ agree => ⟨rfl, agree.scope, agree.left, agree.right⟩

theorem bindName_alike (name : String) (binding : Binding) : Alike (bindName name binding) (bindName name binding) :=
  fun _ _ agree => ⟨rfl, congrArg (Scope.bind name binding) agree.scope, agree.left, agree.right⟩

theorem Alike.isolated {x y : Expand α} (alike : Alike x y) : Alike (isolated x) (isolated y) := by
  intro p q agree
  obtain ⟨same, after⟩ := alike { p with scope := {} } { q with scope := {} } ⟨rfl, agree.left, agree.right⟩
  refine ⟨?_, agree.scope, after.left, after.right⟩
  show Except.map (·, (x { p with scope := {} }).2.scope) (x { p with scope := {} }).1 =
    Except.map (·, (y { q with scope := {} }).2.scope) (y { q with scope := {} }).1
  rw [same, after.scope]

theorem Alike.withLayer {x y : Expand α} (alike : Alike x y) (bindings : Bindings) :
    Alike (withLayer bindings x) (withLayer bindings y) := by
  intro p q agree
  obtain ⟨same, after⟩ := alike { p with scope := p.scope.push bindings } { q with scope := q.scope.push bindings }
    ⟨congrArg (Scope.push bindings) agree.scope, agree.left, agree.right⟩
  exact ⟨same, congrArg Scope.pop after.scope, after.left, after.right⟩

theorem expression_alike (source : String) : Alike (expression source) (expression source) := by
  intro p q agree
  obtain ⟨left, keptLeft⟩ := agree.left.scopedText source
  obtain ⟨right, keptRight⟩ := agree.right.scopedText source
  have after : Progress.Agree { p with cache := (p.cache.scopedText source).2 }
      { q with cache := (q.cache.scopedText source).2 } := ⟨agree.scope, keptLeft, keptRight⟩
  simp only [expression, bind_apply, get_apply, set_apply, left, right]
  cases Expression.ofScopedText (Expr.scopedText source) with
  | ok e => exact ⟨rfl, after⟩
  | error e => exact ⟨rfl, after⟩

/-! ### Attributes and bindings -/

theorem attributeParts_alike (pieces : List Piece) : Alike (attributeParts pieces) (attributeParts pieces) := by
  induction pieces with
  | nil => exact .pure []
  | cons piece rest ih =>
    cases piece with
    | literal s => exact ih.bind fun _ => .pure _
    | expr s => exact (expression_alike _).bind fun _ => ih.bind fun _ => .pure _

theorem attributeAction_alike (a : Attribute) : Alike (attributeAction a) (attributeAction a) := by
  rw [attributeAction]
  split
  · exact .pure _
  · exact (expression_alike _).bind fun _ => .pure _
  · exact (attributeParts_alike _).bind fun _ => .pure _
  · exact (expression_alike _).bind fun _ => .pure _
  · exact .pure _
  · exact .pure _

theorem attributeActions_alike (attributes : List Attribute) :
    Alike (attributeActions attributes) (attributeActions attributes) := by
  induction attributes with
  | nil => exact .pure []
  | cons a rest ih => exact (attributeAction_alike a).bind fun _ => ih.bind fun _ => .pure _

theorem conditionOf_alike (condition : String) : Alike (conditionOf condition) (conditionOf condition) := by
  refine .get fun p q same => ?_
  rw [same]
  split
  · exact expression_alike _
  · exact expression_alike _

theorem bindFrom_alike (el : Element) : Alike (bindFrom el) (bindFrom el) := by
  rw [bindFrom]
  split
  · exact .pure ()
  · split
    · exact .ite (bindName_alike _ _) (bindName_alike _ _)
    · exact bindName_alike _ _

/-! ### Nodes -/

/-- Surroundings with the same callers, in which every name stands for the same template. -/
structure Surroundings.Agree (a b : Surroundings) : Prop where
  templates : ∀ name, a.templates.get? name = b.templates.get? name
  calls : a.calls = b.calls
  callers : a.callers = b.callers

/-- Expansions that are alike in surroundings that agree. -/
def Descend.Alike (descend descend' : Descend) : Prop :=
  ∀ a b, a.Agree b → ∀ nodes, Template.Alike (descend a nodes) (descend' b nodes)

section nodes

variable {descend descend' : Descend} {around around' : Surroundings}

theorem Surroundings.Agree.inside (agree : around.Agree around') (calls : List String) (callers : List Node) :
    Surroundings.Agree ⟨around.templates, calls, callers⟩ ⟨around'.templates, calls, callers⟩ :=
  ⟨agree.templates, rfl, rfl⟩

theorem inclusion_alike (below : descend.Alike descend') (agree : around.Agree around') (el : Element)
    (target : String) : Alike (inclusion descend around el target) (inclusion descend' around' el target) := by
  rw [inclusion, inclusion, agree.templates, agree.calls, agree.callers]
  split
  case h_1 => exact .throw _
  case h_2 template _ =>
    refine .ite ((Alike.throw _).bind fun _ => ?_) ?_
    all_goals
      refine (below _ _ (agree.inside _ _) _).isolated.bind fun (_, scope) => ?_
      refine (record_alike _ _ _).bind fun _ => ?_
      exact (below _ _ (agree.inside _ _) _).withLayer scope.innermost

theorem emission_alike (below : descend.Alike descend') (agree : around.Agree around') (escape : Bool)
    {fallback fallback' : Option (Expand (List Block))} (others : Option.Rel Alike fallback fallback')
    (source : String) :
    Alike (emission descend around escape fallback source) (emission descend' around' escape fallback' source) := by
  refine .get fun p q same => ?_
  have callers : ∀ source, callerOf around source = callerOf around' source := fun source => by
    rw [callerOf, callerOf, agree.callers]
  rw [same]
  split
  case h_1 nodes _ => exact below _ _ agree nodes
  case h_2 source _ =>
    rw [callers]
    split
    case h_1 caller outer _ =>
      rw [agree.calls]
      exact below _ _ (agree.inside _ outer) _
    case h_2 =>
      refine (expression_alike source).bind fun value => ?_
      cases others with
      | none => exact .pure _
      | some other => exact other.bind fun _ => .pure _

theorem emissions_alike (below : descend.Alike descend') (agree : around.Agree around')
    {fallback fallback' : Option (Expand (List Block))} (others : Option.Rel Alike fallback fallback')
    (el : Element) :
    Alike (emissions descend around fallback el) (emissions descend' around' fallback' el) := by
  have emitted (escape : Bool) (source : String) := emission_alike below agree escape others source
  rw [emissions, emissions]
  split
  · refine (emitted true _).bind fun escaped => ?_
    dsimp only
    split
    · exact (emitted false _).bind fun _ => .pure _
    · exact (Alike.pure []).bind fun _ => .pure _
  · refine (Alike.pure []).bind fun escaped => ?_
    dsimp only
    split
    · exact (emitted false _).bind fun _ => .pure _
    · exact (Alike.pure []).bind fun _ => .pure _

mutual

theorem siblings_alike (below : descend.Alike descend') (agree : around.Agree around') (opened : Bool) :
    ∀ nodes, Alike (siblings descend around opened nodes) (siblings descend' around' opened nodes)
  | [] => .pure _
  | node :: rest => by
    have first := nodeBlocks_alike below agree node
    have others (opened : Bool) := siblings_alike below agree opened rest
    rw [siblings, siblings]
    split
    case h_1 => exact first.bind fun _ => (others false).bind fun _ => .pure _
    case h_2 condition _ =>
      exact (conditionOf_alike condition).bind fun _ => first.bind fun _ => (others true).bind fun _ => .pure _
    case h_3 condition _ =>
      have body := (conditionOf_alike condition).bind fun test => first.bind fun body => (others true).bind fun row =>
        .pure (Row.mk (.when test body row.chain) row.blocks)
      exact .ite ((Alike.throw _).bind fun _ => body) body
    case h_4 =>
      have body := first.bind fun body => (others false).bind fun row => .pure (Row.mk (.otherwise body) row.blocks)
      exact .ite ((Alike.throw _).bind fun _ => body) body

theorem nodeBlocks_alike (below : descend.Alike descend') (agree : around.Agree around') :
    ∀ node, Alike (nodeBlocks descend around node) (nodeBlocks descend' around' node)
  | .text _ => .pure _
  | .element name attributes children => by
    have body := (siblings_alike below agree false children).bind fun row => .pure row.blocks
    have emitted := emissions_alike below agree (body.unless (children.isEmpty = true)) ⟨name, attributes, children⟩
    rw [nodeBlocks, nodeBlocks]
    split
    case h_1 source _ =>
      split
      case h_1 => exact .throw _
      case h_2 item _ => exact (expression_alike source).bind fun _ => body.bind fun _ => .pure _
    case h_2 =>
      split
      case h_1 target _ => exact inclusion_alike below agree _ target
      case h_2 =>
        refine (bindFrom_alike _).bind fun _ => .ite ?_ ?_
        · exact emitted.bind fun _ => .ite (.pure _) (body.bind fun _ => .pure _)
        · refine (attributeActions_alike attributes).bind fun actions => .ite ?_ ?_
          · exact (Alike.pure []).bind fun _ => emitted.bind fun _ => .pure _
          · exact body.bind fun _ => emitted.bind fun _ => .pure _
  | .comment _ | .cdata _ | .instruction _ _ => .throw _

end

theorem expand_alike (depth : Nat) : Descend.Alike (expand depth) (expand depth) := by
  induction depth with
  | zero => exact fun _ _ _ _ => .throw _
  | succ depth ih =>
    intro a b agree nodes
    exact (siblings_alike ih agree false nodes).bind fun row => .pure row.blocks

end nodes

/-! ### Templates -/

section templates

variable {templates templates' : Fields Template}

theorem expansionDepth_of_perm (perm : templates.Perm templates') :
    expansionDepth templates = expansionDepth templates' := by
  have size := perm.foldr_eq' (f := fun entry total => entry.2.root.toNode.size + total)
    (fun _ _ _ _ _ => Nat.add_left_comm _ _ _) 0
  rw [expansionDepth, expansionDepth, size, perm.length_eq]

/-- Expanding a template depends on what stands under each name, and on nothing else. -/
theorem blocksOf_alike (distinct : templates.names.Nodup) (distinct' : templates'.names.Nodup)
    (same : ∀ name, templates.get? name = templates'.get? name) (name : String) :
    Alike (blocksOf templates name) (blocksOf templates' name) := by
  rw [blocksOf, blocksOf, same, expansionDepth_of_perm (Fields.perm_of_get? distinct distinct' same)]
  split
  · exact .throw _
  · have agree : Surroundings.Agree ⟨templates, [name], []⟩ ⟨templates', [name], []⟩ := ⟨same, rfl, rfl⟩
    exact expand_alike _ _ _ agree _

end templates

end Template

end Stencil
