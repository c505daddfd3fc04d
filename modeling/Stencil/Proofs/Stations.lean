import Mathlib.Logic.Relation
import Stencil.Assembler

/-!
What is seen from stations. Stations share layers of bindings by number, yet each sees a scope: to bind a name from a
station is `Scope.bind`, to go into a new layer is `Scope.push`, and nothing else that is done from any station changes
what a station sees, unless a name is bound in one of its layers. This holds of every assembler that can be reached,
since a layer lies inside of layers that were there before it (`Layered`).
-/
namespace Stencil.Assembler

open Relation (ReflTransGen)
open Template (Binding Bindings Scope)

/-- Every layer lies inside of one that was there before it. -/
def Layered (a : Assembler) : Prop :=
  ∀ (index : Nat) (layer : Layer), a.layers[index]? = some layer → ∀ outer ∈ layer.outer, outer < index

/-! ### Layers -/

section layers

variable {a b : Assembler} {s t : Station} {index n m : Nat}

theorem bindingsFrom_none (a : Assembler) (n : Nat) : a.bindingsFrom n none = [] := by
  cases n <;> rfl

/-- The count only has to exceed the number of the layer. -/
theorem Layered.bindingsFrom_eq (layered : a.Layered) (first : index < n) (second : index < m) :
    a.bindingsFrom n (some index) = a.bindingsFrom m (some index) := by
  induction index using Nat.strongRecOn generalizing n m with
  | ind index ih =>
    obtain ⟨n, rfl⟩ := Nat.exists_eq_add_one.mpr (Nat.zero_lt_of_lt first)
    obtain ⟨m, rfl⟩ := Nat.exists_eq_add_one.mpr (Nat.zero_lt_of_lt second)
    simp only [bindingsFrom]
    cases found : a.layers[index]? with
    | none => rfl
    | some layer =>
      cases inside : layer.outer with
      | none => simp only [inside, bindingsFrom_none]
      | some outer =>
        have before := layered index layer found outer inside
        simp only [inside, ih outer before (show outer < n by omega) (show outer < m by omega)]

/-- What is seen from a layer depends on the layers up to it only. -/
theorem Layered.bindingsFrom_congr (layered : a.Layered) (same : ∀ i ≤ index, b.layers[i]? = a.layers[i]?) (n : Nat) :
    b.bindingsFrom n (some index) = a.bindingsFrom n (some index) := by
  induction n generalizing index with
  | zero => rfl
  | succ n ih =>
    simp only [bindingsFrom, same index (Nat.le_refl _)]
    cases found : a.layers[index]? with
    | none => rfl
    | some layer =>
      cases inside : layer.outer with
      | none => simp only [inside, bindingsFrom_none]
      | some outer =>
        have before := layered index layer found outer inside
        have rest := @ih outer fun i below => same i (Nat.le_trans below (Nat.le_of_lt before))
        simp only [inside, rest]

theorem Layered.bindingsFrom_cons (layered : a.Layered) {layer : Layer} (found : a.layers[index]? = some layer) :
    a.bindingsFrom a.layers.size (some index) = layer.bindings :: a.bindingsFrom index layer.outer := by
  have known : index < a.layers.size := (Array.getElem?_eq_some_iff.mp found).1
  rw [layered.bindingsFrom_eq known (Nat.lt_succ_self _)]
  simp only [bindingsFrom, found]

theorem Layered.scope_eq (layered : a.Layered) {layer : Layer} (found : a.layers[s.layer]? = some layer) :
    a.scope s = ⟨layer.bindings, a.bindingsFrom s.layer layer.outer⟩ := by
  rw [scope, layered.bindingsFrom_cons found]

theorem Layered.layers_scope (layered : a.Layered) (known : s.layer < a.layers.size) :
    (a.scope s).layers = a.bindingsFrom a.layers.size (some s.layer) := by
  rw [scope, layered.bindingsFrom_cons (Array.getElem?_eq_getElem known)]
  rfl

theorem Layered.scope_congr (layered : a.Layered) (known : s.layer < a.layers.size)
    (same : ∀ i ≤ s.layer, b.layers[i]? = a.layers[i]?) : b.scope s = a.scope s := by
  have known' : s.layer < b.layers.size := by
    have found := same s.layer (Nat.le_refl _)
    rw [Array.getElem?_eq_getElem known] at found
    exact (Array.getElem?_eq_some_iff.mp found).1
  rw [scope, scope, layered.bindingsFrom_congr same, layered.bindingsFrom_eq known' known]

end layers

/-! ### Steps -/

/-- What is done from stations: a name is bound, a new layer or a new station is made, or lines are changed. -/
inductive Step (a : Assembler) : Assembler → Prop
  | bind (s : Station) (name : String) (binding : Binding) : Step a (a.bind name binding s)
  | layer (s : Station) (bindings : Bindings) (known : s.layer < a.layers.size) :
      Step a (a.withVariables bindings s).2
  | station (calls : List String) : Step a (a.station calls).2
  | lines (s : Station) (change : Draft → Draft) : Step a (a.changeDraft s change)

section steps

variable {a b : Assembler} {s : Station}

theorem layers_bind (a : Assembler) (s : Station) (name : String) (binding : Binding) (i : Nat) :
    (a.bind name binding s).layers[i]? =
      if s.layer = i then a.layers[i]?.map fun l => { l with bindings := l.bindings.set name binding }
      else a.layers[i]? :=
  Array.getElem?_modify

theorem layers_push {layer : Layer} {i : Nat} (old : i < a.layers.size) :
    (a.layers.push layer)[i]? = a.layers[i]? := by
  rw [Array.getElem?_push, if_neg (Nat.ne_of_lt old)]

theorem Layered.push (layered : a.Layered) {layer : Layer} (inside : ∀ outer ∈ layer.outer, outer < a.layers.size) :
    Layered { a with layers := a.layers.push layer } := by
  intro i found there
  rw [Array.getElem?_push] at there
  split at there
  · next last =>
    cases there
    exact last ▸ inside
  · exact layered i found there

theorem Step.layered (step : Step a b) (layered : a.Layered) : b.Layered := by
  cases step with
  | bind t name binding =>
    intro i layer there
    rw [layers_bind] at there
    split at there
    · obtain ⟨before, found, rfl⟩ := Option.map_eq_some_iff.mp there
      exact layered i before found
    · exact layered i layer there
  | layer t bindings known =>
    refine layered.push ?_
    rintro outer ⟨⟩
    exact known
  | station calls => exact layered.push (by rintro outer ⟨⟩)
  | lines t change => exact layered

theorem layered_of_reached (reached : ReflTransGen Step {} a) : a.Layered := by
  induction reached with
  | refl => simp [Layered]
  | tail _ step ih => exact step.layered ih

theorem Layered.scope_bind (layered : a.Layered) (known : s.layer < a.layers.size) (name : String)
    (binding : Binding) : (a.bind name binding s).scope s = (a.scope s).bind name binding := by
  have found := Array.getElem?_eq_getElem known
  have changed := layers_bind a s name binding s.layer
  rw [if_pos rfl, found] at changed
  rw [(Step.bind s name binding).layered layered |>.scope_eq changed, layered.scope_eq found, Scope.bind]
  -- the layers outside lie before the one that is changed
  cases inside : a.layers[s.layer].outer with
  | none => simp only [bindingsFrom_none]
  | some outer =>
    have before := layered _ _ found outer inside
    have same : ∀ i ≤ outer, (a.bind name binding s).layers[i]? = a.layers[i]? := by
      intro i below
      rw [layers_bind, if_neg (by omega)]
    simp only [layered.bindingsFrom_congr same]

theorem Layered.scope_withVariables (layered : a.Layered) (known : s.layer < a.layers.size) (bindings : Bindings) :
    (a.withVariables bindings s).2.scope (a.withVariables bindings s).1 = (a.scope s).push bindings := by
  let made := a.withVariables bindings s
  have found : made.2.layers[made.1.layer]? = some ⟨bindings, some s.layer⟩ := Array.getElem?_push_size
  have old : ∀ i ≤ s.layer, made.2.layers[i]? = a.layers[i]? := fun i below => layers_push (by omega)
  rw [(Step.layer s bindings known).layered layered |>.scope_eq found, layered.bindingsFrom_congr old, Scope.push,
    layered.layers_scope known]
  rfl

theorem Layered.scope_station (layered : a.Layered) (calls : List String) :
    (a.station calls).2.scope (a.station calls).1 = {} := by
  have found : (a.station calls).2.layers[(a.station calls).1.layer]? = some {} := Array.getElem?_push_size
  rw [(Step.station calls).layered layered |>.scope_eq found, bindingsFrom_none]

/-- Only names that are bound in a layer of its own or one that was there before can make a difference to a station. -/
theorem Step.scope_cases (step : Step a b) (layered : a.Layered) (known : s.layer < a.layers.size) :
    b.scope s = a.scope s ∨ ∃ t name binding, b = a.bind name binding t ∧ t.layer ≤ s.layer := by
  cases step with
  | bind t name binding =>
    by_cases near : t.layer ≤ s.layer
    · exact .inr ⟨t, name, binding, rfl, near⟩
    · refine .inl (layered.scope_congr known fun i below => ?_)
      rw [layers_bind, if_neg (by omega)]
  | layer t bindings _ => exact .inl (layered.scope_congr known fun i below => layers_push (by omega))
  | station calls => exact .inl (layered.scope_congr known fun i below => layers_push (by omega))
  | lines t change => exact .inl (layered.scope_congr known fun _ _ => rfl)

end steps

/-- From every station that has a layer, a scope is seen on which binding and new layers act as on any scope, and
    nothing but a binding in a layer of its own or in one before it changes it. A new station sees none of it. -/
theorem sees_scope {a : Assembler} {s : Station} (reached : ReflTransGen Step {} a)
    (known : s.layer < a.layers.size) :
    (∀ name binding, (a.bind name binding s).scope s = (a.scope s).bind name binding) ∧
    (∀ bindings, (a.withVariables bindings s).2.scope (a.withVariables bindings s).1 = (a.scope s).push bindings) ∧
    (∀ b, Step a b → b.scope s = a.scope s ∨ ∃ t name binding, b = a.bind name binding t ∧ t.layer ≤ s.layer) ∧
    ∀ calls, (a.station calls).2.scope (a.station calls).1 = {} := by
  have layered := layered_of_reached reached
  exact ⟨layered.scope_bind known, layered.scope_withVariables known, fun b step => step.scope_cases layered known,
    layered.scope_station⟩

end Stencil.Assembler
