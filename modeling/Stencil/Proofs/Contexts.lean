import Stencil.DataStore
import Stencil.Proofs.Caches
import Stencil.Proofs.Rendering

/-!
Contexts that are shared. Rendering writes the fields of loops into the context that it is given, but leaves none
of them behind, so a holder of a context finds in it what the changes made to that context have put there, whatever
else was changed, copied, registered or rendered in between (`fields_after`).
-/
namespace Stencil

/-! ### Rendering with a context -/

namespace Registry

variable {registry : Registry}

/-- The program that a registry answers with is made of blocks. -/
theorem Current.blocks (current : registry.Current) {name : String} {routine : Routine}
    (answered : (registry.routine name).1 = .ok routine) :
    ∃ blocks, routine.program = Program.ofBlocks blocks := by
  have compiled := (current.routine name).1
  rw [answered] at compiled
  obtain ⟨blocks, -, same⟩ := blocks_of_compile compiled.symm
  exact ⟨blocks, same⟩

theorem Current.render_fields (current : registry.Current) (name : String) (fields : Fields Value) :
    (registry.render name fields).2.2.1 = fields := by
  rw [Registry.render]
  rcases answered : registry.routine name with ⟨result, later, log⟩
  cases result with
  | error e => rfl
  | ok routine =>
    obtain ⟨blocks, same⟩ := current.blocks (congrArg Prod.fst answered)
    simp only [runRoutine, same]
    exact ofBlocks_run_data blocks _ _ fields

theorem Current.renderToString_fields (current : registry.Current) (name : String) (fields : Fields Value) :
    (registry.renderToString name fields).2.2.1 = fields := by
  rw [Registry.renderToString]
  rcases answered : registry.routine name with ⟨result, later, log⟩
  cases result with
  | error e => rfl
  | ok routine =>
    obtain ⟨blocks, same⟩ := current.blocks (congrArg Prod.fst answered)
    simp only [same]
    exact ofBlocks_run_data blocks _ _ fields

end Registry

namespace DataStore

/-! ### One context and the others -/

section fields

variable {store : DataStore} {context : Nat}

theorem fields_create (fields : Fields Value) : (store.create fields).2.fields (store.create fields).1 = fields := by
  simp [create, DataStore.fields]

theorem fields_create_of_lt (known : context < store.contexts.size) (fields : Fields Value) :
    (store.create fields).2.fields context = store.fields context := by
  simp [create, DataStore.fields, Array.getElem?_push_lt known, known]

theorem fields_update (known : context < store.contexts.size) (change : Fields Value → Fields Value) :
    (store.update context change).fields context = change (store.fields context) := by
  simp [update, DataStore.fields, Array.getElem_modify, known]

theorem fields_update_of_ne {other : Nat} (apart : other ≠ context) (change : Fields Value → Fields Value) :
    (store.update other change).fields context = store.fields context := by
  simp [update, DataStore.fields, Array.getElem?_modify, apart]

theorem update_fields (store : DataStore) (context : Nat) :
    (store.update context fun _ => store.fields context) = store := by
  refine congrArg DataStore.mk (Array.ext (by simp) fun i before after => ?_)
  by_cases same : context = i
  · subst same
    simp [Array.getElem_modify, DataStore.fields, after]
  · simp [Array.getElem_modify, same]

/-- A store that lends fields and gets them back unchanged is the same store. -/
theorem lend_store {α : Type} {use : Fields Value → α × Registry × Fields Value × Log}
    (kept : (use (store.fields context)).2.2.1 = store.fields context) : (store.lend context use).2.2.1 = store := by
  simp only [lend, kept, update_fields]

end fields

/-! ### Holders -/

/-- What a holder of contexts does to them, and to the registry that renders with them. -/
inductive Deed where
  | create (fields : Fields Value)
  | copy (context : Nat)
  | update (context : Nat) (change : Fields Value → Fields Value)
  | call (call : Registry.Call)
  | render (name : String) (context : Nat)
  | renderToString (name : String) (context : Nat)

/-- The registry and the contexts after a deed. -/
def perform (state : Registry × DataStore) : Deed → Registry × DataStore
  | .create fields => (state.1, (state.2.create fields).2)
  | .copy context => (state.1, (state.2.copy context).2)
  | .update context change => (state.1, state.2.update context change)
  | .call call => (state.1.perform call, state.2)
  | .render name context =>
    let (_, registry, store, _) := state.2.render name context state.1
    (registry, store)
  | .renderToString name context =>
    let (_, registry, store, _) := state.2.renderToString name context state.1
    (registry, store)

/-- The change that a deed is meant to make to a context. -/
def Deed.change? (context : Nat) : Deed → Option (Fields Value → Fields Value)
  | .update other change => if other = context then some change else none
  | _ => none

/-- Fields after the changes that deeds are meant to make to their context. -/
def changed (context : Nat) (deeds : List Deed) (fields : Fields Value) : Fields Value :=
  (deeds.filterMap (Deed.change? context)).foldl (fun fields change => change fields) fields

section holders

variable {registry : Registry} {store : DataStore} {context : Nat}

theorem perform_current (current : registry.Current) (deed : Deed) : (perform (registry, store) deed).1.Current := by
  cases deed with
  | create fields => exact current
  | copy other => exact current
  | update other change => exact current
  | call call => exact current.perform call
  | render name other => exact current.perform (.render name (store.fields other))
  | renderToString name other => exact current.perform (.renderToString name (store.fields other))

/-- A deed keeps all contexts there are, and changes a context only as it is meant to. -/
theorem perform_fields (current : registry.Current) (known : context < store.contexts.size) (deed : Deed) :
    context < (perform (registry, store) deed).2.contexts.size ∧
      (perform (registry, store) deed).2.fields context = changed context [deed] (store.fields context) := by
  cases deed with
  | create fields => exact ⟨by simp [perform, create]; omega, fields_create_of_lt known fields⟩
  | copy other => exact ⟨by simp [perform, copy, create]; omega, fields_create_of_lt known _⟩
  | update other change =>
    refine ⟨by simpa [perform, update] using known, ?_⟩
    by_cases same : other = context
    · subst same
      simp [perform, changed, Deed.change?, fields_update known]
    · simp [perform, changed, Deed.change?, same, fields_update_of_ne same]
  | call call => exact ⟨known, rfl⟩
  | render name other =>
    have kept : (store.render name other registry).2.2.1 = store := lend_store (current.render_fields name _)
    simp only [perform, kept]
    exact ⟨known, rfl⟩
  | renderToString name other =>
    have kept : (store.renderToString name other registry).2.2.1 = store :=
      lend_store (current.renderToString_fields name _)
    simp only [perform, kept]
    exact ⟨known, rfl⟩

/-- Every holder of a context finds in it what the changes made to that context have put there, in their order.
    Nothing that is done to other contexts or copies, or with the registry, makes a difference, and no rendering
    leaves a trace. -/
theorem fields_after (current : registry.Current) (known : context < store.contexts.size) (deeds : List Deed) :
    (deeds.foldl perform (registry, store)).2.fields context = changed context deeds (store.fields context) := by
  induction deeds generalizing registry store with
  | nil => rfl
  | cons deed rest ih =>
    obtain ⟨known', once⟩ := perform_fields current known deed
    rw [List.foldl_cons, ih (perform_current current deed) known', once, changed, changed, changed, ← List.foldl_append,
      ← List.filterMap_append, List.singleton_append]

/-- A copy starts with the fields of the context that it was made of, and from then on each goes its own way. -/
theorem fields_after_copy (current : registry.Current) (known : context < store.contexts.size) (deeds : List Deed) :
    (deeds.foldl perform (registry, (store.copy context).2)).2.fields (store.copy context).1 =
        changed (store.copy context).1 deeds (store.fields context) ∧
      (deeds.foldl perform (registry, (store.copy context).2)).2.fields context =
        changed context deeds (store.fields context) := by
  have made : (store.copy context).1 < (store.copy context).2.contexts.size := by simp [copy, create]
  have kept : context < (store.copy context).2.contexts.size := by simp [copy, create]; omega
  refine ⟨?_, ?_⟩
  · rw [fields_after current made, copy, fields_create]
  · rw [fields_after current kept, copy, fields_create_of_lt known]

end holders

end DataStore

end Stencil
