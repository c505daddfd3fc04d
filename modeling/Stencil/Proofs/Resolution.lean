import Mathlib.Data.Finset.Card
import Mathlib.Dynamics.PeriodicPts.Defs
import Stencil.Proofs.Contract

/-!
What a name stands for in the end. The bindings of a scope to expressions lead from a name to a next one, and so
on (`chain`). Such a chain ends at captured content or at a string that is not bound, or it enters a cycle, and
`Leads` says what the name stands for in each case. The search finds just that: it remembers the names that it
has followed (`Trail`), stops at the first one that it meets again, and follows every bound name at most once
(`exists_search`).
-/
namespace Stencil.Template.Scope

open Function (IsPeriodicPt periodicPts mem_periodicPts mk_mem_periodicPts)

/-! ### Chains of bindings -/

/-- The expression that a name is bound to. -/
def next? (scope : Scope) (name : String) : Option String :=
  match scope.lookup name with
  | some (.expr next) => some next
  | _ => none

/-- One binding further, if there is one. -/
def follow (scope : Scope) (name : Option String) : Option String :=
  name.bind scope.next?

/-- What stands `k` bindings behind a name. -/
def chain (scope : Scope) (name : String) (k : Nat) : Option String :=
  scope.follow^[k] (some name)

/-- The bindings lead from the name back to it. -/
def Circular (scope : Scope) (name : String) : Prop :=
  some name ∈ periodicPts scope.follow

/-- What a name stands for: the content that its chain reaches, the string that is not bound at the end of the
    chain, or the first name of the chain on a cycle. -/
inductive Leads (scope : Scope) (name : String) : Binding → Prop where
  | content {k last nodes} (reached : scope.chain name k = some last)
      (captured : scope.lookup last = some (.content nodes)) : Leads scope name (.content nodes)
  | unbound {k last} (reached : scope.chain name k = some last) (free : scope.lookup last = none) :
      Leads scope name (.expr last)
  | circle {k first} (reached : scope.chain name k = some first) (circular : scope.Circular first)
      (before : ∀ j < k, ∀ other, scope.chain name j = some other → ¬ scope.Circular other) :
      Leads scope name (.expr first)

/-- The names that are bound in some layer. -/
def boundNames (scope : Scope) : Finset String :=
  (scope.layers.flatten.map Prod.fst).toFinset

section chains

variable {scope : Scope} {name last other : String} {j k : Nat}

theorem next?_eq_some {next : String} : scope.next? name = some next ↔ scope.lookup name = some (.expr next) := by
  unfold next?
  split <;> simp_all

theorem next?_of_content {nodes : List Markup.Node} (captured : scope.lookup name = some (.content nodes)) :
    scope.next? name = none := by
  simp [next?, captured]

theorem next?_of_free (free : scope.lookup name = none) : scope.next? name = none := by
  simp [next?, free]

theorem chain_succ : scope.chain name (k + 1) = scope.follow (scope.chain name k) :=
  Function.iterate_succ_apply' ..

theorem chain_add (reached : scope.chain name k = some other) : scope.chain name (j + k) = scope.chain other j := by
  rw [chain, Function.iterate_add_apply, ← chain, reached, chain]

theorem chain_of_none (ended : scope.chain name k = none) (later : k ≤ j) : scope.chain name j = none := by
  induction later with
  | refl => exact ended
  | step _ ih => rw [chain_succ, ih, follow, Option.bind_none]

/-- A chain ends at a string that is bound to no expression. -/
theorem le_of_ends (reached : scope.chain name k = some last) (ends : scope.next? last = none)
    (further : scope.chain name j = some other) : j ≤ k := by
  by_contra beyond
  have ended : scope.chain name (k + 1) = none := by
    rw [chain_succ, reached, follow, Option.bind_some, ends]
  rw [chain_of_none ended (by omega)] at further
  cases further

/-- A cycle is never left. -/
theorem Circular.goesOn (circular : scope.Circular name) (k : Nat) : ∃ other, scope.chain name k = some other := by
  rw [← Option.isSome_iff_exists, ← Option.ne_none_iff_isSome]
  intro ended
  obtain ⟨n, positive, back⟩ := mem_periodicPts.mp circular
  have again : scope.chain name (n * k) = some name := back.mul_const k
  rw [chain_of_none ended (Nat.le_mul_of_pos_left k positive)] at again
  cases again

theorem not_circular_of_ends (reached : scope.chain name k = some last) (ends : scope.next? last = none)
    (further : scope.chain name j = some other) : ¬ scope.Circular other := by
  intro circular
  obtain ⟨later, more⟩ := circular.goesOn (k + 1)
  rw [← chain_add further] at more
  have bounded := le_of_ends reached ends more
  omega

theorem same_of_ends {k' : Nat} {last' : String} (reached : scope.chain name k = some last)
    (ends : scope.next? last = none) (reached' : scope.chain name k' = some last') (ends' : scope.next? last' = none) :
    last = last' := by
  have same : k = k' := Nat.le_antisymm (le_of_ends reached' ends' reached) (le_of_ends reached ends reached')
  rw [same, reached'] at reached
  exact (Option.some.inj reached).symm

/-- What a name stands for is determined. -/
theorem Leads.unique {b b' : Binding} (first : scope.Leads name b) (second : scope.Leads name b') : b = b' := by
  cases first with
  | content reached captured =>
    have ends := next?_of_content captured
    cases second with
    | content reached' captured' =>
      rw [← same_of_ends reached ends reached' (next?_of_content captured'), captured] at captured'
      exact Option.some.inj captured'
    | unbound reached' free =>
      rw [← same_of_ends reached ends reached' (next?_of_free free), captured] at free
      cases free
    | circle reached' circular => exact absurd circular (not_circular_of_ends reached ends reached')
  | unbound reached free =>
    have ends := next?_of_free free
    cases second with
    | content reached' captured =>
      rw [← same_of_ends reached ends reached' (next?_of_content captured), free] at captured
      cases captured
    | unbound reached' free' => rw [same_of_ends reached ends reached' (next?_of_free free')]
    | circle reached' circular => exact absurd circular (not_circular_of_ends reached ends reached')
  | @circle k name reached circular before =>
    cases second with
    | content reached' captured =>
      exact absurd circular (not_circular_of_ends reached' (next?_of_content captured) reached)
    | unbound reached' free => exact absurd circular (not_circular_of_ends reached' (next?_of_free free) reached)
    | @circle k' name' reached' circular' before' =>
      have same : k = k' := by
        rcases Nat.lt_trichotomy k k' with less | same | less
        · exact absurd circular (before' k less name reached)
        · exact same
        · exact absurd circular' (before k' less name' reached')
      rw [same, reached'] at reached
      rw [Option.some.inj reached]

end chains

/-! ### The search -/

/-- The search from a name when `seen` were followed: it follows so many bindings and ends with what the name
    stands for. -/
inductive Search (scope : Scope) : List String → String → Nat → Binding → Prop where
  | unbound {seen name} (free : scope.lookup name = none) : Search scope seen name 0 (.expr name)
  | content {seen name nodes} (captured : scope.lookup name = some (.content nodes)) :
      Search scope seen name 0 (.content nodes)
  | circle {seen name next} (bound : scope.lookup name = some (.expr next)) (again : name ∈ seen) :
      Search scope seen name 0 (.expr name)
  | step {seen name next steps b} (bound : scope.lookup name = some (.expr next)) (fresh : name ∉ seen)
      (rest : Search scope (name :: seen) next steps b) : Search scope seen name (steps + 1) b

/-- The names in `seen`, the last one first, are those that lead from `start` to `name`, each of them once. -/
structure Trail (scope : Scope) (start : String) (seen : List String) (name : String) : Prop where
  reached : scope.chain start seen.length = some name
  passed : ∀ j < seen.length, scope.chain start j = seen.reverse[j]?
  distinct : seen.Nodup

section search

variable {scope : Scope} {seen : List String} {start name : String} {steps : Nat} {b : Binding}

theorem mem_boundNames (bound : scope.lookup name = some b) : name ∈ scope.boundNames := by
  obtain ⟨layer, inside, member⟩ := mem_of_lookup bound
  simp only [boundNames, List.mem_toFinset, List.mem_map, List.mem_flatten]
  exact ⟨_, ⟨layer, inside, member⟩, rfl⟩

theorem card_boundNames_le (scope : Scope) : scope.boundNames.card ≤ scope.size := by
  refine (List.toFinset_card_le _).trans ?_
  rw [List.length_map, size]

/-- A search ends: every binding that it follows uses up a bound name. -/
theorem exists_search (scope : Scope) (seen : List String) (name : String) :
    ∃ steps ≤ (scope.boundNames \ seen.toFinset).card, ∃ b, scope.Search seen name steps b := by
  cases found : scope.lookup name with
  | none => exact ⟨0, Nat.zero_le _, _, .unbound found⟩
  | some b =>
    cases b with
    | content nodes => exact ⟨0, Nat.zero_le _, _, .content found⟩
    | expr next =>
      by_cases again : name ∈ seen
      · exact ⟨0, Nat.zero_le _, _, .circle found again⟩
      · have fewer : (scope.boundNames \ (name :: seen).toFinset).card < (scope.boundNames \ seen.toFinset).card := by
          rw [List.toFinset_cons, Finset.sdiff_insert]
          exact Finset.card_erase_lt_of_mem (by simp [mem_boundNames found, again])
        obtain ⟨steps, few, b, rest⟩ := exists_search scope (name :: seen) next
        exact ⟨steps + 1, by omega, b, .step found again rest⟩
termination_by (scope.boundNames \ seen.toFinset).card
decreasing_by exact fewer

theorem Search.resolveFrom (search : scope.Search seen name steps b) {fuel : Nat} (enough : steps < fuel) :
    scope.resolveFrom fuel seen name = b := by
  induction search generalizing fuel with
  | unbound free =>
    obtain ⟨fuel, rfl⟩ := Nat.exists_eq_add_one.mpr enough
    rw [Scope.resolveFrom, free]
  | content captured =>
    obtain ⟨fuel, rfl⟩ := Nat.exists_eq_add_one.mpr enough
    rw [Scope.resolveFrom, captured]
  | circle bound again =>
    obtain ⟨fuel, rfl⟩ := Nat.exists_eq_add_one.mpr enough
    simp only [Scope.resolveFrom, bound, if_pos again]
  | step bound fresh _ ih =>
    obtain ⟨fuel, rfl⟩ := Nat.exists_eq_add_one.mpr (Nat.lt_of_le_of_lt (Nat.zero_le _) enough)
    simp only [Scope.resolveFrom, bound, if_neg fresh]
    exact ih (Nat.lt_of_succ_lt_succ enough)

theorem trail_start (start : String) : scope.Trail start [] start :=
  ⟨rfl, nofun, List.nodup_nil⟩

theorem Trail.step {next : String} (trail : scope.Trail start seen name)
    (bound : scope.lookup name = some (.expr next)) (fresh : name ∉ seen) : scope.Trail start (name :: seen) next := by
  constructor
  · rw [List.length_cons, chain_succ, trail.reached, follow, Option.bind_some, next?_eq_some.mpr bound]
  · intro j within
    rw [List.reverse_cons]
    by_cases last : j = seen.length
    · rw [last, trail.reached]
      simp
    · have earlier : j < seen.length := by
        rw [List.length_cons] at within
        omega
      rw [trail.passed j earlier, List.getElem?_append_left (by simpa using earlier)]
  · exact List.nodup_cons.mpr ⟨fresh, trail.distinct⟩

theorem chain_periodic {other : String} {j m : Nat} (reached : scope.chain start j = some other)
    (circular : scope.Circular other) (later : j ≤ m) : scope.chain start m ∈ periodicPts scope.follow := by
  obtain ⟨d, rfl⟩ := Nat.exists_eq_add_of_le' later
  obtain ⟨n, positive, back⟩ := mem_periodicPts.mp circular
  rw [chain_add reached]
  exact mk_mem_periodicPts positive (back.apply_iterate d)

/-- The first name that is met again is the first one on the cycle. -/
theorem Trail.circle (trail : scope.Trail start seen name) (again : name ∈ seen) : scope.Leads start (.expr name) := by
  obtain ⟨j, place⟩ := List.mem_iff_getElem?.mp (List.mem_reverse.mpr again)
  have within : j < seen.length := by
    simpa using (List.getElem?_eq_some_iff.mp place).1
  have first : scope.chain start j = some name := (trail.passed j within).trans place
  have circular : scope.Circular name := by
    refine mk_mem_periodicPts (Nat.sub_pos_of_lt within) ?_
    show scope.chain name (seen.length - j) = some name
    rw [← chain_add first, Nat.sub_add_cancel within.le, trail.reached]
  refine .circle first circular fun j' less other reached round => ?_
  -- both the name before the first occurrence and the one before the second would lie on the cycle and lead to
  -- the same name, so that they were one name, met twice on the way
  obtain ⟨i, rfl⟩ := Nat.exists_eq_add_one.mpr (Nat.lt_of_le_of_lt (Nat.zero_le _) less)
  obtain ⟨l, length⟩ := Nat.exists_eq_add_one.mpr (Nat.lt_of_le_of_lt (Nat.zero_le _) within)
  obtain ⟨n, positive, back⟩ := mem_periodicPts.mp (chain_periodic reached round (Nat.le_of_lt_succ less))
  obtain ⟨n', positive', back'⟩ := mem_periodicPts.mp (chain_periodic first circular (m := l) (by omega))
  have met : scope.follow (scope.chain start i) = scope.follow (scope.chain start l) := by
    rw [← chain_succ, ← chain_succ, first, ← length, trail.reached]
  have same := back.eq_of_apply_eq back' positive positive' met
  rw [trail.passed i (by omega), trail.passed l (by omega)] at same
  have twice : i = l := (List.getElem?_inj (by simp; omega) (List.nodup_reverse.mpr trail.distinct)).mp same
  omega

theorem Search.leads (search : scope.Search seen name steps b) (trail : scope.Trail start seen name) :
    scope.Leads start b := by
  induction search with
  | unbound free => exact .unbound trail.reached free
  | content captured => exact .content trail.reached captured
  | circle bound again => exact trail.circle again
  | step bound fresh _ ih => exact ih (trail.step bound fresh)

/-- The search from a name is over before the steps that it is allowed are used up, and gives its result. -/
theorem exists_search_resolve (scope : Scope) (name : String) :
    ∃ steps ≤ scope.boundNames.card, scope.Search [] name steps (scope.resolve name) := by
  obtain ⟨steps, few, b, search⟩ := exists_search scope [] name
  have enough : steps ≤ scope.boundNames.card := by simpa using few
  have bounded := card_boundNames_le scope
  have found : scope.resolve name = b := search.resolveFrom (by omega)
  exact ⟨steps, enough, found ▸ search⟩

theorem resolve_leads (scope : Scope) (name : String) : scope.Leads name (scope.resolve name) := by
  obtain ⟨steps, -, search⟩ := exists_search_resolve scope name
  exact search.leads (trail_start name)

theorem resolve_eq_iff : scope.resolve name = b ↔ scope.Leads name b := by
  constructor
  · rintro rfl
    exact resolve_leads scope name
  · exact (resolve_leads scope name).unique

/-- An expression that a name stands for stands for itself. -/
theorem Leads.again {e : String} (leads : scope.Leads name (.expr e)) : scope.Leads e (.expr e) := by
  cases leads with
  | unbound _ free => exact .unbound (k := 0) rfl free
  | circle _ circular => exact .circle (k := 0) rfl circular (by simp)

end search

/-- Following the bindings of a name ends after at most one step for each bound name. It gives the content that
    the chain of bindings reaches, or the string that is not bound at its end, or the first name on the cycle that
    it enters; and what is given as an expression is given for that expression again. -/
theorem resolve_canonical (scope : Scope) (name : String) :
    (∃ steps ≤ scope.boundNames.card, scope.Search [] name steps (scope.resolve name)) ∧
    (∀ b, scope.resolve name = b ↔ scope.Leads name b) ∧
    (∀ e, scope.resolve name = .expr e → scope.resolve e = .expr e) := by
  refine ⟨exists_search_resolve scope name, fun b => resolve_eq_iff, fun e resolved => ?_⟩
  exact resolve_eq_iff.mpr (resolve_eq_iff.mp resolved).again

end Stencil.Template.Scope
