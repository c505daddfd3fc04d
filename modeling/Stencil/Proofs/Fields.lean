import Stencil.Machine

/-!
Named entries that are written and put back. Setting an entry that is there keeps its place, and
removing one that was added at the end leaves the others in order, so that putting back what distinct
fields held undoes every way of writing them. The fields of a loop are such fields.
-/
namespace Stencil.Fields

universe u
variable {α : Type u} {name other : String} {value new : α} {fields : Fields α}

/-! ### Looking up, setting and removing -/

@[simp] theorem get?_nil : get? name ([] : Fields α) = none := rfl

theorem get?_cons (entry : String × α) (rest : Fields α) :
    get? name (entry :: rest) = if entry.1 = name then some entry.2 else get? name rest := by
  obtain ⟨key, old⟩ := entry
  by_cases same : key = name
  · subst same
    rw [get?, List.lookup_cons_self, if_pos rfl]
  · have differ : (name == key) = false := by simpa using Ne.symm same
    rw [get?, List.lookup_cons, differ, if_neg same]
    rfl

theorem mem_of_get? (found : get? name fields = some value) : (name, value) ∈ fields := by
  induction fields with
  | nil => simp at found
  | cons entry rest ih =>
    rw [get?_cons] at found
    by_cases same : entry.1 = name
    · rw [if_pos same] at found
      cases found
      subst same
      exact List.mem_cons_self
    · rw [if_neg same] at found
      exact List.mem_cons_of_mem _ (ih found)

theorem get?_eq_none : get? name fields = none ↔ name ∉ fields.names := by
  induction fields with
  | nil => simp [names]
  | cons entry rest ih =>
    rw [get?_cons]
    by_cases same : entry.1 = name
    · simp [same, names]
    · rw [if_neg same, ih]
      simp [names, Ne.symm same]

theorem get?_set_self : get? name (set name value fields) = some value := by
  induction fields with
  | nil => simp [set, get?_cons]
  | cons entry rest ih =>
    by_cases same : entry.1 = name
    · simp [set, same, get?_cons]
    · simp [set, same, get?_cons, ih]

theorem get?_set_of_ne (differ : other ≠ name) : get? other (set name value fields) = get? other fields := by
  induction fields with
  | nil => simp [set, get?_cons, Ne.symm differ]
  | cons entry rest ih =>
    by_cases same : entry.1 = name
    · simp [set, same, get?_cons, Ne.symm differ]
    · simp [set, same, get?_cons, ih]

theorem set_set_self : set name new (set name value fields) = set name new fields := by
  induction fields with
  | nil => simp [set]
  | cons entry rest ih =>
    by_cases same : entry.1 = name
    · simp [set, same]
    · simp [set, same, ih]

/-- Setting an entry to what it holds changes nothing. -/
theorem set_of_get? (found : get? name fields = some value) : set name value fields = fields := by
  induction fields with
  | nil => simp at found
  | cons entry rest ih =>
    rw [get?_cons] at found
    by_cases same : entry.1 = name
    · simp only [if_pos same, Option.some.injEq] at found
      have unchanged : (entry.1, value) = entry := Prod.ext rfl found.symm
      rw [set, if_pos same, unchanged]
    · rw [if_neg same] at found
      simp [set, same, ih found]

/-- Entries under different names can be set in either order if the first of them is there already:
    a new one goes to the end. -/
theorem set_comm (differ : other ≠ name) (present : (get? name fields).isSome) :
    set name value (set other new fields) = set other new (set name value fields) := by
  induction fields with
  | nil => simp at present
  | cons entry rest ih =>
    rw [get?_cons] at present
    by_cases same : entry.1 = name
    · simp [set, same, Ne.symm differ]
    · rw [if_neg same] at present
      by_cases same' : entry.1 = other
      · simp [set, same', differ]
      · simp [set, same, same', ih present]

theorem remove_set_of_ne (differ : other ≠ name) :
    remove name (set other new fields) = set other new (remove name fields) := by
  induction fields with
  | nil => simp [set, remove, differ]
  | cons entry rest ih =>
    by_cases same : entry.1 = name
    · simpa [set, remove, same, Ne.symm differ] using ih
    · by_cases same' : entry.1 = other
      · simp [set, remove, same', differ]
      · simpa [set, remove, same, same'] using ih

theorem get?_remove_self : get? name (remove name fields) = none := by
  rw [get?_eq_none, names, remove]
  simp

theorem get?_remove_of_ne (differ : other ≠ name) : get? other (remove name fields) = get? other fields := by
  induction fields with
  | nil => rfl
  | cons entry rest ih =>
    by_cases same : entry.1 = name
    · have dropped : remove name (entry :: rest) = remove name rest := by simp [remove, same]
      rw [dropped, ih, get?_cons, if_neg (same ▸ Ne.symm differ)]
    · have kept : remove name (entry :: rest) = entry :: remove name rest := by simp [remove, same]
      rw [kept, get?_cons, get?_cons, ih]

theorem remove_of_get?_none (absent : get? name fields = none) : remove name fields = fields := by
  rw [get?_eq_none] at absent
  apply List.filter_eq_self.mpr
  intro entry member
  have differ : entry.1 ≠ name := fun equal => absent (equal ▸ List.mem_map_of_mem member)
  simpa using differ

/-- Removing an entry that was new when it was set changes nothing. -/
theorem remove_set_self (absent : get? name fields = none) : remove name (set name value fields) = fields := by
  induction fields with
  | nil => simp [set, remove]
  | cons entry rest ih =>
    rw [get?_cons] at absent
    by_cases same : entry.1 = name
    · simp [same] at absent
    · rw [if_neg same] at absent
      simpa [set, remove, same] using ih absent

/-! ### Entries with distinct names -/

theorem mem_of_mem_set {entry : String × α} (member : entry ∈ set name value fields) :
    entry = (name, value) ∨ entry ∈ fields := by
  induction fields with
  | nil => exact .inl (List.mem_singleton.mp member)
  | cons first rest ih =>
    by_cases same : first.1 = name
    · simp only [set, if_pos same] at member
      rcases List.mem_cons.mp member with rfl | member
      · exact .inl (by rw [same])
      · exact .inr (List.mem_cons_of_mem _ member)
    · simp only [set, if_neg same] at member
      rcases List.mem_cons.mp member with rfl | member
      · exact .inr List.mem_cons_self
      · exact (ih member).imp id (List.mem_cons_of_mem _)

theorem nodup_names_set (distinct : fields.names.Nodup) : (set name value fields).names.Nodup := by
  induction fields with
  | nil => simp [set, names]
  | cons first rest ih =>
    obtain ⟨absent, distinctRest⟩ := List.nodup_cons.mp distinct
    by_cases same : first.1 = name
    · simp only [set, if_pos same]
      exact distinct
    · simp only [set, if_neg same]
      have stillAbsent : get? first.1 (set name value rest) = none :=
        (get?_set_of_ne same).trans (get?_eq_none.mpr absent)
      exact List.nodup_cons.mpr ⟨get?_eq_none.mp stillAbsent, ih distinctRest⟩

theorem get?_of_mem (distinct : fields.names.Nodup) (member : (name, value) ∈ fields) :
    get? name fields = some value := by
  induction fields with
  | nil => cases member
  | cons first rest ih =>
    obtain ⟨absent, distinctRest⟩ := List.nodup_cons.mp distinct
    rw [get?_cons]
    rcases List.mem_cons.mp member with rfl | member
    · exact if_pos rfl
    · have differ : first.1 ≠ name := fun same => absent (same ▸ List.mem_map_of_mem member)
      rw [if_neg differ]
      exact ih distinctRest member

/-- Entries are known up to their order by what stands under each name. -/
theorem perm_of_get? {fields' : Fields α} (distinct : fields.names.Nodup) (distinct' : fields'.names.Nodup)
    (same : ∀ name, get? name fields = get? name fields') : fields.Perm fields' := by
  have apart : ∀ {fields : Fields α}, fields.names.Nodup → fields.Nodup := fun distinct =>
    (List.pairwise_map.mp distinct).imp fun differ same => differ (congrArg Prod.fst same)
  refine (List.perm_ext_iff_of_nodup (apart distinct) (apart distinct')).mpr fun (name, value) => ⟨?_, ?_⟩
  · intro member
    exact mem_of_get? ((same name).symm.trans (get?_of_mem distinct member))
  · intro member
    exact mem_of_get? ((same name).trans (get?_of_mem distinct' member))

end Stencil.Fields

namespace Stencil

open Fields

variable {name : String} {value : Value} {data : Fields Value} {entries others : List (String × Value)}

/-! ### Writing fields and putting them back -/

theorem writeFields_cons (entry : String × Value) (entries : List (String × Value)) (data : Fields Value) :
    writeFields (entry :: entries) data = writeFields entries (set entry.1 entry.2 data) := rfl

theorem restoreFields_cons (entry : String × Option Value) (saved : List (String × Option Value))
    (data : Fields Value) :
    restoreFields (entry :: saved) data =
      restoreFields saved (match entry.2 with
        | some value => set entry.1 value data
        | none => remove entry.1 data) := rfl

theorem set_writeFields (absent : name ∉ entries.map Prod.fst) (present : (get? name data).isSome) :
    set name value (writeFields entries data) = writeFields entries (set name value data) := by
  induction entries generalizing data with
  | nil => rfl
  | cons entry rest ih =>
    rw [List.map_cons, List.mem_cons, not_or] at absent
    obtain ⟨differ, absent⟩ := absent
    have still : (get? name (set entry.1 entry.2 data)).isSome := by
      rwa [get?_set_of_ne differ]
    rw [writeFields_cons, writeFields_cons, ih absent still, set_comm (Ne.symm differ) present]

theorem remove_writeFields (absent : name ∉ entries.map Prod.fst) :
    remove name (writeFields entries data) = writeFields entries (remove name data) := by
  induction entries generalizing data with
  | nil => rfl
  | cons entry rest ih =>
    rw [List.map_cons, List.mem_cons, not_or] at absent
    obtain ⟨differ, absent⟩ := absent
    rw [writeFields_cons, writeFields_cons, ih absent, remove_set_of_ne (Ne.symm differ)]

/-- Putting back what distinct fields held undoes writing them, places included. -/
theorem restoreFields_writeFields (distinct : (entries.map Prod.fst).Nodup) :
    restoreFields (entries.map fun entry => (entry.1, get? entry.1 data)) (writeFields entries data) = data := by
  induction entries generalizing data with
  | nil => rfl
  | cons entry rest ih =>
    rw [List.map_cons, List.nodup_cons] at distinct
    obtain ⟨absent, distinct⟩ := distinct
    rw [List.map_cons, restoreFields_cons, writeFields_cons]
    cases held : get? entry.1 data with
    | none =>
      simp only [remove_writeFields absent, remove_set_self held]
      exact ih distinct
    | some value =>
      have written : (get? entry.1 (set entry.1 entry.2 data)).isSome := by rw [get?_set_self]; rfl
      simp only [set_writeFields absent written, set_set_self, set_of_get? held]
      exact ih distinct

/-- Fields that are written twice hold what was written last. -/
theorem writeFields_writeFields (distinct : (entries.map Prod.fst).Nodup)
    (same : others.map Prod.fst = entries.map Prod.fst) :
    writeFields others (writeFields entries data) = writeFields others data := by
  induction entries generalizing data others with
  | nil => rfl
  | cons entry rest ih =>
    cases others with
    | nil => simp at same
    | cons entry' rest' =>
      simp only [List.map_cons, List.cons.injEq] at same
      rw [List.map_cons, List.nodup_cons] at distinct
      obtain ⟨absent, distinct⟩ := distinct
      have written : (get? entry.1 (set entry.1 entry.2 data)).isSome := by rw [get?_set_self]; rfl
      rw [writeFields_cons, writeFields_cons, writeFields_cons, same.1, set_writeFields absent written,
        set_set_self, ih distinct same.2]

/-! ### The fields of a loop -/

theorem loopFields_names (name : String) (index count : Nat) (key value : Value) :
    (loopFields name index count key value).map Prod.fst = loopSuffixes.map (name ++ ·) := by
  simp [loopFields, loopSuffixes]

theorem loopNames_nodup (name : String) : (loopSuffixes.map (name ++ ·)).Nodup := by
  have suffixes : loopSuffixes.Nodup := by decide
  apply List.pairwise_map.mpr
  refine suffixes.imp ?_
  intro a b differ equal
  exact differ ((String.append_right_inj name).mp equal)

theorem loopSnapshot_eq (name : String) (index count : Nat) (key value : Value) (data : Fields Value) :
    loopSnapshot name data =
      (loopFields name index count key value).map fun entry => (entry.1, get? entry.1 data) := by
  simp [loopSnapshot, loopFields, loopSuffixes]

/-- Data in which a loop has shown nothing yet, or one of its items. -/
def Shown (name : String) (before data : Fields Value) : Prop :=
  data = before ∨ ∃ index count key value, data = writeFields (loopFields name index count key value) before

/-- Showing an item hides the item that was shown before it. -/
theorem Shown.next {before : Fields Value} (shown : Shown name before data) (index count : Nat)
    (key value : Value) : Shown name before (writeFields (loopFields name index count key value) data) := by
  rcases shown with rfl | ⟨index', count', key', value', rfl⟩
  · exact .inr ⟨index, count, key, value, rfl⟩
  · refine .inr ⟨index, count, key, value, ?_⟩
    apply writeFields_writeFields
    · rw [loopFields_names]
      exact loopNames_nodup name
    · rw [loopFields_names, loopFields_names]

theorem restoreFields_loopSnapshot_self (name : String) (data : Fields Value) :
    restoreFields (loopSnapshot name data) data = data := by
  have unchanged : ∀ names : List String,
      restoreFields (names.map fun n => (n, get? n data)) data = data := by
    intro names
    induction names with
    | nil => rfl
    | cons n rest ih =>
      rw [List.map_cons, restoreFields_cons]
      cases held : get? n data with
      | none => simpa only [remove_of_get?_none held] using ih
      | some value => simpa only [set_of_get? held] using ih
  simpa [loopSnapshot, List.map_map, Function.comp_def] using unchanged (loopSuffixes.map (name ++ ·))

/-- Whatever a loop shows, putting back the fields it writes leads back to the data before it. -/
theorem restoreFields_of_shown {before : Fields Value} (shown : Shown name before data) :
    restoreFields (loopSnapshot name before) data = before := by
  rcases shown with rfl | ⟨index, count, key, value, rfl⟩
  · exact restoreFields_loopSnapshot_self name data
  · rw [loopSnapshot_eq name index count key value before]
    apply restoreFields_writeFields
    rw [loopFields_names]
    exact loopNames_nodup name

end Stencil
