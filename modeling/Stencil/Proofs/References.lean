import Mathlib.Data.List.Basic
import Stencil.Proofs.Escaping

/-!
Escaping loses nothing. A table of references in which every reference starts with an ampersand, the ampersand has
one itself and none is the beginning of another can be read back from left to right, also where the text that was
escaped looked like references (`unescapeFrom_spelled`). Escaped texts and attribute values are spelled with such
tables, character by character.
-/
namespace Stencil.Text

/-! ### Tables of references -/

/-- References and the characters that they stand for. -/
abbrev ReferenceTable := List (List Char × Char)

/-- The references of escaped text. -/
def markupReferences : ReferenceTable :=
  [("&amp;".toList, '&'), ("&lt;".toList, '<'), ("&gt;".toList, '>'), ("&quot;".toList, '"'),
   ("&#x27;".toList, '\''), ("&#x60;".toList, '\x60')]

/-- The references of attribute values. -/
def quoteReferences : ReferenceTable :=
  [("&amp;".toList, '&'), ("&quot;".toList, '"')]

/-- What is written for a character: its reference if the table has one, or the character itself. -/
def spelling (table : ReferenceTable) (c : Char) : List Char :=
  ((table.find? fun entry => entry.2 == c).map Prod.fst).getD [c]

/-- The characters with the references of the table read from left to right, after `skip` characters of a
    reference that was read. -/
def unescapeFrom (table : ReferenceTable) : (skip : Nat) → List Char → List Char
  | _, [] => []
  | skip + 1, _ :: rest => unescapeFrom table skip rest
  | 0, c :: rest =>
    match table.find? fun entry => entry.1.isPrefixOf (c :: rest) with
    | some (reference, d) => d :: unescapeFrom table (reference.length - 1) rest
    | none => c :: unescapeFrom table 0 rest

/-- The text with the references of the table read from left to right. -/
def unescape (table : ReferenceTable) (s : String) : String :=
  String.ofList (unescapeFrom table 0 s.toList)

/-- A table that can be read back. -/
structure Legible (table : ReferenceTable) : Prop where
  /-- The character that references start with has a reference itself. -/
  ampersand : '&' ∈ table.map Prod.snd
  /-- A reference starts with an ampersand and does not end there. -/
  starts : ∀ entry ∈ table, ∃ c rest, entry.1 = '&' :: c :: rest
  /-- No reference is the beginning of another. -/
  apart : ∀ a ∈ table, ∀ b ∈ table, a.1 <+: b.1 → a = b

theorem markupReferences_legible : Legible markupReferences := by
  refine ⟨by simp [markupReferences], ?_, by decide⟩
  simp [markupReferences]

theorem quoteReferences_legible : Legible quoteReferences := by
  refine ⟨by simp [quoteReferences], ?_, by decide⟩
  simp [quoteReferences]

theorem spelling_cases (table : ReferenceTable) (c : Char) :
    (∃ r, (r, c) ∈ table ∧ spelling table c = r) ∨ c ∉ table.map Prod.snd ∧ spelling table c = [c] := by
  rw [spelling]
  cases found : table.find? fun entry => entry.2 == c with
  | some entry =>
    obtain ⟨r, d⟩ := entry
    have same : d = c := by simpa using List.find?_some found
    subst same
    exact .inl ⟨r, List.mem_of_find?_eq_some found, rfl⟩
  | none =>
    refine .inr ⟨?_, rfl⟩
    intro member
    obtain ⟨entry, listed, same⟩ := List.mem_map.mp member
    exact List.find?_eq_none.mp found entry listed (by simpa using same)

theorem spelling_of_not_mem {table : ReferenceTable} {c : Char} (absent : c ∉ table.map Prod.snd) :
    spelling table c = [c] := by
  rcases spelling_cases table c with ⟨r, listed, -⟩ | ⟨-, same⟩
  · exact absurd (List.mem_map_of_mem listed) absent
  · exact same

/-! ### Reading what was spelled -/

theorem unescapeFrom_skip (table : ReferenceTable) (skipped rest : List Char) :
    unescapeFrom table skipped.length (skipped ++ rest) = unescapeFrom table 0 rest := by
  induction skipped with
  | nil => rfl
  | cons c skipped ih => exact ih

section legible

variable {table : ReferenceTable} (legible : Legible table)

include legible

/-- Where a reference of the table stands, no other one is found. -/
theorem Legible.find?_eq {r : List Char} {c : Char} (listed : (r, c) ∈ table) (rest : List Char) :
    (table.find? fun entry => entry.1.isPrefixOf (r ++ rest)) = some (r, c) := by
  cases found : table.find? fun entry => entry.1.isPrefixOf (r ++ rest) with
  | none =>
    have missing := List.find?_eq_none.mp found (r, c) listed
    simp at missing
  | some entry =>
    have member := List.mem_of_find?_eq_some found
    have here : entry.1 <+: r ++ rest := by simpa using List.find?_some found
    rcases List.prefix_or_prefix_of_prefix here (List.prefix_append r rest) with shorter | longer
    · rw [legible.apart entry member (r, c) listed shorter]
    · rw [legible.apart (r, c) listed entry member longer]

theorem Legible.unescapeFrom_spelling (c : Char) (rest : List Char) :
    unescapeFrom table 0 (spelling table c ++ rest) = c :: unescapeFrom table 0 rest := by
  rcases spelling_cases table c with ⟨r, listed, same⟩ | ⟨absent, same⟩
  · rw [same]
    obtain ⟨d, tail, shape⟩ := legible.starts (r, c) listed
    have first := legible.find?_eq listed rest
    have skipped := unescapeFrom_skip table (d :: tail) rest
    simp only at shape
    rw [shape] at first ⊢
    rw [List.cons_append] at first ⊢
    rw [unescapeFrom, first]
    simpa using skipped
  · rw [same]
    have differ : c ≠ '&' := fun equal => absent (equal ▸ legible.ampersand)
    have none : (table.find? fun entry => entry.1.isPrefixOf (c :: rest)) = none := by
      rw [List.find?_eq_none]
      intro entry listed here
      obtain ⟨d, tail, shape⟩ := legible.starts entry listed
      simp [shape, Ne.symm differ] at here
    rw [List.singleton_append, unescapeFrom, none]

/-- What is spelled with a legible table is read back. -/
theorem Legible.unescapeFrom_spelled (cs : List Char) :
    unescapeFrom table 0 (cs.flatMap (spelling table)) = cs := by
  induction cs with
  | nil => rfl
  | cons c rest ih => rw [List.flatMap_cons, legible.unescapeFrom_spelling, ih]

theorem Legible.length_le_spelled (cs : List Char) : cs.length ≤ (cs.flatMap (spelling table)).length := by
  induction cs with
  | nil => simp
  | cons c rest ih =>
    have filled : 1 ≤ (spelling table c).length := by
      rcases spelling_cases table c with ⟨r, listed, same⟩ | ⟨-, same⟩
      · obtain ⟨d, tail, shape⟩ := legible.starts (r, c) listed
        simp_all
      · simp [same]
    simp only [List.flatMap_cons, List.length_append, List.length_cons]
    omega

/-- Only a text without characters of the table is spelled as itself. -/
theorem Legible.spelled_eq_iff (cs : List Char) :
    cs.flatMap (spelling table) = cs ↔ ∀ c ∈ cs, c ∉ table.map Prod.snd := by
  induction cs with
  | nil => simp
  | cons c rest ih =>
    rw [List.flatMap_cons, List.forall_mem_cons, ← ih]
    rcases spelling_cases table c with ⟨r, listed, same⟩ | ⟨absent, same⟩
    · -- A reference is longer than its character, and the rest does not make up for it.
      have longer := legible.length_le_spelled rest
      obtain ⟨d, tail, shape⟩ := legible.starts (r, c) listed
      simp only at shape
      constructor
      · intro equal
        have lengths := congrArg List.length equal
        simp only [same, shape, List.length_append, List.length_cons] at lengths
        omega
      · rintro ⟨absent, -⟩
        exact absurd (List.mem_map_of_mem listed) absent
    · simp only [same, List.singleton_append, List.cons.injEq, true_and]
      exact ⟨fun equal => ⟨absent, equal⟩, fun both => both.2⟩

end legible

/-! ### Escaped texts and attribute values -/

theorem escape_eq (s : String) : escape s = String.ofList (s.toList.flatMap (spelling markupReferences)) := by
  apply String.toList_injective
  rw [toList_escape, String.toList_ofList, escapeChars]
  refine List.flatMap_congr fun c _ => ?_
  cases found : reference? c with
  | none =>
    have absent : c ∉ markupReferences.map Prod.snd := by
      simpa [markupReferences, markupChars] using reference?_none found
    rw [spelling_of_not_mem absent]
    rfl
  | some r =>
    rw [reference?.eq_def] at found
    split at found <;> cases found <;> decide

theorem escapeAttribute_spelled (s : String) :
    escapeAttribute s = String.ofList (s.toList.flatMap (spelling quoteReferences)) := by
  rw [escapeAttribute_eq, replaceChar, replaceChar, List.flatMap_assoc]
  congr 1
  refine List.flatMap_congr fun c _ => ?_
  by_cases ampersand : c = '&'
  · rw [ampersand]
    decide
  · by_cases quote : c = '"'
    · rw [quote]
      decide
    · have absent : c ∉ quoteReferences.map Prod.snd := by simp [quoteReferences, ampersand, quote]
      simp [spelling_of_not_mem absent, ampersand, quote]

theorem containsAny_eq_false {special : List Char} {s : String} :
    containsAny special s = false ↔ ∀ c ∈ s.toList, c ∉ special := by
  simp [containsAny]

/-- Escaping is lossless and safe. Reading the references of an escaped text from left to right gives the text
    back, an escaped text has no markup characters and no ampersand that does not start a reference, texts are
    escaped part by part, and a text is returned as it is exactly if escaping would not change it. The two
    replacements in an attribute value amount to one pass over its characters, and reading their two references
    undoes them. -/
theorem escape_lossless :
    (∀ s, unescape markupReferences (escape s) = s) ∧ Function.Injective escape ∧
    (∀ s, Inert (escape s)) ∧
    (∀ s t, escape (s ++ t) = escape s ++ escape t) ∧
    (∀ s, needsEscape s = false ↔ escape s = s) ∧
    (∀ s, escapeAttribute s = String.ofList (s.toList.flatMap (spelling quoteReferences))) ∧
    (∀ s, unescape quoteReferences (escapeAttribute s) = s) ∧
    (∀ s, needsQuoting s = false ↔ escapeAttribute s = s) := by
  have undone (s : String) : unescape markupReferences (escape s) = s := by
    rw [escape_eq, unescape, String.toList_ofList, markupReferences_legible.unescapeFrom_spelled, String.ofList_toList]
  refine ⟨undone, ?_, escape_inert, ?_, ?_, escapeAttribute_spelled, ?_, ?_⟩
  · intro s t same
    rw [← undone s, same, undone t]
  · intro s t
    rw [escape_eq, escape_eq, escape_eq, String.toList_append, List.flatMap_append, String.ofList_append]
  · intro s
    rw [escape_eq, ← String.toList_inj, String.toList_ofList, markupReferences_legible.spelled_eq_iff]
    exact containsAny_eq_false
  · intro s
    rw [escapeAttribute_spelled, unescape, String.toList_ofList, quoteReferences_legible.unescapeFrom_spelled,
      String.ofList_toList]
  · intro s
    rw [escapeAttribute_spelled, ← String.toList_inj, String.toList_ofList, quoteReferences_legible.spelled_eq_iff]
    exact containsAny_eq_false

end Stencil.Text
