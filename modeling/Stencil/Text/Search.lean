/-!
Searching a text for a mark.
-/
namespace Stencil.Text

/-- The characters before the first occurrence of a mark, if it occurs. -/
def before? (mark : List Char) : List Char → Option (List Char)
  | [] => if mark = [] then some [] else none
  | c :: rest => if mark.isPrefixOf (c :: rest) then some [] else (before? mark rest).map (c :: ·)

/-- What follows a mark at the front of a text, if it stands there. -/
def after? (mark : List Char) (cs : List Char) : Option (List Char) :=
  if mark.isPrefixOf cs then some (cs.drop mark.length) else none

/-- The mark follows what stands before it. -/
theorem length_add_le_of_before? {mark cs found : List Char} (h : before? mark cs = some found) :
    found.length + mark.length ≤ cs.length := by
  induction cs generalizing found with
  | nil =>
    by_cases empty : mark = []
    · simp_all [before?]
    · simp [before?, empty] at h
  | cons c rest ih =>
    by_cases here : mark.isPrefixOf (c :: rest) = true
    · have shorter := (List.isPrefixOf_iff_prefix.1 here).length_le
      simp only [before?, here, if_true, Option.some.injEq] at h
      subst h
      simpa using shorter
    · simp only [before?, here] at h
      obtain ⟨tail, foundTail, rfl⟩ := Option.map_eq_some_iff.1 h
      have later := ih foundTail
      simp only [List.length_cons]
      omega

end Stencil.Text
