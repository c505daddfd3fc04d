/-!
Character references that keep text and attribute values from being read as markup.
-/
namespace Stencil.Text

/-- The reference that stands for a character which has a meaning in markup. -/
def reference? : Char → Option (List Char)
  | '&' => some "&amp;".toList
  | '<' => some "&lt;".toList
  | '>' => some "&gt;".toList
  | '"' => some "&quot;".toList
  | '\'' => some "&#x27;".toList
  | '\x60' => some "&#x60;".toList
  | _ => none

/-- The text contains one of the characters. -/
def containsAny (special : List Char) (s : String) : Bool :=
  s.toList.any special.contains

/-- Some character of the text has to be written as a reference. -/
def needsEscape (s : String) : Bool :=
  containsAny ['&', '<', '>', '"', '\'', '\x60'] s

/-- The characters with every markup character replaced by its reference. -/
def escapeChars (cs : List Char) : List Char :=
  cs.flatMap fun c => (reference? c).getD [c]

/-- The text with every markup character replaced by its reference. A text without such characters
    is returned as it is. -/
def escape (s : String) : String :=
  if needsEscape s then String.ofList (escapeChars s.toList) else s

/-- The characters with each occurrence of `c` replaced by `text`. -/
def replaceChar (c : Char) (text : List Char) (cs : List Char) : List Char :=
  cs.flatMap fun d => if d = c then text else [d]

/-- Some character of the text has to be written as a reference between double quotes. -/
def needsQuoting (s : String) : Bool :=
  containsAny ['&', '"'] s

/-- The text as it stands between the double quotes of an attribute: first every ampersand, then
    every double quote is replaced. A text without either is returned as it is. -/
def escapeAttribute (s : String) : String :=
  if needsQuoting s then
    String.ofList (replaceChar '"' "&quot;".toList (replaceChar '&' "&amp;".toList s.toList))
  else s

theorem not_mem_of_containsAny {special : List Char} {s : String} (clean : ¬ containsAny special s = true) :
    ∀ c ∈ special, c ∉ s.toList := by
  intro c listed member
  exact clean (List.any_eq_true.mpr ⟨c, member, List.contains_iff_mem.mpr listed⟩)

/-- The characters that are looked for before a text is escaped are those that have a reference. -/
theorem reference?_eq_none {s : String} (clean : ¬ needsEscape s = true) : ∀ c ∈ s.toList, reference? c = none := by
  intro c member
  have plain : c ∉ ['&', '<', '>', '"', '\'', '\x60'] := fun listed => not_mem_of_containsAny clean c listed member
  rw [reference?.eq_def]
  split <;> simp at plain ⊢

theorem replaceChar_of_not_mem {c : Char} {cs : List Char} (text : List Char) (absent : c ∉ cs) :
    replaceChar c text cs = cs := by
  induction cs with
  | nil => rfl
  | cons d rest ih =>
    obtain ⟨differ, absent⟩ := not_or.mp fun member => absent (List.mem_cons.mpr member)
    have same := ih absent
    rw [replaceChar] at same
    rw [replaceChar, List.flatMap_cons, same, if_neg (Ne.symm differ)]
    rfl

/-- A text that is returned as it is has nothing to replace. -/
theorem escapeAttribute_eq (s : String) : escapeAttribute s =
    String.ofList (replaceChar '"' "&quot;".toList (replaceChar '&' "&amp;".toList s.toList)) := by
  rw [escapeAttribute]
  split
  · rfl
  next clean =>
    have absent := not_mem_of_containsAny clean
    rw [replaceChar_of_not_mem _ (absent '&' (by simp)), replaceChar_of_not_mem _ (absent '"' (by simp)),
      String.ofList_toList]

end Stencil.Text
