import Stencil.Proofs.Grammar

/-!
How a text is cut into tokens, said without the scanner. `Spells` says which characters spell a token in front
of what follows them, and `Cut` how tokens and white space follow one another. The scanner finds just these:
`Spells.scan` and `spells_of_scan` for one token, `lexemesFrom_iff` for a text.
-/
namespace Stencil.Expr

open Stateful

/-! ### Characters -/

section characters

variable {c : Char}

theorem isDigit_iff : Number.isDigit c = true ↔ 48 ≤ c.toNat ∧ c.toNat ≤ 57 := by
  simp [Number.isDigit, Char.le_def, UInt32.le_iff_toNat_le]

theorem isAlpha_iff : c.isAlpha = true ↔ (65 ≤ c.toNat ∧ c.toNat ≤ 90) ∨ (97 ≤ c.toNat ∧ c.toNat ≤ 122) := by
  unfold Char.isAlpha Char.isUpper Char.isLower
  simp [UInt32.le_iff_toNat_le]

theorem isAlphanum_iff : c.isAlphanum = true ↔ c.isAlpha = true ∨ Number.isDigit c = true := by
  simp [Char.isAlphanum, Char.isDigit, isDigit_iff, UInt32.le_iff_toNat_le]

theorem isWordStart_iff : isWordStart c = true ↔ c.isAlpha = true ∨ c.toNat = 95 ∨ c.toNat = 36 := by
  simp [isWordStart, or_assoc, ← Char.toNat_inj]

theorem isWordChar_iff : isWordChar c = true ↔ isWordStart c = true ∨ Number.isDigit c = true := by
  rw [isWordChar, isWordStart]
  simp only [Bool.or_eq_true, isAlphanum_iff]
  grind

theorem isHexDigit_iff : isHexDigit c = true ↔ (48 ≤ c.toNat ∧ c.toNat ≤ 57) ∨ (97 ≤ c.toNat ∧ c.toNat ≤ 102) ∨
    (65 ≤ c.toNat ∧ c.toNat ≤ 70) := by
  simp only [isHexDigit, Number.hexDigit?, Bool.and_eq_true, decide_eq_true_eq, Char.le_def, UInt32.le_iff_toNat_le]
  split
  · simp_all
  · split
    · simp_all
    · split <;> simp_all

/-- A character that is seen and takes one byte. -/
def Visible (c : Char) : Prop :=
  33 ≤ c.toNat ∧ c.toNat ≤ 126

instance : DecidablePred Visible :=
  fun _ => inferInstanceAs (Decidable (_ ∧ _))

theorem Visible.not_blank (visible : Visible c) : Text.isBlank c = false := by
  obtain ⟨low, high⟩ := visible
  simp [Text.isBlank]
  omega

theorem Visible.size (visible : Visible c) : c.utf8Size = 1 := by
  obtain ⟨low, high⟩ := visible
  exact Char.utf8Size_eq_one_iff.mpr (by
    rw [UInt32.le_iff_toNat_le]
    exact Nat.le_trans high (by decide))

theorem byteLength_of_visible {cs : List Char} (visible : ∀ c ∈ cs, Visible c) : Text.byteLength cs = cs.length := by
  induction cs with
  | nil => rfl
  | cons c rest ih =>
    obtain ⟨first, others⟩ := List.forall_mem_cons.mp visible
    rw [Text.byteLength_cons, first.size, ih others, List.length_cons, Nat.add_comm]

theorem visible_of_isDigit (digit : Number.isDigit c = true) : Visible c := by
  rw [isDigit_iff] at digit
  rw [Visible]
  omega

theorem visible_of_isWordStart (start : isWordStart c = true) : Visible c := by
  rw [isWordStart_iff, isAlpha_iff] at start
  rw [Visible]
  omega

theorem visible_of_isWordChar (inside : isWordChar c = true) : Visible c := by
  rcases isWordChar_iff.mp inside with start | digit
  · exact visible_of_isWordStart start
  · exact visible_of_isDigit digit

theorem visible_of_isHexDigit (digit : isHexDigit c = true) : Visible c := by
  rw [isHexDigit_iff] at digit
  rw [Visible]
  omega

theorem Punct.visible (p : Punct) : ∀ c ∈ p.text.toList, Visible c := by
  cases p <;> simp [Punct.text, Visible]

theorem not_isDigit_of_isWordStart (start : isWordStart c = true) : Number.isDigit c = false := by
  rw [isWordStart_iff, isAlpha_iff] at start
  rw [Bool.eq_false_iff, Ne, isDigit_iff]
  omega

end characters

/-! ### Spellings -/

/-- Characters that stand for a content between quotes: as they are, after a backslash, or as a code point. -/
inductive Quoted (quote : Char) : List Char → List Char → Prop where
  | nil : Quoted quote [] []
  | plain {c content body} (other : c ≠ quote) (bare : c ≠ '\\') (rest : Quoted quote content body) :
      Quoted quote (c :: content) (c :: body)
  | escape {c content body} (short : c ≠ 'u') (rest : Quoted quote content body) :
      Quoted quote (unescaped c :: content) ('\\' :: c :: body)
  | codePoint {a b c d point content body} (digits : [a, b, c, d].all isHexDigit = true)
      (named : codePoint? [a, b, c, d] = some point) (rest : Quoted quote content body) :
      Quoted quote (point :: content) ('\\' :: 'u' :: a :: b :: c :: d :: body)

/-- A number starts with a digit, or with a point before a digit. -/
def StartsNumber (c : Char) (rest : List Char) : Prop :=
  Number.isDigit c = true ∨ c = '.' ∧ ∃ d ∈ rest.head?, Number.isDigit d = true

/-- What follows a sign does not make it a longer sign or a number. -/
def Punct.Stops (p : Punct) (next : Option Char) : Prop :=
  match p with
  | looseEq | looseNe | not | lt | gt => next ≠ some '='
  | dot => ∀ d ∈ next, Number.isDigit d = false
  | _ => True

/-- Characters that spell a token when `next` is the character after them. -/
inductive Spells : Token → List Char → Option Char → Prop where
  | word {c tail next} (start : isWordStart c = true) (inside : ∀ d ∈ tail, isWordChar d = true)
      (stop : ∀ d ∈ next, isWordChar d = false) : Spells (.word (String.ofList (c :: tail))) (c :: tail) next
  | text {quote content body next} (opens : quote = '"' ∨ quote = '\'') (quoted : Quoted quote content body) :
      Spells (.text (String.ofList content)) (quote :: (body ++ [quote])) next
  | decimal {c tail x next} (start : StartsNumber c tail)
      (run : decimalRun c (tail ++ next.toList) = tail.length)
      (stop : ∀ d ∈ next, d.isAlpha = false ∧ d ≠ '_') (read : Number.readDecimal? (c :: tail) = some x) :
      Spells (.number x) (c :: tail) next
  | hex {mark digits n next} (marked : mark = 'x' ∨ mark = 'X') (inside : ∀ d ∈ digits, isHexDigit d = true)
      (stop : ∀ d ∈ next, isHexDigit d = false) (read : Number.readHex? digits = some n) :
      Spells (.number (Float.ofNat n)) ('0' :: mark :: digits) next
  | punct {p next} (stop : p.Stops next) : Spells (.punct p) p.text.toList next

section texts

variable {quote c : Char} {start offset width : Nat} {content body rest cs : List Char}

theorem ne_backslash (longer : ∀ d more, c = '\\' → rest = d :: more → False) (last : c = '\\' → rest = [] → False) :
    c ≠ '\\' := by
  cases rest with
  | nil => exact fun same => last same rfl
  | cons d rest => exact fun same => longer d rest same rfl

theorem scanText_escape (short : c ≠ 'u') : scanText quote start offset ('\\' :: c :: rest) =
    (scanText quote start (offset + 1 + c.utf8Size) rest) >>= fun r => .ok (unescaped c :: r.1, r.2 + 2) := by
  rw [scanText]
  · rfl
  · exact fun _ _ _ _ _ same => absurd same short
  · exact short

theorem scanText_plain (bare : c ≠ '\\') : scanText quote start offset (c :: rest) =
    if c = quote then .ok ([], 1)
    else (scanText quote start (offset + c.utf8Size) rest) >>= fun r => .ok (c :: r.1, r.2 + 1) := by
  rw [scanText]
  · rfl
  · exact fun _ _ _ _ _ same => absurd same bare
  · exact fun _ same => absurd same bare
  · exact fun _ _ same => absurd same bare
  · exact fun same => absurd same bare

theorem Quoted.scan (opens : quote ≠ '\\') (quoted : Quoted quote content body) :
    scanText quote start offset (body ++ quote :: rest) = .ok (content, body.length + 1) := by
  induction quoted generalizing offset with
  | nil => rw [List.nil_append, scanText_plain opens, if_pos rfl, List.length_nil]
  | plain other bare _ ih =>
    rw [List.cons_append, scanText_plain bare, if_neg other, ih]
    rfl
  | escape short _ ih =>
    rw [List.cons_append, List.cons_append, scanText_escape short, ih]
    rfl
  | codePoint digits named _ ih =>
    simp only [List.cons_append]
    rw [scanText, if_pos digits, named]
    dsimp only
    rw [ih]
    rfl

theorem quoted_of_scan (scanned : scanText quote start offset cs = .ok (content, width)) :
    ∃ body rest, cs = body ++ quote :: rest ∧ width = body.length + 1 ∧ Quoted quote content body := by
  induction offset, cs using scanText.induct quote generalizing content width with
  | case1 offset => cases scanned
  | case2 offset a b c d rest digits point named ih =>
    rw [scanText, if_pos digits, named] at scanned
    obtain ⟨⟨inner, taken⟩, read, same⟩ := bind_eq_ok.mp scanned
    cases same
    obtain ⟨body, rest, rfl, rfl, quoted⟩ := ih read
    exact ⟨_, rest, rfl, rfl, .codePoint digits named quoted⟩
  | case3 offset a b c d rest digits unnamed =>
    rw [scanText, if_pos digits, unnamed] at scanned
    cases scanned
  | case4 offset a b c d rest others =>
    rw [scanText, if_neg others] at scanned
    cases scanned
  | case5 offset tail short =>
    rw [scanText] at scanned
    · cases scanned
    · exact short
  | case6 offset c rest _ short ih =>
    rw [scanText_escape short] at scanned
    obtain ⟨⟨inner, taken⟩, read, same⟩ := bind_eq_ok.mp scanned
    cases same
    obtain ⟨body, rest, rfl, rfl, quoted⟩ := ih read
    exact ⟨_, rest, rfl, rfl, .escape short quoted⟩
  | case7 offset => cases scanned
  | case8 offset rest _ _ longer last =>
    have bare := ne_backslash longer last
    rw [scanText_plain bare, if_pos rfl] at scanned
    cases scanned
    exact ⟨[], rest, rfl, rfl, .nil⟩
  | case9 offset c rest _ _ longer last other ih =>
    have bare := ne_backslash longer last
    rw [scanText_plain bare, if_neg other] at scanned
    obtain ⟨⟨inner, taken⟩, read, same⟩ := bind_eq_ok.mp scanned
    cases same
    obtain ⟨body, rest, rfl, rfl, quoted⟩ := ih read
    exact ⟨_, rest, rfl, rfl, .plain other bare quoted⟩

end texts

/-! ### Signs -/

section signs

variable {p : Punct} {rest cs : List Char}

theorem leading?_append (stop : p.Stops rest.head?) : Punct.leading? (p.text.toList ++ rest) = some p := by
  cases rest with
  | nil => cases p <;> rfl
  | cons d rest =>
    cases p <;> simp_all [Punct.Stops, Punct.leading?, Punct.all, Punct.text, List.find?, List.isPrefixOf] <;> grind

theorem leading?_eq_some (found : Punct.leading? cs = some p) :
    ∃ rest, cs = p.text.toList ++ rest ∧ (p ≠ .dot → p.Stops rest.head?) := by
  obtain ⟨rest, rfl⟩ : p.text.toList <+: cs := by
    have written := List.find?_some found
    exact List.isPrefixOf_iff_prefix.mp written
  refine ⟨rest, rfl, fun other => ?_⟩
  cases rest with
  | nil => cases p <;> simp_all [Punct.Stops]
  | cons d rest =>
    cases p <;> simp_all [Punct.Stops, Punct.leading?, Punct.all, Punct.text, List.find?, List.isPrefixOf] <;> grind

end signs

/-! ### Numbers -/

section numbers

variable {c : Char} {tail rest : List Char} {offset : Nat}

theorem decimalRun_le (c : Char) (rest : List Char) : decimalRun c rest ≤ rest.length := by
  induction rest generalizing c with
  | nil => exact Nat.zero_le _
  | cons d rest ih =>
    rw [decimalRun]
    split
    · exact Nat.succ_le_succ (ih d)
    · exact Nat.zero_le _

theorem decimalRun_cons {d : Char} (run : decimalRun c (d :: tail ++ rest) = (d :: tail).length) :
    (Number.isDigit d = true ∨ d = '.' ∨ d = 'e' ∨ d = 'E' ∨ (d = '+' ∨ d = '-') ∧ (c = 'e' ∨ c = 'E')) ∧
      decimalRun d (tail ++ rest) = tail.length := by
  rw [List.cons_append, decimalRun] at run
  split at run
  · next goes => exact ⟨by simpa [or_assoc] using goes, Nat.succ.inj run⟩
  · cases run

/-- Where a run of a decimal stops depends on the character after it only. -/
theorem decimalRun_append : decimalRun c (tail ++ rest) = tail.length ↔
    decimalRun c (tail ++ rest.head?.toList) = tail.length := by
  induction tail generalizing c with
  | nil =>
    cases rest with
    | nil => rfl
    | cons d rest =>
      simp only [List.nil_append, List.head?_cons, Option.toList_some, List.length_nil, decimalRun]
      split
      · simp
      · rfl
  | cons d tail ih =>
    simp only [List.cons_append, decimalRun, List.length_cons]
    split
    · rw [Nat.succ_inj, Nat.succ_inj, ih]
    · rfl

theorem decimalRun_hex {mark : Char} (marked : mark = 'x' ∨ mark = 'X') : decimalRun '0' (mark :: rest) = 0 := by
  rcases marked with rfl | rfl <;> rfl

theorem scanNumber_hex {mark : Char} (marked : mark = 'x' ∨ mark = 'X') : scanNumber offset '0' (mark :: rest) =
    match Number.readHex? (rest.takeWhile isHexDigit) with
    | some n => .ok (.number (Float.ofNat n), (rest.takeWhile isHexDigit).length + 1)
    | none => .error ⟨.malformedHex, offset⟩ := by
  rcases marked with rfl | rfl <;> rfl

theorem scanNumber_decimal (plain : c = '0' → ∀ mark ∈ rest.head?, mark ≠ 'x' ∧ mark ≠ 'X') :
    scanNumber offset c rest =
      if (rest.drop (decimalRun c rest)).head?.any fun d => d.isAlpha || d == '_' then
        .error ⟨.wordAfterNumber, offset + Text.byteLength (c :: rest.take (decimalRun c rest))⟩
      else match Number.readDecimal? (c :: rest.take (decimalRun c rest)) with
        | some x => .ok (.number x, decimalRun c rest)
        | none => .error ⟨.malformedNumber (String.ofList (c :: rest.take (decimalRun c rest))), offset⟩ := by
  unfold scanNumber
  dsimp only
  split
  · next found =>
    split at found
    · exact absurd rfl (plain rfl _ rfl).1
    · exact absurd rfl (plain rfl _ rfl).2
    · cases found
  · rfl

end numbers

/-! ### One token -/

section tokens

variable {c : Char} {tail rest spelling : List Char} {offset width : Nat} {t : Token} {next : Option Char}

theorem takeWhile_append {p : Char → Bool} (inside : ∀ d ∈ tail, p d = true) (stop : ∀ d ∈ rest.head?, p d = false) :
    (tail ++ rest).takeWhile p = tail := by
  rw [List.takeWhile_append_of_pos inside]
  cases rest with
  | nil => exact List.append_nil tail
  | cons d rest => rw [List.takeWhile_cons_of_neg (by simp [stop d rfl]), List.append_nil]

theorem scanToken_number (starts : StartsNumber c rest) : scanToken offset c rest = scanNumber offset c rest := by
  rw [scanToken, if_pos]
  rcases starts with digit | ⟨rfl, d, front, digit⟩
  · rw [digit, Bool.true_or]
  · rw [Option.mem_def.mp front]
    simp [digit]

theorem not_startsNumber (other : Number.isDigit c = false)
    (bare : c = '.' → ∀ d ∈ rest.head?, Number.isDigit d = false) :
    ¬ StartsNumber c rest := by
  rintro (digit | ⟨same, d, front, digit⟩)
  · exact absurd digit (Bool.eq_false_iff.mp other)
  · exact absurd digit (Bool.eq_false_iff.mp (bare same d front))

theorem scanToken_other (other : ¬ StartsNumber c rest) : scanToken offset c rest =
    if c == '"' || c == '\'' then
      (scanText c offset (offset + 1) rest).map fun r => (.text (String.ofList r.1), r.2)
    else if isWordStart c then
      .ok (.word (String.ofList (c :: rest.takeWhile isWordChar)), (rest.takeWhile isWordChar).length)
    else match Punct.leading? (c :: rest) with
      | some p => .ok (.punct p, p.text.length - 1)
      | none => .error ⟨if c = '=' then .assignment else .unexpectedCharacter c, offset⟩ := by
  have bare : ¬ (Number.isDigit c || (c == '.' && rest.head?.any Number.isDigit)) = true := by
    intro starts
    rcases (Bool.or_eq_true _ _).mp starts with digit | starts
    · exact other (.inl digit)
    · obtain ⟨point, front⟩ := (Bool.and_eq_true _ _).mp starts
      obtain ⟨d, front, digit⟩ := (Option.any_eq_true _ _).mp front
      exact other (.inr ⟨beq_iff_eq.mp point, d, front, digit⟩)
  exact if_neg bare

theorem scan_decimal {x : Float} (starts : StartsNumber c tail)
    (run : decimalRun c (tail ++ rest.head?.toList) = tail.length)
    (stop : ∀ d ∈ rest.head?, d.isAlpha = false ∧ d ≠ '_') (read : Number.readDecimal? (c :: tail) = some x) :
    scanToken offset c (tail ++ rest) = .ok (.number x, tail.length) := by
  have starts : StartsNumber c (tail ++ rest) := by
    rcases starts with digit | ⟨point, d, front, digit⟩
    · exact .inl digit
    · exact .inr ⟨point, d, by rw [List.head?_append, Option.mem_def.mp front]; rfl, digit⟩
  have width := decimalRun_append.mpr run
  -- neither mark of a hexadecimal continues a decimal, and both are letters
  have plain : c = '0' → ∀ mark ∈ (tail ++ rest).head?, mark ≠ 'x' ∧ mark ≠ 'X' := by
    rintro rfl mark front
    rw [← not_or]
    intro marked
    cases tail with
    | nil =>
      rcases marked with rfl | rfl
      · exact absurd (stop _ front).1 (by decide)
      · exact absurd (stop _ front).1 (by decide)
    | cons d tail =>
      cases front
      rw [List.cons_append, decimalRun_hex marked] at width
      cases width
  rw [scanToken_number starts, scanNumber_decimal plain, width, List.drop_left, List.take_left, if_neg]
  · rw [read]
  · intro next
    obtain ⟨d, front, letter⟩ := (Option.any_eq_true _ _).mp next
    obtain ⟨bare, other⟩ := stop d front
    simp [bare, other] at letter

theorem Spells.scan (spells : Spells t (c :: tail) rest.head?) :
    scanToken offset c (tail ++ rest) = .ok (t, tail.length) := by
  generalize shown : c :: tail = spelling at spells
  generalize front : rest.head? = next at spells
  cases spells with
  | word start inside stop =>
    cases shown
    subst front
    have letter : c ≠ '.' ∧ c ≠ '"' ∧ c ≠ '\'' := by
      refine ⟨?_, ?_, ?_⟩ <;> rintro rfl <;> exact absurd start (by decide)
    rw [scanToken_other (not_startsNumber (not_isDigit_of_isWordStart start) (absurd · letter.1)),
      takeWhile_append inside stop]
    simp [letter, start]
  | @text quote content body _ opens quoted =>
    cases shown
    have scanned : scanText c offset (offset + 1) (body ++ [c] ++ rest) = .ok (content, body.length + 1) := by
      rw [List.append_assoc]
      exact quoted.scan (by rcases opens with rfl | rfl <;> decide)
    rw [scanToken_other, if_pos (by simpa using opens), scanned, List.length_append]
    · rfl
    · rcases opens with rfl | rfl <;> exact not_startsNumber (by decide) (absurd · (by decide))
  | decimal start run stop read =>
    cases shown
    subst front
    exact scan_decimal start run stop read
  | @hex mark digits n _ marked inside stop read =>
    cases shown
    subst front
    rw [List.cons_append, scanToken_number (.inl (by decide)), scanNumber_hex marked, takeWhile_append inside stop,
      read]
    rfl
  | @punct p _ stop =>
    subst front
    have width : p.text.length - 1 = tail.length := by
      rw [← String.length_toList, ← shown]
      rfl
    have other : Number.isDigit c = false ∧ (c == '"' || c == '\'') = false ∧ isWordStart c = false ∧
        (c = '.' → p = .dot) := by
      cases p <;> cases shown <;> decide
    have lone : c = '.' → ∀ d ∈ (tail ++ rest).head?, Number.isDigit d = false := by
      intro point
      cases other.2.2.2 point
      cases shown
      exact stop
    rw [scanToken_other (not_startsNumber other.1 lone), other.2.1, other.2.2.1, ← List.cons_append, shown,
      leading?_append stop, ← width]
    rfl

theorem spells_of_scanNumber (starts : StartsNumber c rest) (scanned : scanNumber offset c rest = .ok (t, width)) :
    ∃ tail more, rest = tail ++ more ∧ width = tail.length ∧ Spells t (c :: tail) more.head? := by
  by_cases hex : c = '0' ∧ ∃ mark ∈ rest.head?, mark = 'x' ∨ mark = 'X'
  · obtain ⟨rfl, mark, front, marked⟩ := hex
    obtain ⟨more, rfl⟩ := List.head?_eq_some_iff.mp front
    rw [scanNumber_hex marked] at scanned
    split at scanned
    · next n read =>
      cases scanned
      refine ⟨mark :: more.takeWhile isHexDigit, more.dropWhile isHexDigit, ?_, rfl, .hex marked ?_ ?_ read⟩
      · rw [List.cons_append, List.takeWhile_append_dropWhile]
      · exact List.all_eq_true.mp List.all_takeWhile
      · intro d front
        simpa [Option.mem_def.mp front] using List.head?_dropWhile_not isHexDigit more
    · cases scanned
  · have plain : c = '0' → ∀ mark ∈ rest.head?, mark ≠ 'x' ∧ mark ≠ 'X' :=
      fun zero mark front => not_or.mp fun marked => hex ⟨zero, mark, front, marked⟩
    rw [scanNumber_decimal plain] at scanned
    have cut := List.take_append_drop (decimalRun c rest) rest
    have width := List.length_take_of_le (decimalRun_le c rest)
    generalize rest.take (decimalRun c rest) = tail at *
    generalize rest.drop (decimalRun c rest) = more at *
    subst cut
    split at scanned
    · cases scanned
    · next stop =>
      split at scanned
      · next x read =>
        cases scanned
        have run := decimalRun_append.mp width.symm
        refine ⟨tail, more, rfl, width.symm, .decimal ?_ run ?_ read⟩
        · rcases starts with digit | ⟨point, d, front, digit⟩
          · exact .inl digit
          · cases tail with
            | nil =>
              rw [List.nil_append] at front
              rw [Option.mem_def.mp front] at run
              simp [decimalRun, digit] at run
            | cons d tail => exact .inr ⟨point, d, rfl, (Option.some.inj front).symm ▸ digit⟩
        · intro d front
          simpa [Option.mem_def.mp front] using stop
      · cases scanned

theorem spells_of_scan (scanned : scanToken offset c rest = .ok (t, width)) :
    ∃ tail more, rest = tail ++ more ∧ width = tail.length ∧ Spells t (c :: tail) more.head? := by
  by_cases starts : StartsNumber c rest
  · rw [scanToken_number starts] at scanned
    exact spells_of_scanNumber starts scanned
  · rw [scanToken_other starts] at scanned
    split at scanned
    · next opens =>
      cases read : scanText c offset (offset + 1) rest with
      | error e =>
        rw [read] at scanned
        cases scanned
      | ok taken =>
        rw [read] at scanned
        cases scanned
        obtain ⟨body, more, rfl, width, quoted⟩ := quoted_of_scan read
        refine ⟨body ++ [c], more, ?_, ?_, .text (by simpa using opens) quoted⟩
        · rw [List.append_assoc, List.singleton_append]
        · rw [width, List.length_append, List.length_singleton]
    · split at scanned
      · next start =>
        cases scanned
        refine ⟨rest.takeWhile isWordChar, rest.dropWhile isWordChar, ?_, rfl, .word start ?_ ?_⟩
        · exact List.takeWhile_append_dropWhile.symm
        · exact List.all_eq_true.mp List.all_takeWhile
        · intro d front
          simpa [Option.mem_def.mp front] using List.head?_dropWhile_not isWordChar rest
      · split at scanned
        · next p found =>
          cases scanned
          obtain ⟨more, shown, stop⟩ := leading?_eq_some found
          obtain ⟨tail, spelled⟩ : ∃ tail, p.text.toList = c :: tail := by
            cases p <;> exact ⟨_, congrArg (· :: _) (List.cons.inj shown).1.symm⟩
          rw [spelled, List.cons_append] at shown
          cases shown
          refine ⟨tail, more, rfl, ?_, spelled ▸ .punct ?_⟩
          · rw [← String.length_toList, spelled]
            rfl
          · by_cases point : p = .dot
            · subst point
              cases spelled
              intro d front
              exact Bool.eq_false_iff.mpr fun digit => starts (.inr ⟨rfl, d, front, digit⟩)
            · exact stop point
        · cases scanned

theorem Spells.exists_cons (spells : Spells t spelling next) : ∃ c tail, spelling = c :: tail := by
  cases spells with
  | @punct p => cases p <;> exact ⟨_, _, rfl⟩
  | _ => exact ⟨_, _, rfl⟩

theorem Spells.visible (spells : Spells t (c :: tail) next) : Visible c := by
  generalize shown : c :: tail = spelling at spells
  cases spells with
  | word start =>
    cases shown
    exact visible_of_isWordStart start
  | text opens =>
    cases shown
    rcases opens with rfl | rfl <;> decide
  | decimal start =>
    cases shown
    rcases start with digit | ⟨rfl, -⟩
    · exact visible_of_isDigit digit
    · decide
  | hex =>
    cases shown
    decide
  | @punct p => exact p.visible c (shown ▸ List.mem_cons_self)

theorem visible_of_decimalRun (run : decimalRun c (tail ++ rest) = tail.length) : ∀ d ∈ tail, Visible d := by
  induction tail generalizing c with
  | nil => exact List.forall_mem_nil _
  | cons d tail ih =>
    obtain ⟨goes, run⟩ := decimalRun_cons run
    refine List.forall_mem_cons.mpr ⟨?_, ih run⟩
    rcases goes with digit | rfl | rfl | rfl | ⟨rfl | rfl, -⟩
    · exact visible_of_isDigit digit
    all_goals decide

/-- Only the characters of a text may take more than one byte. -/
theorem Spells.byteLength (spells : Spells t spelling next) (other : ∀ s, t ≠ .text s) :
    Text.byteLength spelling = spelling.length := by
  obtain ⟨c, tail, rfl⟩ := spells.exists_cons
  have first := spells.visible
  refine byteLength_of_visible (List.forall_mem_cons.mpr ⟨first, ?_⟩)
  generalize shown : c :: tail = spelling at spells
  cases spells with
  | word start inside stop =>
    cases shown
    exact fun d member => visible_of_isWordChar (inside d member)
  | text => exact absurd rfl (other _)
  | decimal start run =>
    cases shown
    exact visible_of_decimalRun run
  | hex marked inside =>
    cases shown
    refine List.forall_mem_cons.mpr ⟨?_, fun d member => visible_of_isHexDigit (inside d member)⟩
    rcases marked with rfl | rfl <;> decide
  | @punct p => exact fun d member => p.visible d (shown ▸ List.mem_cons_of_mem c member)

end tokens

/-! ### Texts -/

/-- The text from an offset on is cut into the lexemes, with white space between them. -/
inductive Cut : Nat → List Char → List Lexeme → Prop where
  | done {offset} : Cut offset [] [⟨.eof, offset, 0⟩]
  | blank {offset c rest ls} (blank : Text.isBlank c = true) (others : Cut (offset + c.utf8Size) rest ls) :
      Cut offset (c :: rest) ls
  | token {offset t spelling rest ls} (spells : Spells t spelling rest.head?)
      (others : Cut (offset + Text.byteLength spelling) rest ls) :
      Cut offset (spelling ++ rest) (⟨t, offset, spelling.length⟩ :: ls)

section cuts

variable {offset : Nat} {cs tail rest : List Char} {ls : List Lexeme}

theorem lexemesFrom_skip :
    lexemesFrom tail.length offset (tail ++ rest) = lexemesFrom 0 (offset + Text.byteLength tail) rest := by
  induction tail generalizing offset with
  | nil => rfl
  | cons c tail ih =>
    rw [List.length_cons, List.cons_append, lexemesFrom, ih, Text.byteLength_cons, Nat.add_assoc]

theorem cut_of_lexemesFrom {cs : List Char} {offset : Nat} {ls : List Lexeme}
    (read : lexemesFrom 0 offset cs = .ok ls) :
    Cut offset cs ls := by
  match cs with
  | [] =>
    cases read
    exact .done
  | c :: rest =>
    rw [lexemesFrom] at read
    split at read
    · next blank => exact .blank blank (cut_of_lexemesFrom read)
    · obtain ⟨⟨t, width⟩, scanned, after⟩ := bind_eq_ok.mp read
      obtain ⟨others, behind, same⟩ := bind_eq_ok.mp after
      cases same
      obtain ⟨tail, more, rfl, rfl, spells⟩ := spells_of_scan scanned
      rw [lexemesFrom_skip, Nat.add_assoc] at behind
      exact .token spells (cut_of_lexemesFrom behind)
termination_by cs.length

theorem Cut.lexemesFrom (cut : Cut offset cs ls) : lexemesFrom 0 offset cs = .ok ls := by
  induction cut with
  | done => rfl
  | blank blank _ ih => rw [Expr.lexemesFrom, if_pos blank, ih]
  | @token offset t spelling rest ls spells _ ih =>
    obtain ⟨c, tail, rfl⟩ := spells.exists_cons
    have seen : ¬ Text.isBlank c = true := by simp [spells.visible.not_blank]
    rw [List.cons_append, Expr.lexemesFrom, if_neg seen, spells.scan]
    show (Expr.lexemesFrom tail.length _ _ >>= fun others => pure (_ :: others)) = _
    rw [lexemesFrom_skip, Nat.add_assoc]
    have ih : Expr.lexemesFrom 0 (offset + (c.utf8Size + Text.byteLength tail)) rest = .ok ls := ih
    rw [ih]
    rfl

/-- The scanner cuts a text in just one way. -/
theorem lexemesFrom_iff : lexemesFrom 0 offset cs = .ok ls ↔ Cut offset cs ls :=
  ⟨cut_of_lexemesFrom, Cut.lexemesFrom⟩

/-- The tokens of a text, from whatever offset it is read. -/
def Lexes (cs : List Char) (ts : List Token) : Prop :=
  ∀ offset, ∃ ls, Cut offset cs ls ∧ tokens ls = ts

theorem lexes_nil : Lexes [] [.eof] :=
  fun _ => ⟨_, .done, rfl⟩

theorem Lexes.blank {c : Char} {ts : List Token} (blank : Text.isBlank c = true) (others : Lexes rest ts) :
    Lexes (c :: rest) ts := by
  intro offset
  obtain ⟨ls, cut, shown⟩ := others (offset + c.utf8Size)
  exact ⟨ls, .blank blank cut, shown⟩

theorem Lexes.token {t : Token} {spelling : List Char} {ts : List Token} (spells : Spells t spelling rest.head?)
    (others : Lexes rest ts) : Lexes (spelling ++ rest) (t :: ts) := by
  intro offset
  obtain ⟨ls, cut, shown⟩ := others (offset + Text.byteLength spelling)
  exact ⟨_, .token spells cut, congrArg (t :: ·) shown⟩

theorem Lexes.sign {ts : List Token} {p : Punct} {spelling : List Char} (spelled : p.text.toList = spelling)
    (stop : p.Stops rest.head?) (others : Lexes rest ts) : Lexes (spelling ++ rest) (.punct p :: ts) :=
  spelled ▸ others.token (.punct stop)

end cuts

end Stencil.Expr
