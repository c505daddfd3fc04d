import Stencil.Expression
import Stencil.Proofs.Lexing

/-!
Scoped texts and tokens. The scoped form of a text is made character by character, the tokens of a text by
another scanner; here they are compared. Where the two agree on what a bare word is (`Legible`), the scoped
text has the tokens of the source with every bare word replaced by a look-up (`Cut.scoped`).
-/
namespace Stencil.Expr

/-! ### What follows a token -/

/-- What the token read last lets follow: anything, no operand (after a number or the name of a member), or
    nothing but a name (after a point). -/
inductive Stand where
  | free
  | ended
  | pointed
  deriving DecidableEq

namespace Stand

/-- How things stand after one more token, unless it cannot follow. -/
def after : Stand → Token → Option Stand
  | pointed, .word _ => some ended
  | pointed, _ => none
  | ended, .word _ | ended, .number _ => none
  | _, .number _ => some ended
  | _, .punct .dot => some pointed
  | _, _ => some free

/-- How things stand after tokens. -/
def afterAll (s : Stand) (ts : List Token) : Option Stand :=
  ts.foldlM after s

theorem after_sign {s : Stand} {p : Punct} (whole : s ≠ pointed) (other : p ≠ .dot) :
    s.after (.punct p) = some free := by
  cases s <;> cases p <;> first | rfl | exact absurd rfl whole | exact absurd rfl other

end Stand

/-- Tokens that can follow one another, and do not end with a point. -/
def Settled (ts : List Token) : Prop :=
  ∃ s, s ≠ .pointed ∧ Stand.free.afterAll ts = some s

section settled

variable {a b ts : List Token} {t : Token} {p : Punct}

theorem settled_nil : Settled [] :=
  ⟨.free, by decide, rfl⟩

theorem Settled.cons (loose : Stand.free.after t = some .free) (others : Settled ts) : Settled (t :: ts) := by
  obtain ⟨s, whole, read⟩ := others
  refine ⟨s, whole, ?_⟩
  rw [Stand.afterAll, List.foldlM_cons, loose]
  exact read

theorem Settled.sign (first : Settled a) (other : p ≠ .dot) (second : Settled b) : Settled (a ++ .punct p :: b) := by
  obtain ⟨s, whole, read⟩ := first
  obtain ⟨s', whole', read'⟩ := second
  refine ⟨s', whole', ?_⟩
  rw [Stand.afterAll, List.foldlM_append, ← Stand.afterAll, read]
  show (Stand.after s _ >>= _) = _
  rw [Stand.after_sign whole other]
  exact read'

theorem Settled.member {name : String} (target : Settled ts) : Settled (ts ++ [.punct .dot, .word name]) := by
  obtain ⟨s, whole, read⟩ := target
  refine ⟨.ended, by decide, ?_⟩
  rw [Stand.afterAll, List.foldlM_append, ← Stand.afterAll, read]
  cases s with
  | free | ended => rfl
  | pointed => exact absurd rfl whole

theorem Key.settled {key : String} {k : List Token} (name : Key key k) : Settled k := by
  cases name with
  | number => exact ⟨.ended, by decide, rfl⟩
  | _ => exact ⟨.free, by decide, rfl⟩

theorem Derives.settled {phrase : Phrase} (derived : Derives phrase ts) : Settled ts := by
  induction derived with
  | tighter _ ih | lastItem _ ih => exact ih
  | conditional _ _ _ first second third => exact first.sign (by decide) (second.sign (by decide) third)
  | binary op _ _ first second => exact first.sign (by cases op <;> decide) second
  | unary op _ ih => exact ih.cons (by cases op <;> rfl)
  | member name _ ih => exact ih.member
  | index _ _ target inside => exact target.sign (by decide) (inside.sign (by decide) settled_nil)
  | number x => exact ⟨.ended, by decide, rfl⟩
  | text | constant | field => exact ⟨.free, by decide, rfl⟩
  | group _ ih | array _ ih | object _ ih => exact .cons rfl (ih.sign (by decide) settled_nil)
  | noItems | noEntries => exact settled_nil
  | item _ _ first second => exact first.sign (by decide) second
  | lastEntry name _ value => exact name.settled.sign (by decide) value
  | entry name _ _ value others => exact name.settled.sign (by decide) (value.sign (by decide) others)

end settled

/-! ### Scoped tokens -/

/-- The tokens with every bare word replaced by a look-up of that name; a word right after a point and a
    reserved word stand for themselves. -/
def scopedTokens (dotted : Bool) : List Token → List Token
  | [] => []
  | .word w :: rest =>
    (if dotted || reservedWords.contains w then [.word w] else lookupTokens w) ++ scopedTokens false rest
  | .punct .dot :: rest => .punct .dot :: scopedTokens true rest
  | t :: rest => t :: scopedTokens false rest

theorem scopedTokens_sign {dotted : Bool} {p : Punct} {ts : List Token} (other : p ≠ .dot) :
    scopedTokens dotted (.punct p :: ts) = .punct p :: scopedTokens false ts := by
  cases p <;> first | rfl | exact absurd rfl other

/-- The tokens can follow what was read, once bare words are replaced. -/
def Stand.Allows (s : Stand) (ts : List Token) : Prop :=
  (s.afterAll (scopedTokens (s = .pointed) ts)).isSome = true

namespace Stand.Allows

variable {s : Stand} {ts : List Token}

theorem word {w : String} (allowed : s.Allows (.word w :: ts)) :
    s = .free ∧ Stand.free.Allows ts ∨ s = .pointed ∧ Stand.ended.Allows ts := by
  cases s with
  | free =>
    refine .inl ⟨rfl, ?_⟩
    simp only [Allows, scopedTokens] at allowed
    split at allowed
    · exact allowed
    · exact allowed
  | ended =>
    simp only [Allows, scopedTokens] at allowed
    split at allowed <;> cases allowed
  | pointed => exact .inr ⟨rfl, allowed⟩

theorem number {x : Float} (allowed : s.Allows (.number x :: ts)) : s = .free ∧ Stand.ended.Allows ts := by
  cases s with
  | free => exact ⟨rfl, allowed⟩
  | ended | pointed => cases allowed

theorem text {content : String} (allowed : s.Allows (.text content :: ts)) : Stand.free.Allows ts := by
  cases s with
  | free | ended => exact allowed
  | pointed => cases allowed

theorem point (allowed : s.Allows (.punct .dot :: ts)) : Stand.pointed.Allows ts := by
  cases s with
  | free | ended => exact allowed
  | pointed => cases allowed

theorem sign {p : Punct} (allowed : s.Allows (.punct p :: ts)) (other : p ≠ .dot) : Stand.free.Allows ts := by
  rw [Allows, scopedTokens_sign other, Stand.afterAll, List.foldlM_cons] at allowed
  cases s with
  | free | ended =>
    rw [Stand.after_sign (by decide) other] at allowed
    exact allowed
  | pointed => cases allowed

end Stand.Allows

/-! ### The machine over the spelling of a token -/

section machine

variable {c d quote : Char} {previous : Option Char} {cs tail rest content body : List Char}

/-- A character that is copied and opens nothing. -/
def Inert (c : Char) : Prop :=
  isWordStart c = false ∧ c ≠ '"' ∧ c ≠ '\'' ∧ Number.isDigit c = false

instance : DecidablePred Inert :=
  fun _ => inferInstanceAs (Decidable (_ ∧ _))

theorem scopeFrom_inert (inert : Inert c) :
    scopeFrom .plain previous (c :: rest) = c :: scopeFrom .plain (some c) rest := by
  obtain ⟨other, double, single, digit⟩ := inert
  simp [scopeFrom, ScopeMode.step, openMode, other, double, single, digit]

theorem getLast?_cons_or : (c :: body).getLast?.or previous = body.getLast?.or (some c) := by
  rw [List.getLast?_cons]
  cases body.getLast? <;> rfl

theorem scopeFrom_signs (inert : ∀ d ∈ cs, Inert d) :
    scopeFrom .plain previous (cs ++ rest) = cs ++ scopeFrom .plain (cs.getLast?.or previous) rest := by
  induction cs generalizing previous with
  | nil => rfl
  | cons c cs ih =>
    obtain ⟨first, others⟩ := List.forall_mem_cons.mp inert
    rw [List.cons_append, scopeFrom_inert first, ih others, getLast?_cons_or, List.cons_append]

theorem Punct.inert (p : Punct) : ∀ c ∈ p.text.toList, Inert c := by
  cases p <;> simp [Punct.text, Inert, isWordStart, Number.isDigit, Char.le_def]

theorem Punct.getLast?_text (p : Punct) : p.text.toList.getLast?.or previous = some '.' ↔ p = .dot := by
  cases p <;> simp [Punct.text]

theorem scopeFrom_goesOn {read : List Char} {afterDot : Bool} (inside : isWordChar c = true) :
    scopeFrom (.word read afterDot) previous (c :: rest) = scopeFrom (.word (read ++ [c]) afterDot) (some c) rest := by
  rw [scopeFrom, ScopeMode.step, if_pos inside]
  rfl

theorem scopeFrom_ends {read : List Char} {afterDot : Bool} (stop : ∀ d ∈ cs.head?, isWordChar d = false) :
    scopeFrom (.word read afterDot) previous cs = scopedWord read afterDot ++ scopeFrom .plain previous cs := by
  cases cs with
  | nil => exact (List.append_nil _).symm
  | cons d rest => simp [scopeFrom, ScopeMode.step, stop d rfl]

theorem scopeFrom_inside (read : List Char) (afterDot : Bool) (inside : ∀ d ∈ tail, isWordChar d = true)
    (stop : ∀ d ∈ rest.head?, isWordChar d = false) (last : previous ≠ some '.') :
    ∃ p, p ≠ some '.' ∧ scopeFrom (.word read afterDot) previous (tail ++ rest) =
      scopedWord (read ++ tail) afterDot ++ scopeFrom .plain p rest := by
  induction tail generalizing read previous with
  | nil => exact ⟨previous, last, by rw [List.append_nil, List.nil_append, scopeFrom_ends stop]⟩
  | cons d tail ih =>
    obtain ⟨first, others⟩ := List.forall_mem_cons.mp inside
    have other : some d ≠ some '.' := by
      rintro ⟨⟩
      exact absurd first (by decide)
    obtain ⟨p, last, written⟩ := ih (read ++ [d]) others other
    refine ⟨p, last, ?_⟩
    rw [List.cons_append, scopeFrom_goesOn first, written, List.append_assoc, List.singleton_append]

theorem scopeFrom_word (start : isWordStart c = true) (inside : ∀ d ∈ tail, isWordChar d = true)
    (stop : ∀ d ∈ rest.head?, isWordChar d = false) : ∃ p, p ≠ some '.' ∧
      scopeFrom .plain previous (c :: tail ++ rest) =
        scopedWord (c :: tail) (previous == some '.') ++ scopeFrom .plain p rest := by
  have other : some c ≠ some '.' := by
    rintro ⟨⟩
    exact absurd start (by decide)
  obtain ⟨p, last, read⟩ := scopeFrom_inside [c] (previous == some '.') inside stop other
  refine ⟨p, last, ?_⟩
  simp [scopeFrom, ScopeMode.step, openMode, start, read]

theorem scopeFrom_quoted (stays : c = quote → previous = some '\\') :
    scopeFrom (.quoted quote) previous (c :: rest) = c :: scopeFrom (.quoted quote) (some c) rest := by
  have kept : ¬ (c = quote ∧ previous ≠ some '\\') := fun ⟨same, other⟩ => other (stays same)
  rw [scopeFrom, ScopeMode.step, if_neg kept]
  rfl

theorem scopeFrom_close (closes : previous ≠ some '\\') :
    scopeFrom (.quoted quote) previous (quote :: rest) = quote :: scopeFrom .plain (some quote) rest := by
  have left : quote = quote ∧ previous ≠ some '\\' := ⟨rfl, closes⟩
  rw [scopeFrom, ScopeMode.step, if_pos left]
  rfl

/-- Between quotes the machine stays there: a quote in the content has a backslash right before it. -/
theorem Quoted.scopeFrom (opens : quote = '"' ∨ quote = '\'') (quoted : Quoted quote content body) :
    scopeFrom (.quoted quote) previous (body ++ rest) =
      body ++ scopeFrom (.quoted quote) (body.getLast?.or previous) rest := by
  have bare : isHexDigit quote = false ∧ '\\' ≠ quote := by rcases opens with rfl | rfl <;> decide
  have digit {d : Char} (hex : isHexDigit d = true) : d ≠ quote := by
    rintro rfl
    rw [bare.1] at hex
    cases hex
  induction quoted generalizing previous with
  | nil => rfl
  | plain other _ _ ih =>
    rw [List.cons_append, scopeFrom_quoted (absurd · other), ih, getLast?_cons_or, List.cons_append]
  | escape _ _ ih =>
    simp only [List.cons_append]
    rw [scopeFrom_quoted (absurd · bare.2), scopeFrom_quoted fun _ => rfl, ih, getLast?_cons_or, getLast?_cons_or]
  | codePoint digits _ _ ih =>
    simp only [List.all_cons, List.all_nil, Bool.and_eq_true] at digits
    obtain ⟨first, second, third, fourth, -⟩ := digits
    simp only [List.cons_append]
    rw [scopeFrom_quoted (absurd · bare.2), scopeFrom_quoted fun _ => rfl, scopeFrom_quoted (absurd · (digit first)),
      scopeFrom_quoted (absurd · (digit second)), scopeFrom_quoted (absurd · (digit third)),
      scopeFrom_quoted (absurd · (digit fourth)), ih]
    simp only [getLast?_cons_or]

theorem scopeFrom_text (opens : quote = '"' ∨ quote = '\'') (quoted : Quoted quote content body)
    (closes : (quote :: body).getLast? ≠ some '\\') :
    scopeFrom .plain previous (quote :: (body ++ [quote]) ++ rest) =
      quote :: (body ++ [quote]) ++ scopeFrom .plain (some quote) rest := by
  have opened : scopeFrom .plain previous (quote :: (body ++ quote :: rest)) =
      quote :: scopeFrom (.quoted quote) (some quote) (body ++ quote :: rest) := by
    rcases opens with rfl | rfl <;> rfl
  have last : body.getLast?.or (some quote) ≠ some '\\' := by
    intro same
    rw [← getLast?_cons_or, Option.or_none] at same
    exact closes same
  simp only [List.cons_append, List.append_assoc, List.nil_append]
  rw [opened, quoted.scopeFrom opens, scopeFrom_close last]

/-! #### Numbers -/

/-- The machine leaves a number where the number does not go on. -/
theorem scopeFrom_leave {hex : Bool} (stop : ∀ d ∈ cs.head?, continuesNumber hex previous d = false) :
    scopeFrom (.number hex) previous cs = scopeFrom .plain previous cs := by
  cases cs with
  | nil => rfl
  | cons d rest => simp [scopeFrom, ScopeMode.step, stop d rfl]

theorem continuesNumber_hex : continuesNumber true previous c = (c.isAlphanum || c == '.' || c == '_') := by
  simp [continuesNumber]

theorem visible_of_continuesNumber (goes : continuesNumber true previous c = true) : Visible c := by
  simp only [continuesNumber_hex, Bool.or_eq_true, beq_iff_eq] at goes
  rcases goes with (letter | rfl) | rfl
  · exact visible_of_isWordChar (by simp [isWordChar, letter])
  · decide
  · decide

theorem Punct.not_continuesNumber {p : Punct} (other : p ≠ .dot) :
    ∀ c ∈ p.text.toList, continuesNumber true previous c = false := by
  cases p with
  | dot => exact absurd rfl other
  | _ => simp [Punct.text, continuesNumber_hex]

theorem scopeFrom_digit (digit : Number.isDigit c = true) :
    scopeFrom .plain previous (c :: rest) = c :: scopeFrom (.number false) (some c) rest := by
  have other : isWordStart c = false ∧ c ≠ '"' ∧ c ≠ '\'' := by
    refine ⟨?_, ?_, ?_⟩
    · exact Bool.eq_false_iff.mpr fun start => by simp [not_isDigit_of_isWordStart start] at digit
    all_goals
      rintro rfl
      exact absurd digit (by decide)
  simp [scopeFrom, ScopeMode.step, openMode, other, digit]

theorem scopeFrom_goes {hex : Bool} (goes : continuesNumber hex previous c = true) :
    scopeFrom (.number hex) previous (c :: rest) =
      c :: scopeFrom (.number (hex || c == 'x' || c == 'X')) (some c) rest := by
  rw [scopeFrom, ScopeMode.step, if_pos goes]
  rfl

theorem scopeFrom_run (run : decimalRun c (tail ++ rest.head?.toList) = tail.length)
    (stop : ∀ d ∈ rest.head?, d.isAlpha = false ∧ d ≠ '_') : ∃ p,
      scopeFrom (.number false) (some c) (tail ++ rest) = tail ++ scopeFrom .plain p rest := by
  induction tail generalizing c with
  | nil =>
    refine ⟨some c, scopeFrom_leave fun d front => ?_⟩
    have front : rest.head? = some d := front
    obtain ⟨letter, other⟩ := stop d front
    rw [front, Option.toList_some, List.nil_append, decimalRun] at run
    split at run
    · cases run
    · next ends =>
      rw [Bool.eq_false_iff, continuesNumber]
      simp only [Bool.or_eq_true, isAlphanum_iff, ne_eq] at ends ⊢
      grind
  | cons d tail ih =>
    obtain ⟨goes, run⟩ := decimalRun_cons run
    obtain ⟨p, written⟩ := ih run
    have kept : continuesNumber false (some c) d = true ∧ (false || d == 'x' || d == 'X') = false := by
      rcases goes with digit | rfl | rfl | rfl | ⟨rfl | rfl, rfl | rfl⟩
      · constructor
        · simp [continuesNumber, isAlphanum_iff.mpr (.inr digit)]
        · rw [Bool.false_or, Bool.or_eq_false_iff, beq_eq_false_iff_ne, beq_eq_false_iff_ne]
          constructor <;> rintro rfl <;> exact absurd digit (by decide)
      all_goals exact ⟨rfl, rfl⟩
    exact ⟨p, by rw [List.cons_append, scopeFrom_goes kept.1, kept.2, written, List.cons_append]⟩

theorem scopeFrom_decimal (start : StartsNumber c tail) (run : decimalRun c (tail ++ rest.head?.toList) = tail.length)
    (stop : ∀ d ∈ rest.head?, d.isAlpha = false ∧ d ≠ '_') : ∃ p,
      scopeFrom .plain previous (c :: tail ++ rest) = c :: tail ++ scopeFrom .plain p rest := by
  rcases start with digit | ⟨rfl, d, front, digit⟩
  · obtain ⟨p, written⟩ := scopeFrom_run run stop
    exact ⟨p, by rw [List.cons_append, scopeFrom_digit digit, written, List.cons_append]⟩
  · obtain ⟨tail, rfl⟩ := List.head?_eq_some_iff.mp front
    obtain ⟨p, written⟩ := scopeFrom_run (decimalRun_cons run).2 stop
    have point : Inert '.' := by decide
    exact ⟨p, by simp only [List.cons_append, scopeFrom_inert point, scopeFrom_digit digit, written]⟩

/-- In a hexadecimal number the machine copies letters, digits and underscores, whatever they belong to. -/
theorem scopeFrom_copied (inside : ∀ d ∈ tail, d.isAlphanum = true ∨ d = '_') : ∃ p,
    scopeFrom (.number true) previous (tail ++ rest) = tail ++ scopeFrom (.number true) p rest := by
  induction tail generalizing previous with
  | nil => exact ⟨previous, rfl⟩
  | cons d tail ih =>
    obtain ⟨first, others⟩ := List.forall_mem_cons.mp inside
    obtain ⟨p, written⟩ :
        ∃ p, scopeFrom (.number true) (some d) (tail ++ rest) = tail ++ scopeFrom (.number true) p rest :=
      ih others
    have goes : continuesNumber true previous d = true := by
      rcases first with letter | rfl
      · simp [continuesNumber, letter]
      · simp [continuesNumber]
    exact ⟨p, by rw [List.cons_append, scopeFrom_goes goes, Bool.true_or, Bool.true_or, written, List.cons_append]⟩

theorem scopeFrom_hex {mark : Char} (marked : mark = 'x' ∨ mark = 'X') (inside : ∀ d ∈ tail, isHexDigit d = true) :
    ∃ p, scopeFrom .plain previous ('0' :: mark :: tail ++ rest) =
      '0' :: mark :: tail ++ scopeFrom (.number true) p rest := by
  have copied : ∀ d ∈ tail, d.isAlphanum = true ∨ d = '_' := by
    intro d member
    have digit := isHexDigit_iff.mp (inside d member)
    rw [isAlphanum_iff, isAlpha_iff, isDigit_iff]
    omega
  obtain ⟨p, written⟩ :
      ∃ p, scopeFrom (.number true) (some mark) (tail ++ rest) = tail ++ scopeFrom (.number true) p rest :=
    scopeFrom_copied copied
  refine ⟨p, ?_⟩
  have goes : continuesNumber false (some '0') mark = true ∧ (false || mark == 'x' || mark == 'X') = true := by
    rcases marked with rfl | rfl <;> decide
  simp only [List.cons_append]
  rw [scopeFrom_digit (by decide), scopeFrom_goes goes.1, goes.2, written]

/-! #### The first character that is written -/

theorem head?_scopeFrom_word {read : List Char} {afterDot : Bool} (start : isWordStart c = true) :
    ∃ d, (scopeFrom (.word (c :: read) afterDot) previous cs).head? = some d ∧ isWordStart d = true := by
  induction cs generalizing read previous with
  | nil =>
    rw [scopeFrom, ScopeMode.finish, scopedWord]
    split
    · exact ⟨c, rfl, start⟩
    · exact ⟨'c', rfl, by decide⟩
  | cons d rest ih =>
    by_cases inside : isWordChar d = true
    · rw [scopeFrom_goesOn inside, List.cons_append]
      exact ih
    · rw [scopeFrom_ends (by simpa using inside), scopedWord]
      split
      · exact ⟨c, rfl, start⟩
      · exact ⟨'c', rfl, by decide⟩

/-- What is written starts as what is read, or both start with a word. -/
def StartsAlike (written read : List Char) : Prop :=
  written.head? = read.head? ∨
    ∃ c d, read.head? = some c ∧ isWordStart c = true ∧ written.head? = some d ∧ isWordStart d = true

theorem startsAlike_plain : StartsAlike (scopeFrom .plain previous cs) cs := by
  cases cs with
  | nil => exact .inl rfl
  | cons c rest =>
    by_cases start : isWordStart c = true
    · have opened : scopeFrom .plain previous (c :: rest) =
          scopeFrom (.word [c] (previous == some '.')) (some c) rest := by
        simp [scopeFrom, ScopeMode.step, openMode, start]
      obtain ⟨d, written, letter⟩ := head?_scopeFrom_word start
      exact .inr ⟨c, d, rfl, start, opened ▸ written, letter⟩
    · refine .inl ?_
      simp only [scopeFrom, ScopeMode.step, openMode, if_neg start]
      split
      · rfl
      · split <;> rfl

theorem startsAlike_number {hex : Bool} : StartsAlike (scopeFrom (.number hex) previous cs) cs := by
  cases cs with
  | nil => exact .inl rfl
  | cons c rest =>
    by_cases goes : continuesNumber hex previous c = true
    · exact .inl (by rw [scopeFrom_goes goes]; rfl)
    · rw [scopeFrom_leave (by simpa using goes)]
      exact startsAlike_plain

end machine

/-! ### Texts that both scanners read alike -/

/-- The characters of a lexeme. -/
def Lexeme.spelling (source : String) (l : Lexeme) : List Char :=
  (source.toList.drop (Text.takeBytes l.offset source.toList).length).take l.width

/-- Names that hang on a number by points, with nothing between them, the first point at `stop`: up to one
    that starts with a dollar sign, they have none. -/
def PlainNames : (stop : Nat) → List Lexeme → Prop
  | stop, point :: name :: rest =>
    ∀ w, point.token = .punct .dot → point.offset = stop → name.token = .word w → name.offset = stop + 1 →
      w.toList.head? = some '$' ∨ '$' ∉ w.toList ∧ PlainNames (name.offset + name.width) rest
  | _, _ => True

/-- A bare word among the lexemes, if it is the first, stands at `stop`. -/
def NameAt (stop : Nat) (ls : List Lexeme) : Prop :=
  ∀ l ∈ ls.head?, ∀ w, l.token = .word w → w ∈ reservedWords ∨ l.offset = stop

/-- What has to be told about a lexeme from its characters can be told: a text does not end with a backslash
    before its quote, a name stands right after its point, and a number is told from the names after it. -/
def Lexeme.Clear (source : String) (l : Lexeme) (rest : List Lexeme) : Prop :=
  match l.token with
  | .text _ => (l.spelling source).dropLast.getLast? ≠ some '\\'
  | .punct .dot => NameAt (l.offset + 1) rest
  | .number _ => PlainNames (l.offset + l.width) rest
  | _ => True

/-- Every lexeme can be told from its characters. -/
def Legible (source : String) : List Lexeme → Prop
  | [] => True
  | l :: rest => l.Clear source rest ∧ Legible source rest

/-- The characters stand at an offset of the source. -/
def StandsAt (source : String) (offset : Nat) (cs : List Char) : Prop :=
  ∃ before, source.toList = before ++ cs ∧ Text.byteLength before = offset

section places

variable {source : String} {offset : Nat} {before spelling rest : List Char}

theorem StandsAt.append (stands : StandsAt source offset (spelling ++ rest)) :
    StandsAt source (offset + Text.byteLength spelling) rest := by
  obtain ⟨before, shown, rfl⟩ := stands
  exact ⟨before ++ spelling, by rw [shown, List.append_assoc], Text.byteLength_append⟩

theorem StandsAt.next {c : Char} (stands : StandsAt source offset (c :: rest)) :
    StandsAt source (offset + c.utf8Size) rest := by
  obtain ⟨before, shown, rfl⟩ := stands
  exact ⟨before ++ [c], by rw [shown, List.append_assoc, List.singleton_append], Text.byteLength_append⟩

theorem StandsAt.spelled {t : Token} (stands : StandsAt source offset (spelling ++ rest)) :
    Lexeme.spelling source ⟨t, offset, spelling.length⟩ = spelling := by
  obtain ⟨before, shown, rfl⟩ := stands
  simp only [Lexeme.spelling, shown, Text.takeBytes_append, List.drop_left, List.take_left]

end places

/-! ### Scoped texts -/

section lookups

variable {c : Char} {tail rest : List Char} {ts : List Token}

theorem quoted_word {name : List Char} (inside : ∀ d ∈ name, isWordChar d = true) : Quoted '\'' name name := by
  induction name with
  | nil => exact .nil
  | cons d name ih =>
    obtain ⟨first, others⟩ := List.forall_mem_cons.mp inside
    refine .plain ?_ ?_ (ih others) <;>
    · rintro rfl
      exact absurd first (by decide)

theorem Lexes.lookup (start : isWordStart c = true) (inside : ∀ d ∈ tail, isWordChar d = true)
    (others : Lexes rest ts) :
    Lexes (lookupText (c :: tail) ++ rest) (lookupTokens (String.ofList (c :: tail)) ++ ts) := by
  have quoted := quoted_word (List.forall_mem_cons.mpr ⟨isWordChar_iff.mpr (.inl start), inside⟩)
  have closed : Lexes ([']'] ++ rest) (.punct .closeBracket :: ts) := others.sign rfl trivial
  have key := closed.token (.text (.inr rfl) quoted)
  have opened : Lexes (['['] ++ _) (.punct .openBracket :: _) := key.sign rfl trivial
  have context : Spells (.word (String.ofList ['c', 'o', 'n', 't', 'e', 'x', 't']))
      ['c', 'o', 'n', 't', 'e', 'x', 't'] (some '[') :=
    .word (by decide) (by simp [isWordChar]) (by rintro d ⟨⟩; decide)
  have whole := opened.token context
  have shown : lookupText (c :: tail) ++ rest =
      ['c', 'o', 'n', 't', 'e', 'x', 't'] ++ (['['] ++ ('\'' :: (c :: tail ++ ['\'']) ++ ([']'] ++ rest))) := by
    have front : "context['".toList = ['c', 'o', 'n', 't', 'e', 'x', 't'] ++ ['[', '\''] := rfl
    have back : "']".toList = ['\'', ']'] := rfl
    unfold lookupText
    simp only [front, back, List.append_assoc, List.cons_append, List.nil_append]
  rw [shown]
  exact whole

end lookups

/-- What `previous` says about a name that may come next, after what was read stands as `s`. -/
structure Expects (s : Stand) (previous : Option Char) (offset : Nat) (ls : List Lexeme) : Prop where
  free : s = .free → previous ≠ some '.'
  pointed : s = .pointed → ∃ stop, stop ≤ offset ∧ NameAt stop ls ∧ (stop = offset → previous = some '.')

/-- The text after what was read is scoped as its tokens are. -/
def ScopedPlainly (offset : Nat) (cs : List Char) (ls : List Lexeme) : Prop :=
  ∀ s previous, s.Allows (tokens ls) → Expects s previous offset ls →
    Lexes (scopeFrom .plain previous cs) (scopedTokens (s = .pointed) (tokens ls))

/-- The text is scoped as its tokens are, also while the machine takes it for a part of a number. -/
structure Scoped (offset : Nat) (cs : List Char) (ls : List Lexeme) : Prop where
  plain : ScopedPlainly offset cs ls
  number : ∀ previous, Stand.ended.Allows (tokens ls) → PlainNames offset ls →
    Lexes (scopeFrom (.number true) previous cs) (scopedTokens false (tokens ls))
  point : Stand.pointed.Allows (tokens ls) → NameAt offset ls →
    (∀ l rest w, ls = l :: rest → l.token = .word w → l.offset = offset →
      w.toList.head? = some '$' ∨ '$' ∉ w.toList ∧ PlainNames (offset + l.width) rest) →
    Lexes (scopeFrom (.number true) (some '.') cs) (scopedTokens true (tokens ls))

section steps

variable {source : String} {offset width n : Nat} {c quote : Char} {tail rest cs content body : List Char}
  {ls : List Lexeme} {s : Stand} {previous : Option Char}

theorem expects_free (other : previous ≠ some '.') : Expects .free previous offset ls :=
  ⟨fun _ => other, by rintro ⟨⟩⟩

theorem expects_ended : Expects .ended previous offset ls :=
  ⟨by rintro ⟨⟩, by rintro ⟨⟩⟩

theorem expects_pointed (name : NameAt offset ls) : Expects .pointed (some '.') offset ls :=
  ⟨by rintro ⟨⟩, fun _ => ⟨offset, Nat.le_refl _, name, fun _ => rfl⟩⟩

theorem Expects.blank (expects : Expects s previous offset ls) (other : c ≠ '.') :
    Expects s (some c) (offset + c.utf8Size) ls := by
  refine ⟨fun _ same => other (Option.some.inj same), fun pointed => ?_⟩
  obtain ⟨stop, before, name, -⟩ := expects.pointed pointed
  have positive := c.utf8Size_pos
  exact ⟨stop, by omega, name, by omega⟩

theorem ne_of_isBlank {d : Char} (blank : Text.isBlank c = true) (visible : Visible d) : c ≠ d := by
  rintro rfl
  rw [visible.not_blank] at blank
  cases blank

theorem not_isWordStart_of_stop (stop : ∀ d ∈ cs.head?, isWordChar d = false) :
    ∀ d ∈ cs.head?, isWordStart d = false := by
  intro d front
  rw [Bool.eq_false_iff]
  intro start
  cases (isWordChar_iff.mpr (.inl start)).symm.trans (stop d front)

theorem StartsAlike.head?_eq {written : List Char} (alike : StartsAlike written cs)
    (stop : ∀ d ∈ cs.head?, isWordStart d = false) : written.head? = cs.head? := by
  rcases alike with same | ⟨c, d, front, start, -⟩
  · exact same
  · rw [stop c front] at start
    cases start

theorem Stand.Allows.exists_word {t : Token} {ts : List Token} (allowed : Stand.pointed.Allows (t :: ts)) :
    ∃ w, t = .word w := by
  cases t with
  | word w => exact ⟨w, rfl⟩
  | punct p => cases p <;> cases allowed
  | _ => cases allowed

theorem Spells.exists_word {t : Token} {next : Option Char} (spells : Spells t (c :: tail) next)
    (start : isWordStart c = true) :
    ∃ w, t = .word w := by
  generalize shown : c :: tail = spelling at spells
  cases spells with
  | word => exact ⟨_, rfl⟩
  | text opens =>
    cases shown
    rcases opens with rfl | rfl <;> exact absurd start (by decide)
  | decimal number =>
    cases shown
    rcases number with digit | ⟨rfl, -⟩
    · rw [not_isDigit_of_isWordStart start] at digit
      cases digit
    · exact absurd start (by decide)
  | hex =>
    cases shown
    exact absurd start (by decide)
  | @punct p =>
    have inert := p.inert c (shown ▸ List.mem_cons_self)
    rw [inert.1] at start
    cases start

/-- What follows a number or the name of a member does not start with a word. -/
theorem Cut.not_isWordStart (cut : Cut offset cs ls) (allowed : Stand.ended.Allows (tokens ls)) :
    ∀ d ∈ cs.head?, isWordStart d = false := by
  intro d front
  rw [Bool.eq_false_iff]
  intro start
  cases cut with
  | done => cases front
  | blank blank =>
    cases front
    rw [(visible_of_isWordStart start).not_blank] at blank
    cases blank
  | token spells =>
    obtain ⟨c, tail, rfl⟩ := spells.exists_cons
    cases front
    obtain ⟨w, rfl⟩ := spells.exists_word start
    rcases allowed.word with ⟨⟨⟩, -⟩ | ⟨⟨⟩, -⟩

/-! #### One token after another -/

theorem scopedPlainly_blank (blank : Text.isBlank c = true) (others : ScopedPlainly (offset + c.utf8Size) rest ls) :
    ScopedPlainly offset (c :: rest) ls := by
  intro s previous allowed expects
  have inert : Inert c := by
    refine ⟨?_, ne_of_isBlank blank (by decide), ne_of_isBlank blank (by decide), ?_⟩
    · exact Bool.eq_false_iff.mpr fun start => ne_of_isBlank blank (visible_of_isWordStart start) rfl
    · exact Bool.eq_false_iff.mpr fun digit => ne_of_isBlank blank (visible_of_isDigit digit) rfl
  rw [scopeFrom_inert inert]
  exact (others s (some c) allowed (expects.blank (ne_of_isBlank blank (by decide)))).blank blank

section words

variable {ts : List Token} (start : isWordStart c = true) (inside : ∀ d ∈ tail, isWordChar d = true)
  (stop : ∀ d ∈ rest.head?, isWordChar d = false)
  (others : ∀ p, p ≠ some '.' → Lexes (scopeFrom .plain p rest) ts)

include start inside stop others

theorem lexes_word (kept : (previous == some '.' || reservedWords.contains (String.ofList (c :: tail))) = true) :
    Lexes (scopeFrom .plain previous (c :: tail ++ rest)) (.word (String.ofList (c :: tail)) :: ts) := by
  obtain ⟨p, last, written⟩ := scopeFrom_word start inside stop
  rw [written, scopedWord, if_pos kept]
  refine (others p last).token (.word start inside ?_)
  rw [startsAlike_plain.head?_eq (not_isWordStart_of_stop stop)]
  exact stop

theorem lexes_name (bare : ¬ (previous == some '.' || reservedWords.contains (String.ofList (c :: tail))) = true) :
    Lexes (scopeFrom .plain previous (c :: tail ++ rest)) (lookupTokens (String.ofList (c :: tail)) ++ ts) := by
  obtain ⟨p, last, written⟩ := scopeFrom_word start inside stop
  rw [written, scopedWord, if_neg bare]
  exact (others p last).lookup start inside

end words

theorem scopedPlainly_word (start : isWordStart c = true) (inside : ∀ d ∈ tail, isWordChar d = true)
    (stop : ∀ d ∈ rest.head?, isWordChar d = false) (others : ScopedPlainly (offset + width) rest ls) :
    ScopedPlainly offset (c :: tail ++ rest) (⟨.word (String.ofList (c :: tail)), offset, n⟩ :: ls) := by
  intro s previous allowed expects
  rcases allowed.word with ⟨rfl, behind⟩ | ⟨rfl, behind⟩
  · have following : ∀ p, p ≠ some '.' → Lexes (scopeFrom .plain p rest) (scopedTokens false (tokens ls)) :=
      fun p last => others .free p behind (expects_free last)
    have undotted : (previous == some '.') = false := by simpa using expects.free rfl
    rw [tokens, List.map_cons, scopedTokens]
    split
    · next reserved => exact lexes_word start inside stop following (by rw [undotted]; exact reserved)
    · next other => exact lexes_name start inside stop following (by rw [undotted]; exact other)
  · obtain ⟨stop', -, name, touches⟩ := expects.pointed rfl
    refine lexes_word start inside stop (fun p _ => others .ended p behind expects_ended) ?_
    rcases name _ rfl _ rfl with reserved | same
    · rw [List.contains_iff_mem.mpr reserved, Bool.or_true]
    · rw [touches same.symm]
      rfl

theorem scopedPlainly_text (opens : quote = '"' ∨ quote = '\'') (quoted : Quoted quote content body)
    (closes : (quote :: body).getLast? ≠ some '\\') (others : ScopedPlainly (offset + width) rest ls) :
    ScopedPlainly offset (quote :: (body ++ [quote]) ++ rest) (⟨.text (String.ofList content), offset, n⟩ :: ls) := by
  intro s previous allowed expects
  have other : some quote ≠ some '.' := by
    rcases opens with rfl | rfl <;> decide
  have following := others .free (some quote) allowed.text (expects_free other)
  rw [scopeFrom_text opens quoted closes]
  exact following.token (.text opens quoted)

theorem scopedPlainly_decimal {x : Float} (start : StartsNumber c tail)
    (run : decimalRun c (tail ++ rest.head?.toList) = tail.length)
    (stop : ∀ d ∈ rest.head?, d.isAlpha = false ∧ d ≠ '_') (read : Number.readDecimal? (c :: tail) = some x)
    (cut : Cut (offset + width) rest ls) (others : ScopedPlainly (offset + width) rest ls) :
    ScopedPlainly offset (c :: tail ++ rest) (⟨.number x, offset, n⟩ :: ls) := by
  intro s previous allowed expects
  obtain ⟨p, written⟩ := scopeFrom_decimal start run stop
  obtain ⟨rfl, behind⟩ := allowed.number
  have following := others .ended p behind expects_ended
  rw [written]
  refine following.token ?_
  rw [startsAlike_plain.head?_eq (cut.not_isWordStart behind)]
  exact .decimal start run stop read

theorem scopedPlainly_hex {mark : Char} {value : Nat} (marked : mark = 'x' ∨ mark = 'X')
    (inside : ∀ d ∈ tail, isHexDigit d = true) (stop : ∀ d ∈ rest.head?, isHexDigit d = false)
    (read : Number.readHex? tail = some value) (cut : Cut (offset + width) rest ls)
    (names : PlainNames (offset + width) ls) (others : Scoped (offset + width) rest ls) :
    ScopedPlainly offset ('0' :: mark :: tail ++ rest) (⟨.number (Float.ofNat value), offset, n⟩ :: ls) := by
  intro s previous allowed expects
  obtain ⟨p, written⟩ := scopeFrom_hex marked inside
  obtain ⟨rfl, behind⟩ := allowed.number
  have following := others.number p behind names
  rw [written]
  refine following.token ?_
  rw [startsAlike_number.head?_eq (cut.not_isWordStart behind)]
  exact .hex marked inside stop read

theorem stops_of_isWordStart {p : Punct} (start : isWordStart c = true) : p.Stops (some c) := by
  have other : some c ≠ some '=' := by
    rintro ⟨⟩
    exact absurd start (by decide)
  have digit : ∀ d ∈ some c, Number.isDigit d = false := by
    rintro d ⟨⟩
    exact not_isDigit_of_isWordStart start
  cases p <;> first | exact trivial | exact other | exact digit

theorem StartsAlike.stops {p : Punct} {written : List Char} (alike : StartsAlike written cs) (stop : p.Stops cs.head?) :
    p.Stops written.head? := by
  rcases alike with same | ⟨c, d, -, -, same, start⟩
  · rw [same]
    exact stop
  · rw [same]
    exact stops_of_isWordStart start

theorem scopedPlainly_punct {p : Punct} (stop : p.Stops rest.head?) (name : p = .dot → NameAt (offset + 1) ls)
    (others : ScopedPlainly (offset + Text.byteLength p.text.toList) rest ls) :
    ScopedPlainly offset (p.text.toList ++ rest) (⟨.punct p, offset, n⟩ :: ls) := by
  intro s previous allowed expects
  rw [scopeFrom_signs p.inert]
  by_cases point : p = .dot
  · subst point
    have following := others .pointed _ allowed.point (expects_pointed (name rfl))
    exact following.sign rfl (startsAlike_plain.stops stop)
  · have last : p.text.toList.getLast?.or previous ≠ some '.' := mt p.getLast?_text.mp point
    have following := others .free _ (allowed.sign point) (expects_free last)
    rw [tokens, List.map_cons, scopedTokens_sign point]
    exact following.sign rfl (startsAlike_plain.stops stop)

/-! #### Runs -/

theorem scopedPlainly_token {t : Token} {spelling : List Char} (spells : Spells t spelling rest.head?)
    (stands : StandsAt source offset (spelling ++ rest)) (clear : Lexeme.Clear source ⟨t, offset, spelling.length⟩ ls)
    (cut : Cut (offset + Text.byteLength spelling) rest ls)
    (others : Scoped (offset + Text.byteLength spelling) rest ls) :
    ScopedPlainly offset (spelling ++ rest) (⟨t, offset, spelling.length⟩ :: ls) := by
  have width := spells.byteLength
  generalize front : rest.head? = next at spells
  cases spells with
  | word start inside stop =>
    subst front
    exact scopedPlainly_word start inside stop others.plain
  | @text quote content body _ opens quoted =>
    have closes : ((quote :: body) ++ [quote]).dropLast.getLast? ≠ some '\\' := by
      have spelled : Lexeme.spelling source ⟨.text (String.ofList content), offset, _⟩ = quote :: body ++ [quote] :=
        stands.spelled
      exact spelled ▸ clear
    rw [List.dropLast_concat] at closes
    exact scopedPlainly_text opens quoted closes others.plain
  | decimal start run stop read =>
    subst front
    exact scopedPlainly_decimal start run stop read cut others.plain
  | hex marked inside stop read =>
    subst front
    have names : PlainNames (offset + _) ls := clear
    rw [← width (by rintro s ⟨⟩)] at names
    exact scopedPlainly_hex marked inside stop read cut names others
  | @punct p _ stop =>
    subst front
    refine scopedPlainly_punct stop (fun point => ?_) others.plain
    subst point
    exact clear

/-- Where the machine leaves a number, the text is scoped as its tokens are. -/
theorem ScopedPlainly.leave (plain : ScopedPlainly offset cs ls) (allowed : s.Allows (tokens ls))
    (expects : Expects s previous offset ls) (stop : ∀ d ∈ cs.head?, continuesNumber true previous d = false) :
    Lexes (scopeFrom (.number true) previous cs) (scopedTokens (s = .pointed) (tokens ls)) := by
  rw [scopeFrom_leave stop]
  exact plain s previous allowed expects

theorem Spells.eq_point {t : Token} {next : Option Char} (spells : Spells t (c :: tail) next)
    (goes : continuesNumber true previous c = true) (word : ∀ w, t ≠ .word w) (number : ∀ x, t ≠ .number x) :
    t = .punct .dot ∧ c :: tail = ['.'] ∧ Punct.dot.Stops next := by
  generalize shown : c :: tail = spelling at spells
  cases spells with
  | word => exact absurd rfl (word _)
  | decimal | hex => exact absurd rfl (number _)
  | text opens =>
    cases shown
    rw [continuesNumber_hex] at goes
    rcases opens with rfl | rfl <;> cases goes
  | @punct p _ stop =>
    by_cases point : p = .dot
    · subst point
      exact ⟨rfl, rfl, stop⟩
    · rw [p.not_continuesNumber point c (shown ▸ List.mem_cons_self)] at goes
      cases goes

/-- A token that a hexadecimal number ends before: the machine goes on with the number only at a point. -/
theorem Scoped.token_number {t : Token} (others : Scoped (offset + Text.byteLength (c :: tail)) rest ls)
    (spells : Spells t (c :: tail) rest.head?) (clear : Lexeme.Clear source ⟨t, offset, width⟩ ls)
    (plain : ScopedPlainly offset (c :: tail ++ rest) (⟨t, offset, width⟩ :: ls))
    (allowed : Stand.ended.Allows (tokens (⟨t, offset, width⟩ :: ls)))
    (names : PlainNames offset (⟨t, offset, width⟩ :: ls)) :
    Lexes (scopeFrom (.number true) previous (c :: tail ++ rest))
      (scopedTokens false (tokens (⟨t, offset, width⟩ :: ls))) := by
  by_cases goes : continuesNumber true previous c = true
  · have word : ∀ w, t ≠ .word w := by
      rintro w rfl
      rcases allowed.word with ⟨⟨⟩, -⟩ | ⟨⟨⟩, -⟩
    have number : ∀ x, t ≠ .number x := by
      rintro x rfl
      cases allowed.number.1
    obtain ⟨rfl, shown, stop⟩ := spells.eq_point goes word number
    obtain ⟨rfl, rfl⟩ := List.cons.inj shown
    have following := others.point allowed.point clear fun l rest w shown name place => by
      subst shown
      exact place ▸ names w rfl rfl name place
    rw [List.cons_append, scopeFrom_goes goes]
    exact following.sign (p := .dot) rfl (startsAlike_number.stops stop)
  · exact plain.leave allowed expects_ended (by rintro d ⟨⟩; simpa using goes)

theorem copied_of_plainName (start : isWordStart c = true) (inside : ∀ d ∈ tail, isWordChar d = true)
    (plain : '$' ∉ c :: tail) : ∀ d ∈ c :: tail, d.isAlphanum = true ∨ d = '_' := by
  intro d member
  have letter : isWordChar d = true := by
    rcases List.mem_cons.mp member with rfl | member
    · exact isWordChar_iff.mpr (.inl start)
    · exact inside d member
  have other : d ≠ '$' := fun same => plain (same ▸ member)
  simpa [isWordChar, other] using letter

/-- A name after the point of a number: one without a dollar sign is copied, and one that starts with a dollar
    sign ends the number. -/
theorem Scoped.token_point {t : Token} (others : Scoped (offset + Text.byteLength (c :: tail)) rest ls)
    (spells : Spells t (c :: tail) rest.head?)
    (plain : ScopedPlainly offset (c :: tail ++ rest) (⟨t, offset, (c :: tail).length⟩ :: ls))
    (allowed : Stand.pointed.Allows (tokens (⟨t, offset, (c :: tail).length⟩ :: ls)))
    (name : NameAt offset (⟨t, offset, (c :: tail).length⟩ :: ls))
    (names : ∀ w, t = .word w →
      w.toList.head? = some '$' ∨ '$' ∉ w.toList ∧ PlainNames (offset + (c :: tail).length) ls) :
    Lexes (scopeFrom (.number true) (some '.') (c :: tail ++ rest))
      (scopedTokens true (tokens (⟨t, offset, (c :: tail).length⟩ :: ls))) := by
  obtain ⟨w, rfl⟩ := allowed.exists_word
  have width := spells.byteLength (by rintro s ⟨⟩)
  cases spells with
  | word start inside stop =>
    have behind : Stand.ended.Allows (tokens ls) := by
      rcases allowed.word with ⟨⟨⟩, -⟩ | ⟨-, behind⟩
      exact behind
    have names := names _ rfl
    rw [String.toList_ofList] at names
    rcases names with dollar | ⟨plainName, names⟩
    · cases dollar
      exact plain.leave allowed (expects_pointed name) (by rintro d ⟨⟩; rfl)
    · obtain ⟨p, written⟩ := scopeFrom_copied (copied_of_plainName start inside plainName)
      have following := others.number p behind (width ▸ names)
      rw [written]
      refine following.token (.word start inside ?_)
      rw [startsAlike_number.head?_eq (not_isWordStart_of_stop stop)]
      exact stop

theorem Cut.scoped (cut : Cut offset cs ls) (stands : StandsAt source offset cs) (legible : Legible source ls) :
    Scoped offset cs ls := by
  -- on how the text is cut: the machine and the scanner agree after every token, also where the machine has not
  -- yet left a number that the scanner has read
  induction cut with
  | done =>
    have plain (dotted : Bool) : Lexes [] (scopedTokens dotted [.eof]) := lexes_nil
    exact ⟨fun _ _ _ _ => plain _, fun _ _ _ => plain _, fun _ _ _ => plain _⟩
  | @blank offset c rest ls blank cut ih =>
    have plain := scopedPlainly_blank blank (ih stands.next legible).plain
    have stop (previous : Option Char) : ∀ d ∈ (c :: rest).head?, continuesNumber true previous d = false := by
      rintro d ⟨⟩
      exact Bool.eq_false_iff.mpr fun goes => ne_of_isBlank blank (visible_of_continuesNumber goes) rfl
    exact ⟨plain, fun previous allowed _ => plain.leave allowed expects_ended (stop previous),
      fun allowed name _ => plain.leave allowed (expects_pointed name) (stop _)⟩
  | @token offset t spelling rest ls spells cut ih =>
    have others := ih stands.append legible.2
    have plain := scopedPlainly_token spells stands legible.1 cut others
    obtain ⟨c, tail, rfl⟩ := spells.exists_cons
    exact ⟨plain, fun previous allowed names => others.token_number spells legible.1 plain allowed names,
      fun allowed name names => others.token_point spells plain allowed name fun w word => names _ _ w rfl word rfl⟩

end steps

/-! ### Expressions -/

section expressions

variable {source : String} {offset : Nat} {cs : List Char} {ls ls' : List Lexeme} {e : Expr}

theorem Spells.ne_eof {t : Token} {spelling : List Char} {next : Option Char} (spells : Spells t spelling next) :
    t ≠ .eof := by
  cases spells <;> rintro ⟨⟩

theorem Cut.ended (cut : Cut offset cs ls) : ∃ ts, tokens ls = ts ++ [.eof] ∧ Token.eof ∉ ts := by
  induction cut with
  | done => exact ⟨[], rfl, List.not_mem_nil⟩
  | blank _ _ ih => exact ih
  | token spells _ ih =>
    obtain ⟨ts, shown, plain⟩ := ih
    refine ⟨_ :: ts, congrArg (_ :: ·) shown, ?_⟩
    rw [List.mem_cons, not_or]
    exact ⟨spells.ne_eof.symm, plain⟩

theorem scopedTokens_ended {dotted : Bool} {ts : List Token} (plain : Token.eof ∉ ts) :
    ∃ us, scopedTokens dotted (ts ++ [.eof]) = us ++ [.eof] ∧ Token.eof ∉ us := by
  induction ts generalizing dotted with
  | nil => exact ⟨[], rfl, List.not_mem_nil⟩
  | cons t ts ih =>
    rw [List.mem_cons, not_or] at plain
    obtain ⟨us, shown, others⟩ : ∃ us, scopedTokens false (ts ++ [.eof]) = us ++ [.eof] ∧ Token.eof ∉ us := ih plain.2
    cases t with
    | word w =>
      rw [List.cons_append, scopedTokens, shown, ← List.append_assoc]
      refine ⟨_, rfl, ?_⟩
      split <;> simp [lookupTokens, others]
    | punct p =>
      by_cases point : p = .dot
      · obtain ⟨us, shown, others⟩ : ∃ us, scopedTokens true (ts ++ [.eof]) = us ++ [.eof] ∧ Token.eof ∉ us :=
          ih plain.2
        subst point
        exact ⟨_ :: us, congrArg (_ :: ·) shown, by simp [others]⟩
      · rw [List.cons_append, scopedTokens_sign point, shown]
        exact ⟨_ :: us, rfl, by simp [others]⟩
    | number x => exact ⟨_ :: us, congrArg (_ :: ·) shown, by simp [others]⟩
    | text content => exact ⟨_ :: us, congrArg (_ :: ·) shown, by simp [others]⟩
    | eof => exact absurd rfl plain.1

section trees

variable {ts : List Token}

theorem exists_of_ended (shown : tokens ls = ts ++ [.eof]) :
    ∃ inner close, ls = inner ++ [close] ∧ tokens inner = ts ∧ close.token = .eof := by
  obtain ⟨inner, last, rfl, inside, ended⟩ := List.map_eq_append_iff.mp shown
  obtain ⟨close, rfl, close_ended⟩ := List.map_eq_singleton_iff.mp ended
  exact ⟨inner, close, rfl, inside, close_ended⟩

theorem derives_of_read (shown : tokens ls = ts ++ [.eof]) (plain : Token.eof ∉ ts) (read : ofLexemes ls = .ok e) :
    Derives (.expr .conditional e) ts := by
  obtain ⟨inner, close, rfl, rfl, ended⟩ := exists_of_ended shown
  refine derives_of_ofLexemes (fun l member same => ?_) ended read
  exact plain (List.mem_map.mpr ⟨l, member, same⟩)

theorem read_of_derives (shown : tokens ls = ts ++ [.eof]) (derived : Derives (.expr .conditional e) ts) :
    ofLexemes ls = .ok e := by
  obtain ⟨inner, close, rfl, rfl, ended⟩ := exists_of_ended shown
  exact derived.ofLexemes ended

end trees

theorem Derives.allows {ts us : List Token} (derived : Derives (.expr .conditional e) us)
    (shown : scopedTokens false ts = us ++ [.eof]) : Stand.free.Allows ts := by
  obtain ⟨s, whole, read⟩ := derived.settled
  have ended : Stand.free.afterAll (us ++ [.eof]) = some .free := by
    rw [Stand.afterAll, List.foldlM_append, ← Stand.afterAll, read]
    cases s with
    | free | ended => rfl
    | pointed => exact absurd rfl whole
  have same : scopedTokens (Stand.free = .pointed) ts = us ++ [.eof] := shown
  rw [Stand.Allows, same, ended]
  rfl

theorem ofText_eq {form : String} (scopes : scopedText source = form) (cut : lexemes form = .ok ls) :
    Expression.ofText source = (ofLexemes ls).map fun root => ⟨form, root⟩ := by
  rw [Expression.ofText, Expression.ofScopedText, Expr.ofScopedText, scopes, cut]
  rfl

/-- A text that derives, once its bare words are replaced by look-ups, is read so. -/
theorem Lexes.ofText {us : List Token} (lexes : Lexes (scopeFrom .plain none source.toList) (us ++ [.eof]))
    (derived : Derives (.expr .conditional e) us) : Expression.ofText source = .ok ⟨scopedText source, e⟩ := by
  obtain ⟨ls, cut, shown⟩ := lexes 0
  have cut : Expr.lexemes (scopedText source) = .ok ls := by
    rw [Expr.lexemes, scopedText, String.toList_ofList]
    exact lexemesFrom_iff.mpr cut
  rw [ofText_eq rfl cut, read_of_derives shown derived]
  rfl

/-- Scoping a text and scoping its tokens come to the same: where the source is legible, whatever is read from
    its tokens with every bare word replaced by a look-up is read from its scoped text. -/
theorem ofText_of_scopedTokens (read : lexemes source = .ok ls) (legible : Legible source ls)
    (replaced : tokens ls' = scopedTokens false (tokens ls)) (parsed : ofLexemes ls' = .ok e) :
    Expression.ofText source = .ok ⟨scopedText source, e⟩ := by
  have cut := lexemesFrom_iff.mp read
  obtain ⟨ts, shown, plain⟩ := cut.ended
  obtain ⟨us, shown', plain'⟩ : ∃ us, scopedTokens false (ts ++ [.eof]) = us ++ [.eof] ∧ Token.eof ∉ us :=
    scopedTokens_ended plain
  rw [← shown] at shown'
  have derived := derives_of_read (replaced.trans shown') plain' parsed
  have stands : StandsAt source 0 source.toList := ⟨[], rfl, rfl⟩
  have lexes := (cut.scoped stands legible).plain .free none (derived.allows shown') (expects_free (by rintro ⟨⟩))
  exact Lexes.ofText (shown' ▸ lexes) derived

end expressions

/-- A text that both scanners read alike, with names of every kind after points. -/
def namedSource : String :=
  "0x1f.a.$b$c ? 'it\\'s' : d .e. Date"

def namedLexemes : List Lexeme :=
  [⟨.number (Float.ofNat 31), 0, 4⟩, ⟨.punct .dot, 4, 1⟩, ⟨.word "a", 5, 1⟩, ⟨.punct .dot, 6, 1⟩, ⟨.word "$b$c", 7, 4⟩,
   ⟨.punct .question, 12, 1⟩, ⟨.text "it's", 14, 7⟩, ⟨.punct .colon, 22, 1⟩, ⟨.word "d", 24, 1⟩, ⟨.punct .dot, 26, 1⟩,
   ⟨.word "e", 27, 1⟩, ⟨.punct .dot, 28, 1⟩, ⟨.word "Date", 30, 4⟩, ⟨.eof, 34, 0⟩]

def namedTree : Expr :=
  .conditional (.member (.member (.literal (.number (Float.ofNat 31))) "a") "$b$c") (.literal (.string "it's"))
    (.member (.member (.field "d") "e") "Date")

theorem named_ofText : lexemes namedSource = .ok namedLexemes ∧ Legible namedSource namedLexemes ∧
    ofLexemes ((scopedTokens false (tokens namedLexemes)).map (⟨·, 0, 0⟩)) = .ok namedTree ∧
    Expression.ofText namedSource = .ok ⟨scopedText namedSource, namedTree⟩ := by
  have read : lexemes namedSource = .ok namedLexemes := by rfl
  have spelled : Lexeme.spelling namedSource ⟨.text "it's", 14, 7⟩ = ['\'', 'i', 't', '\\', '\'', 's', '\''] := by
    decide +kernel
  have legible : Legible namedSource namedLexemes := by
    simp [Legible, namedLexemes, Lexeme.Clear, PlainNames, NameAt, spelled, reservedWords]
  have parsed : ofLexemes ((scopedTokens false (tokens namedLexemes)).map (⟨·, 0, 0⟩)) = .ok namedTree := by rfl
  exact ⟨read, legible, parsed, ofText_of_scopedTokens read legible (tokens_map _) parsed⟩

/-- From the tokens of a text, with bare words replaced, another tree is read than from its scoped text. -/
def Drifts (source : String) : Prop :=
  ∃ ls ls' e, lexemes source = .ok ls ∧ tokens ls' = scopedTokens false (tokens ls) ∧ ofLexemes ls' = .ok e ∧
    Expression.ofText source ≠ .ok ⟨scopedText source, e⟩

/-- The scanners part at white space before a name, at an escaped backslash that ends a text, and at a dollar
    sign in a name that hangs on a number. -/
theorem illegible_drifts : Drifts "a. b" ∧ Drifts "'a\\\\' + b" ∧ Drifts "0x1.a$b" := by
  refine ⟨?_, ?_, ?_⟩
  · have read : lexemes "a. b" = .ok [⟨.word "a", 0, 1⟩, ⟨.punct .dot, 1, 1⟩, ⟨.word "b", 3, 1⟩, ⟨.eof, 4, 0⟩] := by rfl
    have cut : lexemes "context['a']. context['b']" = .ok [⟨.word "context", 0, 7⟩, ⟨.punct .openBracket, 7, 1⟩,
        ⟨.text "a", 8, 3⟩, ⟨.punct .closeBracket, 11, 1⟩, ⟨.punct .dot, 12, 1⟩, ⟨.word "context", 14, 7⟩,
        ⟨.punct .openBracket, 21, 1⟩, ⟨.text "b", 22, 3⟩, ⟨.punct .closeBracket, 25, 1⟩, ⟨.eof, 26, 0⟩] := by rfl
    refine ⟨_, _, .member (.field "a") "b", read, tokens_map _, by rfl, ?_⟩
    rw [ofText_eq (by decide +kernel) cut]
    rintro ⟨⟩
  · have read : lexemes "'a\\\\' + b" = .ok [⟨.text "a\\", 0, 5⟩, ⟨.punct .plus, 6, 1⟩, ⟨.word "b", 8, 1⟩,
        ⟨.eof, 9, 0⟩] := by rfl
    refine ⟨_, _, .binary .add (.literal (.string "a\\")) (.field "b"), read, tokens_map _, by rfl, ?_⟩
    rw [ofText_eq (by decide +kernel) read]
    rintro ⟨⟩
  · have read : lexemes "0x1.a$b" = .ok [⟨.number (Float.ofNat 1), 0, 3⟩, ⟨.punct .dot, 3, 1⟩, ⟨.word "a$b", 4, 3⟩,
        ⟨.eof, 7, 0⟩] := by rfl
    have cut : lexemes "0x1.acontext['$b']" = .ok [⟨.number (Float.ofNat 1), 0, 3⟩, ⟨.punct .dot, 3, 1⟩,
        ⟨.word "acontext", 4, 8⟩, ⟨.punct .openBracket, 12, 1⟩, ⟨.text "$b", 13, 4⟩, ⟨.punct .closeBracket, 17, 1⟩,
        ⟨.eof, 18, 0⟩] := by rfl
    refine ⟨_, _, .member (.literal (.number (Float.ofNat 1))) "a$b", read, tokens_map _, by rfl, ?_⟩
    rw [ofText_eq (by decide +kernel) cut]
    rintro ⟨⟩

end Stencil.Expr
