import Stencil.Proofs.Coverage

/-!
Where a syntax fault is reported. The parser looks at one lexeme at a time, so what it makes of the lexemes at the
front, or at which lexeme it refuses them, does not depend on what stands behind. `Judged` says this of any parser,
together with what the lexemes before the refused one can become; it is kept by parsers one after the other
(`Judged.andThen`). Each function that reads expressions is judged with one more fuel if all of them are
(`JudgedWith`), and so they are with any fuel (`judgedWith`). The lexeme that is refused is therefore the first one
that no expression goes on with. The fault is reported there, but for three causes (`SyntaxCause.isLate`) that are
reported one lexeme later.
-/
namespace Stencil.Expr

open Stateful

/-! ### Parsers -/

/-- A parser of phrases: what it makes of the lexemes at the front with so much fuel, and the lexemes that it leaves. -/
abbrev PhraseParser (α : Type) :=
  Nat → List Lexeme → Except SyntaxError (α × List Lexeme)

namespace PhraseParser

variable {α β : Type}

/-- Takes nothing. -/
def give (x : α) : PhraseParser α :=
  fun _ ls => .ok (x, ls)

/-- Takes the lexeme at the front. -/
def skip : PhraseParser Unit :=
  fun _ ls => .ok ((), ls.tail)

/-- Refuses the lexeme at the front. -/
def refuse (cause : SyntaxCause) : PhraseParser α :=
  fun _ ls => fault cause ls

/-- Takes the lexeme at the front and then refuses it. -/
def refuseTaken (cause : SyntaxCause) : PhraseParser α :=
  fun _ ls => fault cause ls.tail

/-- A parser behind a sign. -/
def past (p : Punct) (f : PhraseParser α) : PhraseParser α :=
  fun fuel ls => do
    let rest ← expect p ls
    f fuel rest

/-- One parser after another. -/
def andThen (f : PhraseParser α) (g : α → PhraseParser β) : PhraseParser β :=
  fun fuel ls => do
    let (x, rest) ← f fuel ls
    g x fuel rest

end PhraseParser

open PhraseParser (give skip refuse refuseTaken past andThen)

/-- A cause that is found after the offending lexeme was taken. -/
def SyntaxCause.isLate : SyntaxCause → Bool
  | expectedProperty | expectedFieldName | expectedKey => true
  | _ => false

/-- The offset at which a fault is reported: that of the offending lexeme, or for a late cause that of the lexeme
    behind it, which is zero if there is none. -/
def SyntaxCause.reportedAt (cause : SyntaxCause) (offending : Lexeme) (behind : List Lexeme) : Nat :=
  if cause.isLate then frontOffset behind else offending.offset

/-- The parser looks no further than the lexeme behind what it takes: it takes the same lexemes whatever stands
    behind that one, and if it refuses a lexeme, then whatever stands behind it. What stands before a refused lexeme
    is `Viable`. -/
structure Judged {α : Type} (f : PhraseParser α) (Viable : List Token → Prop) (fuel : Nat) (ls : List Lexeme) :
    Prop where
  takes : ∀ x rest, f fuel ls = .ok (x, rest) → ∃ used, ls = used ++ rest ∧ (∀ l ∈ used, l.token ≠ .eof) ∧
    ∀ rest' fuel', peek rest' = peek rest → fuel ≤ fuel' → f fuel' (used ++ rest') = .ok (x, rest')
  refuses : ∀ e, f fuel ls = .error e → ∃ before t after, ls = before ++ t :: after ∧ Viable (tokens before) ∧
    e.offset = e.cause.reportedAt t after ∧
    ∀ more fuel' r, fuel ≤ fuel' → f fuel' (before ++ t :: more) ≠ .ok r

/-- The end of the text is among the lexemes. -/
def Ended (ls : List Lexeme) : Prop :=
  ∃ l ∈ ls, l.token = .eof

section rules

variable {α β : Type} {f f' : PhraseParser α} {g : α → PhraseParser β} {V W : List Token → Prop} {fuel : Nat}
  {ls used rest rest' : List Lexeme}

theorem peek_append (same : peek rest = peek rest') : peek (used ++ rest) = peek (used ++ rest') := by
  cases used with
  | nil => exact same
  | cons l used => rfl

theorem Ended.ne_nil (ended : Ended ls) : ls ≠ [] := by
  obtain ⟨l, member, -⟩ := ended
  exact List.ne_nil_of_mem member

theorem Ended.behind (ended : Ended (used ++ rest)) (plain : ∀ l ∈ used, l.token ≠ .eof) : Ended rest := by
  obtain ⟨l, member, last⟩ := ended
  rcases List.mem_append.mp member with inside | behind
  · exact absurd last (plain l inside)
  · exact ⟨l, behind, last⟩

theorem Judged.mono (judged : Judged f V fuel ls) (weaker : ∀ ts, V ts → W ts) : Judged f W fuel ls := by
  refine ⟨judged.takes, fun e failed => ?_⟩
  obtain ⟨before, t, after, split, viable, found⟩ := judged.refuses e failed
  exact ⟨before, t, after, split, weaker _ viable, found⟩

theorem Judged.succ (judged : Judged (fun k => f (k + 1)) V fuel ls) : Judged f V (fuel + 1) ls := by
  constructor
  · intro x rest taken
    obtain ⟨used, split, plain, again⟩ := judged.takes x rest taken
    refine ⟨used, split, plain, fun rest' fuel' same enough => ?_⟩
    obtain ⟨k, rfl⟩ := Nat.exists_eq_add_one.mpr (Nat.lt_of_lt_of_le (Nat.succ_pos _) enough)
    exact again rest' k same (Nat.le_of_succ_le_succ enough)
  · intro e failed
    obtain ⟨before, t, after, split, viable, reported, again⟩ := judged.refuses e failed
    refine ⟨before, t, after, split, viable, reported, fun more fuel' r enough => ?_⟩
    obtain ⟨k, rfl⟩ := Nat.exists_eq_add_one.mpr (Nat.lt_of_lt_of_le (Nat.succ_pos _) enough)
    exact again more k r (Nat.le_of_succ_le_succ enough)

/-- Parsers that agree on all lexemes with the same front are judged alike. -/
theorem Judged.congr (agree : ∀ k ls', peek ls' = peek ls → f' k ls' = f k ls') (judged : Judged f V fuel ls) :
    Judged f' V fuel ls := by
  constructor
  · intro x rest taken
    rw [agree fuel ls rfl] at taken
    obtain ⟨used, rfl, plain, again⟩ := judged.takes x rest taken
    refine ⟨used, rfl, plain, fun rest' fuel' same enough => ?_⟩
    rw [agree fuel' _ (peek_append same)]
    exact again rest' fuel' same enough
  · intro e failed
    rw [agree fuel ls rfl] at failed
    obtain ⟨before, t, after, rfl, viable, reported, again⟩ := judged.refuses e failed
    refine ⟨before, t, after, rfl, viable, reported, fun more fuel' r enough => ?_⟩
    have front : peek (before ++ t :: more) = peek (before ++ t :: after) := peek_append rfl
    rw [agree fuel' _ front]
    exact again more fuel' r enough

theorem judged_give (x : α) : Judged (give x) V fuel ls := by
  constructor
  · intro y rest taken
    cases taken
    exact ⟨[], rfl, List.forall_mem_nil _, fun rest' fuel' same enough => rfl⟩
  · intro e failed
    cases failed

theorem judged_skip (front : peek ls ≠ .eof) : Judged skip V fuel ls := by
  constructor
  · intro x rest taken
    cases taken
    cases ls with
    | nil => exact absurd rfl front
    | cons l rest => exact ⟨[l], rfl, by simpa [peek] using front, fun rest' fuel' same enough => rfl⟩
  · intro e failed
    cases failed

/-- A parser that fails whatever stands behind the lexeme at the front. -/
theorem judged_of_fault (cause : SyntaxCause) (ended : Ended ls) (viable : V [])
    (fails : ∀ k t after, f k (t :: after) = .error ⟨cause, cause.reportedAt t after⟩) : Judged f V fuel ls := by
  obtain ⟨t, after, rfl⟩ := List.exists_cons_of_ne_nil ended.ne_nil
  constructor
  · intro x rest taken
    rw [fails] at taken
    cases taken
  · intro e failed
    rw [fails] at failed
    cases failed
    refine ⟨[], t, after, rfl, viable, rfl, fun more fuel' r enough taken => ?_⟩
    rw [List.nil_append, fails] at taken
    cases taken

theorem judged_refuse {cause : SyntaxCause} (ended : Ended ls) (viable : V []) (early : cause.isLate = false) :
    Judged (refuse cause : PhraseParser α) V fuel ls := by
  refine judged_of_fault cause ended viable fun k t after => ?_
  rw [SyntaxCause.reportedAt, early]
  rfl

theorem judged_refuseTaken {cause : SyntaxCause} (ended : Ended ls) (viable : V []) (late : cause.isLate = true) :
    Judged (refuseTaken cause : PhraseParser α) V fuel ls := by
  refine judged_of_fault cause ended viable fun k t after => ?_
  rw [SyntaxCause.reportedAt, late]
  rfl

/-- A parser after another: what the first one takes stands before what the second one refuses. -/
theorem Judged.andThen (first : Judged f V fuel ls)
    (second : ∀ x used rest, f fuel ls = .ok (x, rest) → ls = used ++ rest → (∀ l ∈ used, l.token ≠ .eof) →
      Judged (g x) (fun ts => V (tokens used ++ ts)) fuel rest) :
    Judged (f.andThen g) V fuel ls := by
  constructor
  · intro y rest taken
    obtain ⟨⟨x, mid⟩, took, next⟩ := bind_eq_ok.mp taken
    obtain ⟨used, rfl, plain, again⟩ := first.takes x mid took
    obtain ⟨used', rfl, plain', again'⟩ := (second x used mid took rfl plain).takes y rest next
    refine ⟨used ++ used', (List.append_assoc ..).symm, ?_, fun rest' fuel' same enough => ?_⟩
    · exact List.forall_mem_append.mpr ⟨plain, plain'⟩
    · have took' := again (used' ++ rest') fuel' (peek_append same) enough
      rw [List.append_assoc]
      exact bind_eq_ok.mpr ⟨_, took', again' rest' fuel' same enough⟩
  · intro e failed
    rcases bind_eq_error.mp failed with failed | ⟨⟨x, mid⟩, took, next⟩
    · obtain ⟨before, t, after, split, viable, reported, again⟩ := first.refuses e failed
      refine ⟨before, t, after, split, viable, reported, fun more fuel' r enough taken => ?_⟩
      obtain ⟨⟨x, mid⟩, took, -⟩ := bind_eq_ok.mp taken
      exact again more fuel' _ enough took
    · obtain ⟨used, rfl, plain, again⟩ := first.takes x mid took
      obtain ⟨before, t, after, rfl, viable, reported, again'⟩ := (second x used mid took rfl plain).refuses e next
      refine ⟨used ++ before, t, after, (List.append_assoc ..).symm, ?_, reported, fun more fuel' r enough taken => ?_⟩
      · rw [tokens, List.map_append]
        exact viable
      · rw [List.append_assoc] at taken
        have same : peek (before ++ t :: more) = peek (before ++ t :: after) := peek_append rfl
        have took' := again (before ++ t :: more) fuel' same enough
        obtain ⟨_, took'', taken⟩ := bind_eq_ok.mp taken
        cases took'.symm.trans took''
        exact again' more fuel' r enough taken

theorem Judged.map {h : α → β} (judged : Judged f V fuel ls) : Judged (f.andThen fun x => give (h x)) V fuel ls :=
  judged.andThen fun x _ _ _ _ _ => judged_give (h x)

theorem tokens_used {ts : List Token} (split : ls = used ++ rest) (shown : tokens ls = ts ++ tokens rest) :
    tokens used = ts := by
  rw [split, tokens, List.map_append] at shown
  exact List.append_cancel_right shown

theorem Ended.tail (ended : Ended ls) (front : peek ls ≠ .eof) : Ended ls.tail := by
  cases ls with
  | nil => exact absurd rfl front
  | cons l rest =>
    have plain : ∀ m ∈ [l], m.token ≠ .eof := by simpa [peek] using front
    exact Ended.behind ended plain

/-- A parser behind the lexeme at the front. -/
theorem Judged.behind {f : PhraseParser β} (front : peek ls ≠ .eof)
    (judged : Judged f (fun ts => V (peek ls :: ts)) fuel ls.tail) : Judged (skip.andThen fun _ => f) V fuel ls := by
  refine (judged_skip front).andThen fun x used rest taken split plain => ?_
  cases taken
  have shown : tokens ls = [peek ls] ++ tokens ls.tail := tokens_of_peek rfl front
  rw [tokens_used split shown]
  exact judged

theorem eat?_of_peek {p : Punct} (front : peek ls = .punct p) : eat? p ls = some ls.tail := by
  cases ls with
  | nil => cases front
  | cons l rest => exact eat?_cons front

theorem eat?_of_ne {p : Punct} (front : peek ls ≠ .punct p) : eat? p ls = none := by
  cases ls with
  | nil => rfl
  | cons l rest => exact eat?_cons_of_ne front

/-- A parser behind a sign that has to stand at the front. -/
theorem Judged.behindSign {f : PhraseParser β} {p : Punct} (ended : Ended ls) (viable : V [])
    (judged : Ended ls.tail → Judged f (fun ts => V (.punct p :: ts)) fuel ls.tail) :
    Judged (past p f) V fuel ls := by
  by_cases front : peek ls = .punct p
  · have other : peek ls ≠ .eof := by simp [front]
    refine .congr (f := skip.andThen fun _ => f) (fun k ls' same => ?_) (.behind other ?_)
    · rw [past, expect, eat?_of_peek (same.trans front)]
      rfl
    · rw [front]
      exact judged (ended.tail other)
  · refine .congr (f := refuse (.expectedPunct p)) (fun k ls' same => ?_) (judged_refuse ended viable rfl)
    rw [past, expect, eat?_of_ne (same ▸ front)]
    rfl

end rules

/-! ### Names and keys -/

section names

variable {V : List Token → Prop} {fuel : Nat} {ls : List Lexeme}

/-- The name in quotes and the bracket behind it. -/
def quotedName : PhraseParser String :=
  fun _ ls => match peek ls with
    | .text name => do
      let rest ← expect .closeBracket ls.tail
      return (name, rest)
    | _ => fault .expectedFieldName ls.tail

theorem quotedName_judged (ended : Ended ls)
    (viable : ∀ name ts more, ts ++ more = [.text name, .punct .closeBracket] → V ts) :
    Judged quotedName V fuel ls := by
  by_cases named : ∃ name, peek ls = .text name
  · obtain ⟨name, front⟩ := named
    have other : peek ls ≠ .eof := by simp [front]
    refine .congr (f := skip.andThen fun _ => past .closeBracket (give name)) (fun k ls' same => ?_)
      (.behind other (.behindSign (ended.tail other) ?_ fun _ => judged_give name))
    · rw [quotedName, same, front]
      rfl
    · rw [front]
      exact viable name [.text name] [.punct .closeBracket] rfl
  · refine .congr (f := refuseTaken .expectedFieldName) (fun k ls' same => ?_) (judged_refuseTaken ended ?_ rfl)
    · rw [quotedName, same]
      cases front : peek ls with
      | text name => exact absurd ⟨name, front⟩ named
      | _ => rfl
    · exact viable "" [] _ rfl

theorem fieldName_judged (ended : Ended ls)
    (viable : ∀ name ts more, ts ++ more = [.punct .openBracket, .text name, .punct .closeBracket] → V ts) :
    Judged (fun _ ls => fieldName ls) V fuel ls := by
  refine .congr (f := past .openBracket quotedName) (fun k ls' same => ?_)
    (.behindSign ended (viable "" [] _ rfl) fun ended => quotedName_judged ended fun name ts more shown => ?_)
  · rfl
  · exact viable name (.punct .openBracket :: ts) more (by rw [List.cons_append, shown])

theorem entryKey_judged (ended : Ended ls) (viable : ∀ key ts more, Key key (ts ++ more) → V ts) :
    Judged (fun _ ls => entryKey ls) V fuel ls := by
  have empty : V [] := viable "" [] [.text ""] (.text "")
  have single (key : String) (other : peek ls ≠ .eof)
      (read : ∀ ls', peek ls' = peek ls → entryKey ls' = .ok (key, ls'.tail)) :
      Judged (fun _ ls => entryKey ls) V fuel ls :=
    .congr (f := skip.andThen fun _ => give key) (fun k ls' same => read ls' same) (.behind other (judged_give key))
  cases front : peek ls with
  | text s => exact single s (by simp [front]) fun ls' same => by rw [entryKey, same, front]
  | number x => exact single (Number.text x) (by simp [front]) fun ls' same => by rw [entryKey, same, front]
  | word w =>
    have other : peek ls ≠ .eof := by simp [front]
    by_cases context : w = "context"
    · refine .congr (f := skip.andThen fun _ _ ls => fieldName ls) (fun k ls' same => ?_)
        (.behind other (fieldName_judged (ended.tail other) fun name ts more shown => ?_))
      · rw [entryKey, same, front]
        simp only [if_pos context]
        rfl
      · rw [front, context]
        refine viable name (.word "context" :: ts) more ?_
        rw [List.cons_append, shown]
        exact .field name
    · refine single w other fun ls' same => ?_
      rw [entryKey, same, front]
      exact if_neg context
  | punct p | eof =>
    refine .congr (f := refuseTaken .expectedKey) (fun k ls' same => ?_) (judged_refuseTaken ended empty rfl)
    rw [entryKey, same, front]
    rfl

/-- The name of a member. -/
def memberName : PhraseParser String :=
  fun _ ls => match peek ls with
    | .word name => .ok (name, ls.tail)
    | _ => fault .expectedProperty ls.tail

theorem memberName_judged (ended : Ended ls) (viable : V []) : Judged memberName V fuel ls := by
  by_cases named : ∃ name, peek ls = .word name
  · obtain ⟨name, front⟩ := named
    have other : peek ls ≠ .eof := by simp [front]
    refine .congr (f := skip.andThen fun _ => give name) (fun k ls' same => ?_) (.behind other (judged_give name))
    rw [memberName, same, front]
    rfl
  · refine .congr (f := refuseTaken .expectedProperty) (fun k ls' same => ?_)
      (judged_refuseTaken ended viable rfl)
    rw [memberName, same]
    cases front : peek ls with
    | word name => exact absurd ⟨name, front⟩ named
    | _ => rfl

theorem tokens_of_memberName {name : String} {rest : List Lexeme} (taken : memberName fuel ls = .ok (name, rest)) :
    tokens ls = [.word name] ++ tokens rest := by
  unfold memberName at taken
  split at taken
  · next front =>
    cases taken
    exact tokens_of_peek front (by simp)
  · cases taken

end names

/-! ### Expressions -/

/-- Tokens that some tokens complete to an expression that no operator of less than the power holds together. -/
def Viable (power : Nat) (ts : List Token) : Prop :=
  ∃ more s e, Derives (.expr s e) (ts ++ more) ∧ power ≤ s.power

/-- Tokens that some tokens complete to the inside of an array. -/
def ViableItems (ts : List Token) : Prop :=
  ∃ more es, Derives (.items es) (ts ++ more)

/-- Tokens that some tokens complete to the inside of an object. -/
def ViableEntries (ts : List Token) : Prop :=
  ∃ more es, Derives (.entries es) (ts ++ more)

section viable

variable {power : Nat} {ts : List Token} {e : Expr}

theorem viable_of_primary (asked : power ≤ unaryPower) (more : List Token)
    (derived : Derives (.expr .primary e) (ts ++ more)) : Viable power ts :=
  ⟨more, .primary, e, derived, Nat.le_trans asked (by decide)⟩

theorem viable_nil (asked : power ≤ unaryPower) : Viable power [] :=
  viable_of_primary asked [.text ""] (.text "")

theorem viable_of_derives {s : Stratum} (derived : Derives (.expr s e) ts) (reached : power ≤ s.power) :
    Viable power ts :=
  ⟨[], s, e, by rwa [List.append_nil], reached⟩

theorem Viable.mono {lower : Nat} (viable : Viable power ts) (low : lower ≤ power) : Viable lower ts := by
  obtain ⟨more, s, e, derived, reached⟩ := viable
  exact ⟨more, s, e, derived, Nat.le_trans low reached⟩

theorem Viable.conditional (viable : Viable power ts) : ∃ more e, Derives (.expr .conditional e) (ts ++ more) := by
  obtain ⟨more, s, e, derived, reached⟩ := viable
  exact ⟨more, e, derived.loosen (Stratum.conditional_le s reached)⟩

theorem Viable.unary (op : UnaryOp) (viable : Viable unaryPower ts) : Viable unaryPower (.of op :: ts) := by
  obtain ⟨more, s, e, derived, reached⟩ := viable
  exact ⟨more, .unary, .unary op e, .unary op (derived.loosen reached), Nat.le_refl _⟩

theorem Viable.group (viable : Viable 0 ts) : Viable unaryPower (.punct .openParen :: ts) := by
  obtain ⟨more, e, derived⟩ := viable.conditional
  exact viable_of_primary (Nat.le_refl _) (more ++ [.punct .closeParen]) (by simpa using Derives.group derived)

theorem ViableItems.array (viable : ViableItems ts) : Viable unaryPower (.punct .openBracket :: ts) := by
  obtain ⟨more, es, derived⟩ := viable
  exact viable_of_primary (Nat.le_refl _) (more ++ [.punct .closeBracket]) (by simpa using Derives.array derived)

theorem ViableEntries.object (viable : ViableEntries ts) : Viable unaryPower (.punct .openBrace :: ts) := by
  obtain ⟨more, es, derived⟩ := viable
  exact viable_of_primary (Nat.le_refl _) (more ++ [.punct .closeBrace]) (by simpa using Derives.object derived)

theorem Viable.member (target : Derives (.expr .access e) ts) (asked : power ≤ unaryPower) :
    Viable power (ts ++ [.punct .dot]) :=
  ⟨[.word ""], .access, .member e "", by simpa using Derives.member "" target, Nat.le_trans asked (by decide)⟩

theorem Viable.index {us : List Token} (viable : Viable 0 us) (target : Derives (.expr .access e) ts)
    (asked : power ≤ unaryPower) : Viable power (ts ++ .punct .openBracket :: us) := by
  obtain ⟨more, key, inside⟩ := viable.conditional
  exact ⟨more ++ [.punct .closeBracket], .access, .index e key, by simpa using Derives.index target inside,
    Nat.le_trans asked (by decide)⟩

theorem Viable.yes {us : List Token} (viable : Viable 0 us) (test : Derives (.expr .or e) ts)
    (low : power ≤ Stratum.conditional.power) : Viable power (ts ++ .punct .question :: us) := by
  obtain ⟨more, yes, inside⟩ := viable.conditional
  have no : Derives (.expr .conditional (.literal (.string ""))) [.text ""] := (Derives.text "").loosen (by decide)
  exact ⟨more ++ [.punct .colon, .text ""], .conditional, _, by simpa using Derives.conditional test inside no, low⟩

theorem Viable.no {us vs : List Token} {yes : Expr} (viable : Viable 1 vs) (test : Derives (.expr .or e) ts)
    (inside : Derives (.expr .conditional yes) us) (low : power ≤ Stratum.conditional.power) :
    Viable power (ts ++ .punct .question :: (us ++ .punct .colon :: vs)) := by
  obtain ⟨more, no, alternative⟩ := viable.conditional
  exact ⟨more, .conditional, _, by simpa using Derives.conditional test inside alternative, low⟩

theorem Viable.binary {op : BinaryOp} {us : List Token} (viable : Viable ((Stratum.of op).power + 1) us)
    (derived : Derives (.expr (.of op) e) ts) (low : power ≤ (Stratum.of op).power) :
    Viable power (ts ++ .punct (.of op) :: us) := by
  obtain ⟨more, s, right, second, reached⟩ := viable
  have tighter := second.loosen (Stratum.tighter_power_le reached).2
  exact ⟨more, .of op, _, by simpa using Derives.binary op derived tighter, low⟩

theorem Viable.items (viable : Viable 0 ts) : ViableItems ts := by
  obtain ⟨more, e, derived⟩ := viable.conditional
  exact ⟨more, [e], .lastItem derived⟩

theorem ViableItems.item {us : List Token} (viable : ViableItems us) (first : Derives (.expr .conditional e) ts) :
    ViableItems (ts ++ .punct .comma :: us) := by
  obtain ⟨more, es, derived⟩ := viable
  exact ⟨more, e :: es, by simpa using Derives.item first derived⟩

theorem Viable.entries {key : String} {k : List Token} (viable : Viable 0 ts) (name : Key key k) :
    ViableEntries (k ++ .punct .colon :: ts) := by
  obtain ⟨more, e, derived⟩ := viable.conditional
  exact ⟨more, [(key, e)], by simpa using Derives.lastEntry name derived⟩

theorem ViableEntries.entry {key : String} {k us : List Token} (viable : ViableEntries us) (name : Key key k)
    (first : Derives (.expr .conditional e) ts) :
    ViableEntries (k ++ .punct .colon :: (ts ++ .punct .comma :: us)) := by
  obtain ⟨more, es, derived⟩ := viable
  exact ⟨more, (key, e) :: es, by simpa using Derives.entry name first derived⟩

end viable

/-- An expression whose operators all have at least the given power. -/
def expressionOf (power : Nat) : PhraseParser Expr :=
  fun fuel ls => expression fuel power ls

/-- The expression that `left` and the operators after it form. -/
def operatorsOf (power : Nat) (left : Expr) : PhraseParser Expr :=
  fun fuel ls => operators fuel power left ls

/-- The members of a list behind one of them, up to the sign that closes it. -/
def membersAfter {α : Type} (read : PhraseParser (List α)) (close : Punct) (x : α) : PhraseParser (List α) :=
  fun fuel ls => match eat? .comma ls with
    | some rest => do
      let (others, rest) ← read fuel rest
      return (x :: others, rest)
    | none => do
      let rest ← expect close ls
      return ([x], rest)

theorem asked_unary : Asked unaryPower :=
  ⟨by decide, Nat.le_refl _⟩

/-- With so much fuel, the functions that read expressions are judged on all lexemes for which it is enough. What
    stands before the lexemes that the operators are read from is the operand on their left. -/
structure JudgedWith (fuel : Nat) : Prop where
  expression : ∀ {power ls}, Asked power → Ended ls → 3 * ls.length + 1 ≤ fuel →
    Judged (expressionOf power) (Viable power) fuel ls
  operand : ∀ {ls}, Ended ls → 3 * ls.length ≤ fuel → Judged operand (Viable unaryPower) fuel ls
  operators : ∀ {power left ls s before}, Asked power → Derives (.expr s left) before → power ≤ s.power →
    pull (peek ls) ≤ s.power → Ended ls → 3 * ls.length ≤ fuel →
    Judged (operatorsOf power left) (fun ts => Viable power (before ++ ts)) fuel ls
  items : ∀ {ls}, Ended ls → 3 * ls.length + 2 ≤ fuel → Judged items ViableItems fuel ls
  entries : ∀ {ls}, Ended ls → 3 * ls.length + 2 ≤ fuel → Judged entries ViableEntries fuel ls

section functions

variable {β : Type} {V : List Token → Prop} {power fuel : Nat} {ls : List Lexeme} {left : Expr} {before : List Token}

theorem Ended.length_tail (ended : Ended ls) : ls.tail.length + 1 = ls.length := by
  cases ls with
  | nil => exact absurd rfl ended.ne_nil
  | cons l rest => rfl

/-- What stands behind an expression is read after it. -/
theorem judged_afterExpression {g : Expr → PhraseParser β} (judged : JudgedWith fuel) (asked : Asked power)
    (ended : Ended ls) (enough : 3 * ls.length + 1 ≤ fuel) (viable : ∀ ts, Viable power ts → V ts)
    (second : ∀ s e used rest, Derives (.expr s e) (tokens used) → power ≤ s.power → pull (peek rest) < max power 1 →
      Ended rest → rest.length ≤ ls.length → Judged (g e) (fun ts => V (tokens used ++ ts)) fuel rest) :
    Judged ((expressionOf power).andThen g) V fuel ls := by
  refine ((judged.expression asked ended enough).mono viable).andThen fun e used rest taken split plain => ?_
  obtain ⟨s, ts, shown, derived, reached, idle⟩ := expression_sound asked fuel taken
  rw [← tokens_used split shown] at derived
  rw [split] at ended
  exact second s e used rest derived reached idle (ended.behind plain) (by simp [split])

/-- What stands behind an expression and the sign that has to follow it. -/
theorem judged_afterEnclosed {p : Punct} {g : Expr → PhraseParser β} (judged : JudgedWith fuel) (ended : Ended ls)
    (enough : 3 * ls.length + 1 ≤ fuel) (viable : ∀ ts, Viable 0 ts → V ts)
    (second : ∀ e used rest, Derives (.expr .conditional e) (tokens used) → Ended rest → rest.length < ls.length →
      Judged (g e) (fun ts => V (tokens used ++ .punct p :: ts)) fuel rest) :
    Judged ((expressionOf 0).andThen fun e => past p (g e)) V fuel ls := by
  refine judged_afterExpression judged asked_zero ended enough viable
    fun s e used rest derived reached _ ended' length => .behindSign ended' ?_ fun ended'' => ?_
  · exact viable _ (viable_of_derives (by simpa using derived) reached)
  · have shorter := ended'.length_tail
    exact second e used rest.tail (derived.loosen (Stratum.conditional_le s reached)) ended'' (by omega)

theorem membersAfter_judged {α : Type} {read : PhraseParser (List α)} {close : Punct} {x : α} (ended : Ended ls)
    (viable : V []) (others : peek ls = .punct .comma → Ended ls.tail →
      Judged read (fun ts => V (.punct .comma :: ts)) fuel ls.tail) : Judged (membersAfter read close x) V fuel ls := by
  by_cases parted : peek ls = .punct .comma
  · have other : peek ls ≠ .eof := by simp [parted]
    refine .congr (f := skip.andThen fun _ => read.andThen fun xs => give (x :: xs)) (fun k ls' same => ?_)
      (.behind other (.map ?_))
    · rw [membersAfter, eat?_of_peek (same.trans parted)]
      rfl
    · rw [parted]
      exact others parted (ended.tail other)
  · refine .congr (f := past close (give [x])) (fun k ls' same => ?_)
      (.behindSign ended viable fun _ => judged_give [x])
    rw [membersAfter, eat?_of_ne (same ▸ parted)]
    rfl

/-! #### Operands -/

theorem unary_judged (judged : JudgedWith fuel) (op : UnaryOp) (ended : Ended ls) (enough : 3 * ls.length ≤ fuel + 1)
    (front : peek ls = .of op) (other : peek ls ≠ .eof) :
    Judged (skip.andThen fun _ => (expressionOf unaryPower).andThen fun e => give (Expr.unary op e))
      (Viable unaryPower) fuel ls := by
  have shorter := ended.length_tail
  have inside := judged.expression asked_unary (ended.tail other) (by omega)
  refine .behind other (.map (inside.mono fun ts viable => ?_))
  rw [front]
  exact viable.unary op

theorem lookup_judged (ended : Ended ls) (front : peek ls = .word "context") :
    Judged (skip.andThen fun _ => PhraseParser.andThen (fun _ ls => fieldName ls) fun name => give (Expr.field name))
      (Viable unaryPower) fuel ls := by
  have other : peek ls ≠ .eof := by simp [front]
  refine .behind other (.map (fieldName_judged (ended.tail other) fun name ts more shown => ?_))
  have whole : .word "context" :: ts ++ more = lookupTokens name := by
    rw [List.cons_append, shown]
    rfl
  rw [front]
  exact viable_of_primary (Nat.le_refl _) more (whole ▸ Derives.field name)

theorem group_judged (judged : JudgedWith fuel) (ended : Ended ls) (enough : 3 * ls.length ≤ fuel + 1)
    (front : peek ls = .punct .openParen) :
    Judged (skip.andThen fun _ => (expressionOf 0).andThen fun e => past .closeParen (give e)) (Viable unaryPower)
      fuel ls := by
  have other : peek ls ≠ .eof := by simp [front]
  have shorter := ended.length_tail
  refine .behind other (judged_afterEnclosed judged (ended.tail other) (by omega) (fun ts viable => ?_)
    fun e _ _ _ _ _ => judged_give e)
  rw [front]
  exact viable.group

theorem array_judged (judged : JudgedWith fuel) (ended : Ended ls) (enough : 3 * ls.length ≤ fuel + 1)
    (front : peek ls = .punct .openBracket) :
    Judged (skip.andThen fun _ => PhraseParser.andThen items fun es => give (Expr.array es)) (Viable unaryPower)
      fuel ls := by
  have other : peek ls ≠ .eof := by simp [front]
  have shorter := ended.length_tail
  refine .behind other (.map ((judged.items (ended.tail other) (by omega)).mono fun ts viable => ?_))
  rw [front]
  exact viable.array

theorem object_judged (judged : JudgedWith fuel) (ended : Ended ls) (enough : 3 * ls.length ≤ fuel + 1)
    (front : peek ls = .punct .openBrace) :
    Judged (skip.andThen fun _ => PhraseParser.andThen entries fun es => give (Expr.object es)) (Viable unaryPower)
      fuel ls := by
  have other : peek ls ≠ .eof := by simp [front]
  have shorter := ended.length_tail
  refine .behind other (.map ((judged.entries (ended.tail other) (by omega)).mono fun ts viable => ?_))
  rw [front]
  exact viable.object

theorem operand_judged (judged : JudgedWith fuel) (ended : Ended ls) (enough : 3 * ls.length ≤ fuel + 1) :
    Judged operand (Viable unaryPower) (fuel + 1) ls := by
  have single (e : Expr) (other : peek ls ≠ .eof)
      (read : ∀ k ls', peek ls' = peek ls → operand (k + 1) ls' = .ok (e, ls'.tail)) :
      Judged (fun k => operand (k + 1)) (Viable unaryPower) fuel ls :=
    .congr (f := skip.andThen fun _ => give e) read (.behind other (judged_give e))
  have refused (cause : SyntaxCause) (early : cause.isLate = false)
      (read : ∀ k ls', peek ls' = peek ls → operand (k + 1) ls' = fault cause ls') :
      Judged (fun k => operand (k + 1)) (Viable unaryPower) fuel ls :=
    .congr (f := refuse cause) read (judged_refuse ended (viable_nil (Nat.le_refl _)) early)
  refine .succ ?_
  cases front : peek ls with
  | number x => exact single _ (by simp [front]) fun k ls' same => by rw [operand, same, front]
  | text s => exact single _ (by simp [front]) fun k ls' same => by rw [operand, same, front]
  | eof => exact refused .unexpectedEnd rfl fun k ls' same => by rw [operand, same, front]
  | word w =>
    have other : peek ls ≠ .eof := by simp [front]
    cases known : constant? w with
    | some value =>
      refine single (.literal value) other fun k ls' same => ?_
      rw [operand, same, front]
      simp only [known]
    | none =>
      by_cases kind : w = "typeof"
      · refine .congr (fun k ls' same => ?_) (unary_judged judged .kind ended enough (by rw [front, kind]; rfl) other)
        rw [operand, same, front]
        simp only [known, if_pos kind]
        rfl
      · by_cases context : w = "context"
        · refine .congr (fun k ls' same => ?_) (lookup_judged ended (context ▸ front))
          rw [operand, same, front]
          simp only [known, if_neg kind, if_pos context]
          rfl
        · refine refused (.unsupportedWord w) rfl fun k ls' same => ?_
          rw [operand, same, front]
          simp only [known, if_neg kind, if_neg context]
  | punct p =>
    have other : peek ls ≠ .eof := by simp [front]
    cases p with
    | openParen =>
      refine .congr (fun k ls' same => ?_) (group_judged judged ended enough front)
      rw [operand, same, front]
      rfl
    | openBracket =>
      refine .congr (fun k ls' same => ?_) (array_judged judged ended enough front)
      rw [operand, same, front]
      rfl
    | openBrace =>
      refine .congr (fun k ls' same => ?_) (object_judged judged ended enough front)
      rw [operand, same, front]
      rfl
    | not =>
      refine .congr (fun k ls' same => ?_) (unary_judged judged .not ended enough front other)
      rw [operand, same, front]
      rfl
    | minus =>
      refine .congr (fun k ls' same => ?_) (unary_judged judged .neg ended enough front other)
      rw [operand, same, front]
      rfl
    | plus =>
      refine .congr (fun k ls' same => ?_) (unary_judged judged .plus ended enough front other)
      rw [operand, same, front]
      rfl
    | _ => exact refused (.unexpectedPunct _) rfl fun k ls' same => by rw [operand, same, front]; rfl

/-! #### Operators -/

theorem member_judged (judged : JudgedWith fuel) (asked : Asked power) (target : Derives (.expr .access left) before)
    (ended : Ended ls) (enough : 3 * ls.length ≤ fuel + 1) (front : peek ls = .punct .dot) :
    Judged (skip.andThen fun _ => memberName.andThen fun name => operatorsOf power (.member left name))
      (fun ts => Viable power (before ++ ts)) fuel ls := by
  have other : peek ls ≠ .eof := by simp [front]
  have shorter := ended.length_tail
  have ended := ended.tail other
  refine .behind other (.andThen (memberName_judged ended ?_) fun name used rest taken split plain => ?_)
  · rw [front]
    exact .member target asked.2
  · have length : rest.length ≤ ls.tail.length := by simp [split]
    rw [tokens_used split (tokens_of_memberName taken)]
    rw [split] at ended
    refine (judged.operators asked (.member name target) (Nat.le_trans asked.2 (by decide))
      (Nat.le_trans (pull_le _) (by decide)) (ended.behind plain) (by omega)).mono fun ts viable => ?_
    simpa [front] using viable

theorem index_judged (judged : JudgedWith fuel) (asked : Asked power) (target : Derives (.expr .access left) before)
    (ended : Ended ls) (enough : 3 * ls.length ≤ fuel + 1) (front : peek ls = .punct .openBracket) :
    Judged (skip.andThen fun _ => (expressionOf 0).andThen fun key =>
      past .closeBracket (operatorsOf power (.index left key))) (fun ts => Viable power (before ++ ts)) fuel ls := by
  have other : peek ls ≠ .eof := by simp [front]
  have shorter := ended.length_tail
  refine .behind other (judged_afterEnclosed judged (ended.tail other) (by omega) (fun ts viable => ?_)
    fun key used rest keyed ended' length => ?_)
  · rw [front]
    exact viable.index target asked.2
  · refine (judged.operators asked (.index target keyed) (Nat.le_trans asked.2 (by decide))
      (Nat.le_trans (pull_le _) (by decide)) ended' (by omega)).mono fun ts viable => ?_
    simpa [front] using viable

theorem conditional_judged (judged : JudgedWith fuel) (asked : Asked power) (test : Derives (.expr .or left) before)
    (low : power ≤ Stratum.conditional.power) (ended : Ended ls) (enough : 3 * ls.length ≤ fuel + 1)
    (front : peek ls = .punct .question) :
    Judged (skip.andThen fun _ => (expressionOf 0).andThen fun yes => past .colon
      ((expressionOf alternativePower).andThen fun no => operatorsOf power (.conditional left yes no)))
      (fun ts => Viable power (before ++ ts)) fuel ls := by
  have other : peek ls ≠ .eof := by simp [front]
  have shorter := ended.length_tail
  refine .behind other (judged_afterEnclosed judged (ended.tail other) (by omega) (fun ts viable => ?_)
    fun yes used rest derivedYes ended' length => ?_)
  · rw [front]
    exact viable.yes test low
  · refine judged_afterExpression judged asked_one ended' (by omega) (fun ts viable => ?_)
      fun s no used' rest' derivedNo reached idle ended'' length' => ?_
    · rw [front]
      exact viable.no test derivedYes low
    · have derivedNo := derivedNo.loosen (Stratum.conditional_le s reached)
      refine (judged.operators asked (.conditional test derivedYes derivedNo) low (Nat.le_of_lt idle) ended''
        (by omega)).mono fun ts viable => ?_
      simpa [front] using viable

theorem binary_judged (judged : JudgedWith fuel) (asked : Asked power) {op : BinaryOp}
    (first : Derives (.expr (.of op) left) before) (low : power ≤ (Stratum.of op).power) (ended : Ended ls)
    (enough : 3 * ls.length ≤ fuel + 1) (front : peek ls = .punct (.of op)) :
    Judged (skip.andThen fun _ => (expressionOf ((Stratum.of op).power + 1)).andThen fun right =>
      operatorsOf power (.binary op left right)) (fun ts => Viable power (before ++ ts)) fuel ls := by
  have other : peek ls ≠ .eof := by simp [front]
  have shorter := ended.length_tail
  refine .behind other (judged_afterExpression judged (asked_of op) (ended.tail other) (by omega) (fun ts viable => ?_)
    fun s right used rest second above idle ended' length => ?_)
  · rw [front]
    exact viable.binary first low
  · have tighter := second.loosen (Stratum.tighter_power_le above).2
    refine (judged.operators asked (.binary op first tighter) low (by omega) ended' (by omega)).mono
      fun ts viable => ?_
    simpa [front] using viable

theorem pull_cases {t : Token} (pulls : 0 < pull t) : t = .punct .dot ∨ t = .punct .openBracket ∨
    t = .punct .openParen ∨ t = .punct .question ∨ ∃ op, t = .punct (.of op) := by
  cases t with
  | punct p =>
    cases found : p.binary? with
    | some known => exact .inr (.inr (.inr (.inr ⟨known.1, by rw [(binary?_eq_some found).1]⟩)))
    | none => cases p <;> simp_all [pull, Punct.binary?]
  | _ => cases pulls

theorem operators_judged (judged : JudgedWith fuel) {s : Stratum} (asked : Asked power)
    (derived : Derives (.expr s left) before) (reached : power ≤ s.power) (fits : pull (peek ls) ≤ s.power)
    (ended : Ended ls) (enough : 3 * ls.length ≤ fuel + 1) :
    Judged (operatorsOf power left) (fun ts => Viable power (before ++ ts)) (fuel + 1) ls := by
  refine .succ ?_
  by_cases idle : pull (peek ls) < max power 1
  · refine .congr (f := give left) (fun k ls' same => ?_) (judged_give left)
    rw [operatorsOf, operators_idle asked.2 (same ▸ idle)]
    rfl
  have pulls : 0 < pull (peek ls) := by omega
  have low : power ≤ pull (peek ls) := by omega
  rcases pull_cases pulls with front | front | front | front | ⟨op, front⟩ <;> rw [front] at fits low
  · have target := derived.loosen (Stratum.access_le fits)
    refine .congr (fun k ls' same => ?_) (member_judged judged asked target ended enough front)
    rw [operatorsOf, operators, same, front]
    show _ = memberName k ls'.tail >>= _
    rw [memberName]
    cases peek ls'.tail <;> rfl
  · have target := derived.loosen (Stratum.access_le fits)
    refine .congr (fun k ls' same => ?_) (index_judged judged asked target ended enough front)
    rw [operatorsOf, operators, same, front]
    rfl
  · have viable := viable_of_derives derived reached
    refine .congr (f := refuse .call) (fun k ls' same => ?_) (judged_refuse ended (by simpa using viable) rfl)
    rw [operatorsOf, operators, same, front]
    rfl
  · have test := derived.loosen (Stratum.or_le fits)
    have below : power ≤ Stratum.conditional.power := Nat.le_of_lt_succ (Nat.lt_of_le_of_ne low asked.1)
    refine .congr (fun k ls' same => ?_) (conditional_judged judged asked test below ended enough front)
    rw [operatorsOf, operators, same, front]
    exact if_neg (Nat.not_lt.mpr low)
  · rw [pull_of] at fits low
    refine .congr (fun k ls' same => ?_) (binary_judged judged asked (derived.loosen fits) low ended enough front)
    rw [operatorsOf, operators, same, front]
    cases op <;> exact if_neg (Nat.not_lt.mpr low)

/-! #### Arrays, objects and whole expressions -/

theorem items_judged (judged : JudgedWith fuel) (ended : Ended ls) (enough : 3 * ls.length + 2 ≤ fuel + 1) :
    Judged items ViableItems (fuel + 1) ls := by
  refine .succ ?_
  by_cases closed : peek ls = .punct .closeBracket
  · refine .congr (f := skip.andThen fun _ => give []) (fun k ls' same => ?_)
      (.behind (by simp [closed]) (judged_give []))
    rw [items, eat?_of_peek (same.trans closed)]
    rfl
  · refine .congr (f := (expressionOf 0).andThen (membersAfter items .closeBracket)) (fun k ls' same => ?_)
      (judged_afterExpression judged asked_zero ended (by omega) (fun ts viable => viable.items)
        fun s e used rest derived reached _ ended' length => ?_)
    · rw [items, eat?_of_ne (same ▸ closed)]
      rfl
    · have derived := derived.loosen (Stratum.conditional_le s reached)
      have shorter := ended'.length_tail
      refine membersAfter_judged ended' ⟨[], [e], by simpa using Derives.lastItem derived⟩ fun _ ended'' => ?_
      exact (judged.items ended'' (by omega)).mono fun ts viable => viable.item derived

theorem entry_judged (judged : JudgedWith fuel) {key : String} {k : List Token} (name : Key key k) (ended : Ended ls)
    (enough : 3 * ls.length + 1 ≤ fuel) :
    Judged (past .colon ((expressionOf 0).andThen fun value => membersAfter entries .closeBrace (key, value)))
      (fun ts => ViableEntries (k ++ ts)) fuel ls := by
  have shorter := ended.length_tail
  refine .behindSign ended ?_ fun ended' => judged_afterExpression judged asked_zero ended' (by omega)
    (fun ts viable => viable.entries name) fun s e used rest derived reached _ ended'' length => ?_
  · obtain ⟨more, es, derived⟩ := (viable_nil (Nat.zero_le _) : Viable 0 []).entries name
    exact ⟨.punct .colon :: more, es, by simpa using derived⟩
  · have derived := derived.loosen (Stratum.conditional_le s reached)
    have shorter' := ended''.length_tail
    refine membersAfter_judged ended'' ⟨[], [(key, e)], by simpa using Derives.lastEntry name derived⟩ fun _ last => ?_
    exact (judged.entries last (by omega)).mono fun ts viable => viable.entry name derived

theorem entries_judged (judged : JudgedWith fuel) (ended : Ended ls) (enough : 3 * ls.length + 2 ≤ fuel + 1) :
    Judged entries ViableEntries (fuel + 1) ls := by
  refine .succ ?_
  by_cases closed : peek ls = .punct .closeBrace
  · refine .congr (f := skip.andThen fun _ => give []) (fun k ls' same => ?_)
      (.behind (by simp [closed]) (judged_give []))
    rw [entries, eat?_of_peek (same.trans closed)]
    rfl
  · refine .congr (f := PhraseParser.andThen (fun _ ls => entryKey ls) fun key => past .colon
      ((expressionOf 0).andThen fun value => membersAfter entries .closeBrace (key, value))) (fun k ls' same => ?_)
      (.andThen (entryKey_judged ended fun key ts more name => ?_) fun key used rest taken split plain => ?_)
    · rw [entries, eat?_of_ne (same ▸ closed)]
      rfl
    · obtain ⟨more', es, derived⟩ := (viable_nil (Nat.zero_le _) : Viable 0 []).entries name
      exact ⟨more ++ .punct .colon :: more', es, by simpa using derived⟩
    · obtain ⟨k, name, shown⟩ := entryKey_sound taken
      have length : rest.length ≤ ls.length := by simp [split]
      rw [tokens_used split shown]
      rw [split] at ended
      exact entry_judged judged name (ended.behind plain) (by omega)

theorem expression_judged (judged : JudgedWith fuel) (asked : Asked power) (ended : Ended ls)
    (enough : 3 * ls.length + 1 ≤ fuel + 1) : Judged (expressionOf power) (Viable power) (fuel + 1) ls := by
  refine .succ (.congr (f := PhraseParser.andThen operand (operatorsOf power)) (fun k ls' same => ?_)
    (.andThen ((judged.operand ended (by omega)).mono fun ts viable => viable.mono asked.2)
      fun left used rest taken split plain => ?_))
  · rw [expressionOf, expression]
    rfl
  · obtain ⟨s, ts, shown, derived, tight, fits⟩ := operand_sound fuel taken
    have length : rest.length ≤ ls.length := by simp [split]
    rw [← tokens_used split shown] at derived
    rw [split] at ended
    exact judged.operators asked derived (Nat.le_trans asked.2 tight) fits (ended.behind plain) (by omega)

end functions

theorem judgedWith (fuel : Nat) : JudgedWith fuel := by
  induction fuel with
  | zero =>
    -- Without fuel only the empty list could be read, which has no end among its lexemes.
    constructor
    · intro power ls asked ended enough
      omega
    · intro ls ended enough
      have longer := ended.length_tail
      omega
    · intro power left ls s before asked derived reached fits ended enough
      have longer := ended.length_tail
      omega
    · intro ls ended enough
      omega
    · intro ls ended enough
      omega
  | succ fuel judged =>
    exact ⟨expression_judged judged, operand_judged judged, operators_judged judged, items_judged judged,
      entries_judged judged⟩

/-! ### Whole texts -/

/-- The first lexeme that no expression goes on with: what stands before it can be completed to an expression, but
    not once it has been added. -/
def Offends (before : List Lexeme) (t : Lexeme) : Prop :=
  (∃ more e, ofLexemes (before ++ more) = .ok e) ∧ ∀ more e, ofLexemes (before ++ t :: more) ≠ .ok e

section whole

variable {ls before rest : List Lexeme} {t : Lexeme} {fuel fuel' power : Nat} {x : Expr} {e : SyntaxError}

/-- Of two members of one list, either they are the same one or one of them stands before the other. -/
theorem split_cases {before' after after' : List Lexeme} {t' : Lexeme}
    (same : before ++ t :: after = before' ++ t' :: after') :
    (t = t' ∧ after = after') ∨ (∃ extra, before' = before ++ t :: extra) ∨
      ∃ extra, before = before' ++ t' :: extra ∧ after' = extra ++ t :: after := by
  rcases List.append_eq_append_iff.mp same with ⟨extra, longer, tail⟩ | ⟨extra, longer, tail⟩
  · cases extra with
    | nil => exact .inl (List.cons.inj tail)
    | cons u extra =>
      cases tail
      exact .inr (.inl ⟨extra, longer⟩)
  · cases extra with
    | nil => exact .inl (List.cons.inj tail.symm)
    | cons u extra =>
      cases tail
      exact .inr (.inr ⟨extra, longer, rfl⟩)

theorem Offends.not_behind {extra : List Lexeme} {t' : Lexeme} (offends : Offends before t) :
    ¬ Offends (before ++ t :: extra) t' := by
  rintro ⟨⟨more, e, read⟩, -⟩
  rw [List.append_assoc] at read
  exact offends.2 _ e read

/-- At most one lexeme of a list is the first that no expression goes on with. -/
theorem Offends.unique {before' after after' : List Lexeme} {t' : Lexeme} (offends : Offends before t)
    (offends' : Offends before' t') (same : before ++ t :: after = before' ++ t' :: after') : t = t' := by
  rcases split_cases same with ⟨rfl, -⟩ | ⟨extra, rfl⟩ | ⟨extra, rfl, -⟩
  · rfl
  · exact absurd offends' offends.not_behind
  · exact absurd offends offends'.not_behind

theorem peek_of_tokens {ls' : List Lexeme} (same : tokens ls = tokens ls') : peek ls = peek ls' := by
  cases ls with
  | nil => rw [List.map_eq_nil_iff.mp same.symm]
  | cons l rest =>
    obtain ⟨l', rest', rfl, token, -⟩ := List.map_eq_cons_iff.mp same.symm
    exact token.symm

/-- What is read with some fuel is read with any fuel that is enough for the lexemes. -/
theorem expression_again (asked : Asked power) (read : expression fuel power ls = .ok (x, rest))
    (enough : 3 * ls.length + 1 ≤ fuel') :
    ∃ rest', expression fuel' power ls = .ok (x, rest') ∧ peek rest' = peek rest := by
  obtain ⟨s, ts, shown, derived, reached, idle⟩ := expression_sound asked fuel read
  obtain ⟨used, rest', rfl, spelt, same⟩ := List.map_eq_append_iff.mp shown
  have front : peek rest' = peek rest := peek_of_tokens same
  rw [← front] at idle
  exact ⟨rest', derived.parsed.whole spelt asked reached (by omega) idle enough, front⟩

theorem Viable.completed (viable : Viable power (tokens before)) : ∃ more e, ofLexemes (before ++ more) = .ok e := by
  obtain ⟨more, e, derived⟩ := viable.conditional
  have shown : tokens (before ++ more.map (⟨·, 0, 0⟩)) = tokens before ++ more := by
    rw [tokens, List.map_append, ← tokens, ← tokens, tokens_map]
  refine ⟨more.map (⟨·, 0, 0⟩) ++ [⟨.eof, 0, 0⟩], e, ?_⟩
  rw [← List.append_assoc]
  exact Derives.ofLexemes (shown ▸ derived) rfl

theorem ofLexemes_eq_ok (read : ofLexemes ls = .ok x) :
    ∃ rest, expression (sufficientFuel ls) 0 ls = .ok (x, rest) ∧ peek rest = .eof := by
  unfold ofLexemes at read
  split at read
  · cases read
  · obtain ⟨⟨x', rest⟩, first, read⟩ := bind_eq_ok.mp read
    dsimp only at read
    split at read
    · next front =>
      cases read
      exact ⟨rest, first, front⟩
    · cases read

/-- A lexeme that an expression is refused at, or that is left behind one, is one that no expression goes on with. -/
theorem offends_of_refused (fuel : Nat) (viable : Viable 0 (tokens before))
    (refused : ∀ more fuel' x rest, fuel ≤ fuel' → expression fuel' 0 (before ++ t :: more) = .ok (x, rest) →
      peek rest ≠ .eof) : Offends before t := by
  refine ⟨viable.completed, fun more x read => ?_⟩
  obtain ⟨rest, first, front⟩ := ofLexemes_eq_ok read
  obtain ⟨rest', again, front'⟩ := expression_again asked_zero first
    (Nat.le_max_right fuel (3 * (before ++ t :: more).length + 1))
  exact refused more _ x rest' (Nat.le_max_left ..) again (front'.trans front)

theorem ofLexemes_refuses (ended : Ended ls) (started : peek ls ≠ .eof) (failed : ofLexemes ls = .error e) :
    ∃ before t after, ls = before ++ t :: after ∧ Offends before t ∧ e.offset = e.cause.reportedAt t after := by
  have judged := (judgedWith (sufficientFuel ls)).expression asked_zero ended (by rw [sufficientFuel]; omega)
  unfold ofLexemes at failed
  split at failed
  · next front => exact absurd front started
  · rcases bind_eq_error.mp failed with refused | ⟨⟨x, rest⟩, taken, left⟩
    · obtain ⟨before, t, after, split, viable, reported, again⟩ := judged.refuses e refused
      refine ⟨before, t, after, split, offends_of_refused (sufficientFuel ls) viable
        fun more fuel' x rest enough read => ?_, reported⟩
      exact absurd read (again more fuel' (x, rest) enough)
    · obtain ⟨used, split, plain, again⟩ := judged.takes x rest taken
      obtain ⟨s, ts, shown, derived, reached, -⟩ := expression_sound asked_zero _ taken
      rw [← tokens_used split shown] at derived
      rw [split] at ended
      obtain ⟨t, after, rfl⟩ := List.exists_cons_of_ne_nil (ended.behind plain).ne_nil
      dsimp only at left
      split at left
      · cases left
      · next front =>
        cases left
        refine ⟨used, t, after, split, offends_of_refused (sufficientFuel ls) (viable_of_derives derived reached)
          fun more fuel' x' rest enough read => ?_, rfl⟩
        have same := (again (t :: more) fuel' rfl enough).symm.trans read
        cases same
        exact front

end whole

theorem ofScopedText_eq {source : String} {ls : List Lexeme} (cut : lexemes source = .ok ls) :
    ofScopedText source = ofLexemes ls := by
  rw [ofScopedText, cut]
  rfl

/-- A text that can be cut into lexemes, at least one before the end, but not read as an expression is refused at the
    first lexeme that no expression goes on with. The fault is reported at the offset of that lexeme, which is the
    end of the text if the text is too short; but a missing name of a member, a missing name of a field and a missing
    key are reported at the offset of the lexeme behind it, or at zero if there is none. -/
theorem fault_at_first_offence {source : String} {ls : List Lexeme} {e : SyntaxError} (cut : lexemes source = .ok ls)
    (started : peek ls ≠ .eof) (failed : ofScopedText source = .error e) :
    ∃ before t after, ls = before ++ t :: after ∧ Offends before t ∧
      (e.cause.isLate = false → e.offset = t.offset) ∧ (e.cause.isLate = true → e.offset = frontOffset after) ∧
      (t.token = .eof → t.offset = source.utf8ByteSize ∧ after = []) := by
  obtain ⟨others, shown, plain⟩ := (cut_of_lexemesFrom cut).covers.ends
  have ended : Ended ls := ⟨_, shown ▸ List.mem_append_right _ List.mem_cons_self, rfl⟩
  rw [ofScopedText_eq cut] at failed
  obtain ⟨before, t, after, split, offends, reported⟩ := ofLexemes_refuses ended started failed
  refine ⟨before, t, after, split, offends, fun early => ?_, fun late => ?_, fun last => ?_⟩
  · simpa [SyntaxCause.reportedAt, early] using reported
  · simpa [SyntaxCause.reportedAt, late] using reported
  · rw [split] at shown
    rcases split_cases shown with ⟨rfl, nothing⟩ | ⟨extra, rfl⟩ | ⟨extra, -, tail⟩
    · exact ⟨rfl, nothing⟩
    · exact absurd last (plain t (by simp))
    · simp at tail

/-- The operand of the last operator is missing, within a conditional within an array. -/
def brokenSource : String :=
  "['é', !true ? typeof ]"

def brokenLexemes : List Lexeme :=
  [⟨.punct .openBracket, 0, 1⟩, ⟨.text "é", 1, 3⟩, ⟨.punct .comma, 5, 1⟩, ⟨.punct .not, 7, 1⟩, ⟨.word "true", 8, 4⟩,
   ⟨.punct .question, 13, 1⟩, ⟨.word "typeof", 15, 6⟩, ⟨.punct .closeBracket, 22, 1⟩, ⟨.eof, 23, 0⟩]

theorem broken_fault : lexemes brokenSource = .ok brokenLexemes ∧ peek brokenLexemes ≠ .eof ∧
    ofScopedText brokenSource = .error ⟨.unexpectedPunct .closeBracket, 22⟩ ∧
    ∃ before t after, brokenLexemes = before ++ t :: after ∧ Offends before t ∧ t.offset = 22 := by
  have cut : lexemes brokenSource = .ok brokenLexemes := by rfl
  have started : peek brokenLexemes ≠ .eof := by simp [brokenLexemes, peek]
  have failed : ofScopedText brokenSource = .error ⟨.unexpectedPunct .closeBracket, 22⟩ := by
    rw [ofScopedText_eq cut]
    rfl
  obtain ⟨before, t, after, split, offends, early, -, -⟩ := fault_at_first_offence cut started failed
  exact ⟨cut, started, failed, before, t, after, split, offends, (early rfl).symm⟩

/-- Every fault of a text is reported at the first lexeme that no expression goes on with. -/
def PointsAtOffence (source : String) : Prop :=
  ∀ ls e, lexemes source = .ok ls → peek ls ≠ .eof → ofScopedText source = .error e →
    ∃ before t after, ls = before ++ t :: after ∧ Offends before t ∧ e.offset = t.offset

theorem not_pointsAtOffence {source : String} {ls before after : List Lexeme} {t : Lexeme} {e : SyntaxError}
    (cut : lexemes source = .ok ls) (started : peek ls ≠ .eof) (failed : ofLexemes ls = .error e)
    (split : ls = before ++ t :: after) (offends : Offends before t) (missed : e.offset ≠ t.offset) :
    ¬ PointsAtOffence source := by
  intro points
  obtain ⟨before', t', after', split', offends', reported⟩ := points ls e cut started (ofScopedText_eq cut ▸ failed)
  have same := offends.unique offends' (split.symm.trans split')
  exact missed (same ▸ reported)

/-- A number for the name of a field, the end of the text for the name of a member and a comma for a key. -/
theorem late_faults_miss :
    ¬ PointsAtOffence "context[1]" ∧ ¬ PointsAtOffence "'a'." ∧ ¬ PointsAtOffence "\x7b,\x7d" := by
  refine ⟨?_, ?_, ?_⟩
  · have cut : lexemes "context[1]" = .ok [⟨.word "context", 0, 7⟩, ⟨.punct .openBracket, 7, 1⟩,
        ⟨.number (Float.ofNat 1), 8, 1⟩, ⟨.punct .closeBracket, 9, 1⟩, ⟨.eof, 10, 0⟩] := by rfl
    have offends : Offends [⟨.word "context", 0, 7⟩, ⟨.punct .openBracket, 7, 1⟩] ⟨.number (Float.ofNat 1), 8, 1⟩ :=
      ⟨⟨[⟨.text "a", 0, 0⟩, ⟨.punct .closeBracket, 0, 0⟩], .field "a", by rfl⟩, fun more e read => by cases read⟩
    exact not_pointsAtOffence cut (by simp [peek]) (by rfl) (by rfl) offends (by decide)
  · have cut : lexemes "'a'." = .ok [⟨.text "a", 0, 3⟩, ⟨.punct .dot, 3, 1⟩, ⟨.eof, 4, 0⟩] := by rfl
    have offends : Offends [⟨.text "a", 0, 3⟩, ⟨.punct .dot, 3, 1⟩] ⟨.eof, 4, 0⟩ :=
      ⟨⟨[⟨.word "b", 0, 0⟩], .member (.literal (.string "a")) "b", by rfl⟩, fun more e read => by cases read⟩
    exact not_pointsAtOffence cut (by simp [peek]) (by rfl) (by rfl) offends (by decide)
  · have cut : lexemes "\x7b,\x7d" = .ok [⟨.punct .openBrace, 0, 1⟩, ⟨.punct .comma, 1, 1⟩,
        ⟨.punct .closeBrace, 2, 1⟩, ⟨.eof, 3, 0⟩] := by rfl
    have offends : Offends [⟨.punct .openBrace, 0, 1⟩] ⟨.punct .comma, 1, 1⟩ :=
      ⟨⟨[⟨.punct .closeBrace, 0, 0⟩], .object [], by rfl⟩, fun more e read => by cases read⟩
    exact not_pointsAtOffence cut (by simp [peek]) (by rfl) (by rfl) offends (by decide)

end Stencil.Expr
