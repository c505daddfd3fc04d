import Stencil.Expr.Parser
import Stencil.Proofs.Stateful

/-!
The grammar of expressions, one stratum for each tightness, and the parser that reads by binding powers.
`Derives` says which tokens stand for which tree. What the parser accepts derives in the grammar
(`expression_sound`), and every derivation is read back with the fuel that the number of tokens gives
(`Derives.parsed`), so that the parser accepts exactly the grammar, and the grammar is unambiguous.
-/
namespace Stencil.Expr

open Stateful

/-! ### The grammar -/

/-- The strata of the grammar, from the loosest to the tightest. -/
inductive Stratum where
  | conditional
  | or
  | and
  | equality
  | comparison
  | sum
  | product
  | unary
  | access
  | primary
  deriving Repr, DecidableEq

/-- The next tighter stratum; nothing is tighter than a primary expression. -/
def Stratum.tighter : Stratum → Stratum
  | conditional => or
  | or => and
  | and => equality
  | equality => comparison
  | comparison => sum
  | sum => product
  | product => unary
  | unary => access
  | access => primary
  | primary => primary

/-- The stratum in which a binary operator groups to the left. -/
def Stratum.of : BinaryOp → Stratum
  | .or => or
  | .and => and
  | .looseEq | .looseNe | .strictEq | .strictNe => equality
  | .lt | .le | .gt | .ge => comparison
  | .add | .sub => sum
  | .mul | .div | .rem => product

/-- The sign of a binary operator. -/
def Punct.of : BinaryOp → Punct
  | .mul => star
  | .div => slash
  | .rem => percent
  | .add => plus
  | .sub => minus
  | .lt => lt
  | .le => le
  | .gt => gt
  | .ge => ge
  | .looseEq => looseEq
  | .looseNe => looseNe
  | .strictEq => strictEq
  | .strictNe => strictNe
  | .and => and
  | .or => or

/-- The token of a unary operator. -/
def Token.of : UnaryOp → Token
  | .not => punct .not
  | .neg => punct .minus
  | .plus => punct .plus
  | .kind => word "typeof"

/-- The words that stand for a value. -/
def constants : List (String × Value) :=
  [("true", .bool true), ("false", .bool false), ("null", .null), ("undefined", .undefined),
   ("NaN", .number (0.0 / 0.0)), ("Infinity", .number (1.0 / 0.0))]

/-- The tokens of a look-up in the data context. -/
def lookupTokens (name : String) : List Token :=
  [.word "context", .punct .openBracket, .text name, .punct .closeBracket]

/-- Tokens that spell the key of an entry. -/
inductive Key : String → List Token → Prop where
  | text (s : String) : Key s [.text s]
  | number (x : Float) : Key (Number.text x) [.number x]
  | word (w : String) (other : w ≠ "context") : Key w [.word w]
  | field (name : String) : Key name (lookupTokens name)

/-- What tokens can stand for: an expression of a stratum, or what is between brackets or braces. -/
inductive Phrase where
  | expr (stratum : Stratum) (e : Expr)
  | items (es : List Expr)
  | entries (es : List (String × Expr))

/-- Tokens that stand for a phrase. -/
inductive Derives : Phrase → List Token → Prop where
  | tighter {s e ts} (inner : Derives (.expr s.tighter e) ts) : Derives (.expr s e) ts
  | conditional {test yes no a b c} (first : Derives (.expr .or test) a)
      (second : Derives (.expr .conditional yes) b) (third : Derives (.expr .conditional no) c) :
      Derives (.expr .conditional (.conditional test yes no))
        (a ++ .punct .question :: (b ++ .punct .colon :: c))
  | binary {left right a b} (op : BinaryOp) (first : Derives (.expr (.of op) left) a)
      (second : Derives (.expr (Stratum.of op).tighter right) b) :
      Derives (.expr (.of op) (.binary op left right)) (a ++ .punct (.of op) :: b)
  | unary {e ts} (op : UnaryOp) (operand : Derives (.expr .unary e) ts) :
      Derives (.expr .unary (.unary op e)) (.of op :: ts)
  | member {e ts} (name : String) (target : Derives (.expr .access e) ts) :
      Derives (.expr .access (.member e name)) (ts ++ [.punct .dot, .word name])
  | index {e key a b} (target : Derives (.expr .access e) a) (inside : Derives (.expr .conditional key) b) :
      Derives (.expr .access (.index e key)) (a ++ .punct .openBracket :: (b ++ [.punct .closeBracket]))
  | number (x : Float) : Derives (.expr .primary (.literal (.number x))) [.number x]
  | text (s : String) : Derives (.expr .primary (.literal (.string s))) [.text s]
  | constant {w value} (listed : (w, value) ∈ constants) :
      Derives (.expr .primary (.literal value)) [.word w]
  | field (name : String) : Derives (.expr .primary (.field name)) (lookupTokens name)
  | group {e ts} (inside : Derives (.expr .conditional e) ts) :
      Derives (.expr .primary e) (.punct .openParen :: (ts ++ [.punct .closeParen]))
  | array {es ts} (inside : Derives (.items es) ts) :
      Derives (.expr .primary (.array es)) (.punct .openBracket :: (ts ++ [.punct .closeBracket]))
  | object {es ts} (inside : Derives (.entries es) ts) :
      Derives (.expr .primary (.object es)) (.punct .openBrace :: (ts ++ [.punct .closeBrace]))
  | noItems : Derives (.items []) []
  | lastItem {e ts} (item : Derives (.expr .conditional e) ts) : Derives (.items [e]) ts
  | item {e es a b} (item : Derives (.expr .conditional e) a) (others : Derives (.items es) b) :
      Derives (.items (e :: es)) (a ++ .punct .comma :: b)
  | noEntries : Derives (.entries []) []
  | lastEntry {key e k ts} (name : Key key k) (value : Derives (.expr .conditional e) ts) :
      Derives (.entries [(key, e)]) (k ++ .punct .colon :: ts)
  | entry {key e k es a b} (name : Key key k) (value : Derives (.expr .conditional e) a)
      (others : Derives (.entries es) b) :
      Derives (.entries ((key, e) :: es)) (k ++ .punct .colon :: (a ++ .punct .comma :: b))

/-! ### Powers -/

/-- The power of a stratum: an operator of the stratum has this power, and the operand to its right is
    read with one more. -/
def Stratum.power : Stratum → Nat
  | conditional => 1
  | or => 3
  | and => 5
  | equality => 7
  | comparison => 9
  | sum => 11
  | product => 13
  | unary => 15
  | access => 17
  | primary => 19

/-- How strongly a token takes what stands to its left; nothing is taken with no power. -/
def pull : Token → Nat
  | .punct .dot | .punct .openBracket | .punct .openParen => 16
  | .punct .question => conditionalPower
  | .punct p => match p.binary? with
    | some (_, level) => level
    | none => 0
  | _ => 0

theorem Stratum.power_le_tighter (s : Stratum) : s.power ≤ s.tighter.power := by
  cases s <;> decide

theorem Stratum.power_injective {s t : Stratum} (same : s.power = t.power) : s = t := by
  revert same
  cases s <;> cases t <;> decide

theorem Stratum.tighter_power_le {s t : Stratum} (apart : t.power < s.power) :
    t.power < t.tighter.power ∧ t.tighter.power ≤ s.power := by
  revert apart
  cases s <;> cases t <;> decide

theorem Stratum.conditional_le {power : Nat} (s : Stratum) (_ : power ≤ s.power) :
    Stratum.conditional.power ≤ s.power := by
  cases s <;> decide

theorem Stratum.or_le {s : Stratum} (taken : 2 ≤ s.power) : Stratum.or.power ≤ s.power := by
  revert taken
  cases s <;> decide

theorem Stratum.access_le {s : Stratum} (taken : 16 ≤ s.power) : Stratum.access.power ≤ s.power := by
  revert taken
  cases s <;> decide

/-- A stratum includes every tighter one. -/
theorem Derives.loosen {s t : Stratum} {e : Expr} {ts : List Token} (derived : Derives (.expr s e) ts)
    (looser : t.power ≤ s.power) : Derives (.expr t e) ts := by
  rcases Nat.lt_or_eq_of_le looser with apart | same
  · have closer := Stratum.tighter_power_le apart
    exact .tighter (derived.loosen closer.2)
  · exact Stratum.power_injective same ▸ derived
termination_by s.power - t.power

theorem binary?_of (op : BinaryOp) : (Punct.of op).binary? = some (op, (Stratum.of op).power) := by
  cases op <;> rfl

theorem binary?_eq_some {p : Punct} {op : BinaryOp} {level : Nat} (found : p.binary? = some (op, level)) :
    p = .of op ∧ level = (Stratum.of op).power := by
  cases p <;> simp [Punct.binary?] at found <;> obtain ⟨rfl, rfl⟩ := found <;> exact ⟨rfl, rfl⟩

theorem unary?_eq_some {p : Punct} {op : UnaryOp} (found : p.unary? = some op) : Token.punct p = .of op := by
  cases p <;> simp [Punct.unary?] at found <;> subst found <;> rfl

theorem constant?_eq_some {w : String} {value : Value} : constant? w = some value ↔ (w, value) ∈ constants := by
  constructor
  · intro found
    unfold constant? at found
    split at found <;> simp_all [constants]
  · intro listed
    simp only [constants, List.mem_cons, List.not_mem_nil, or_false, Prod.mk.injEq] at listed
    rcases listed with ⟨rfl, rfl⟩ | ⟨rfl, rfl⟩ | ⟨rfl, rfl⟩ | ⟨rfl, rfl⟩ | ⟨rfl, rfl⟩ | ⟨rfl, rfl⟩ <;> rfl

theorem pull_le (t : Token) : pull t ≤ 16 := by
  cases t with
  | punct p => cases p <;> decide
  | _ => exact Nat.zero_le _

theorem pull_of (op : BinaryOp) : pull (.punct (.of op)) = (Stratum.of op).power := by
  cases op <;> rfl

/-- No token takes with the power of unary operators or with one below the conditional operator. -/
theorem pull_ne (t : Token) : pull t ≠ 1 ∧ pull t ≠ 15 := by
  cases t with
  | punct p => cases p <;> decide
  | _ => exact ⟨nofun, nofun⟩

/-! ### Tokens at the front -/

/-- The tokens of lexemes. -/
abbrev tokens (ls : List Lexeme) : List Token :=
  ls.map Lexeme.token

theorem tokens_map (ts : List Token) : tokens (ts.map (⟨·, 0, 0⟩)) = ts := by
  simp [tokens, Function.comp_def]

section front

variable {ls rest : List Lexeme} {p : Punct} {name : String}

theorem tokens_of_peek {t : Token} (front : peek ls = t) (more : t ≠ .eof) : tokens ls = t :: tokens ls.tail := by
  cases ls with
  | nil => exact absurd front.symm more
  | cons l rest => simp [← front, peek]

theorem tokens_of_eat? (eaten : eat? p ls = some rest) : tokens ls = .punct p :: tokens rest := by
  unfold eat? at eaten
  split at eaten
  · split at eaten
    · next same =>
      cases eaten
      simp [same]
    · cases eaten
  · cases eaten

theorem tokens_of_expect (found : expect p ls = .ok rest) : tokens ls = .punct p :: tokens rest := by
  unfold expect at found
  split at found
  · next eaten =>
    cases found
    exact tokens_of_eat? eaten
  · cases found

theorem tokens_of_fieldName (found : fieldName ls = .ok (name, rest)) :
    .word "context" :: tokens ls = lookupTokens name ++ tokens rest := by
  obtain ⟨inside, opened, found⟩ := bind_eq_ok.mp found
  split at found
  · next s front =>
    obtain ⟨after, closed, same⟩ := bind_eq_ok.mp found
    cases same
    rw [tokens_of_expect opened, tokens_of_peek front (by simp), tokens_of_expect closed]
    rfl
  · cases found

theorem entryKey_sound (found : entryKey ls = .ok (name, rest)) :
    ∃ k, Key name k ∧ tokens ls = k ++ tokens rest := by
  unfold entryKey at found
  split at found
  · next s front =>
    cases found
    exact ⟨_, .text _, tokens_of_peek front (by simp)⟩
  · next x front =>
    cases found
    exact ⟨_, .number x, tokens_of_peek front (by simp)⟩
  · next w front =>
    split at found
    · next same =>
      refine ⟨_, .field name, ?_⟩
      rw [tokens_of_peek front (by simp), same, tokens_of_fieldName found]
    · next other =>
      cases found
      exact ⟨_, .word _ other, tokens_of_peek front (by simp)⟩
  · cases found

end front

/-! ### What one step can read -/

section steps

variable {fuel power : Nat} {ls rest : List Lexeme} {left e : Expr}

/-- An operand is one token, a look-up, a group, an array, an object, or a unary operator with its operand. -/
theorem operand_cases (read : operand (fuel + 1) ls = .ok (e, rest)) :
    (∃ ts, Derives (.expr .primary e) ts ∧ tokens ls = ts ++ tokens rest) ∨
    (∃ op inner, e = .unary op inner ∧ tokens ls = .of op :: tokens ls.tail ∧
      expression fuel unaryPower ls.tail = .ok (inner, rest)) ∨
    (∃ after, tokens ls = .punct .openParen :: tokens ls.tail ∧ expression fuel 0 ls.tail = .ok (e, after) ∧
      tokens after = .punct .closeParen :: tokens rest) ∨
    (∃ es, e = .array es ∧ tokens ls = .punct .openBracket :: tokens ls.tail ∧ items fuel ls.tail = .ok (es, rest)) ∨
    (∃ es, e = .object es ∧ tokens ls = .punct .openBrace :: tokens ls.tail ∧
      entries fuel ls.tail = .ok (es, rest)) := by
  rw [operand] at read
  cases front : peek ls with
  | number x =>
    rw [front] at read
    cases read
    exact .inl ⟨_, .number x, tokens_of_peek front (by simp)⟩
  | text s =>
    rw [front] at read
    cases read
    exact .inl ⟨_, .text s, tokens_of_peek front (by simp)⟩
  | eof =>
    rw [front] at read
    cases read
  | word w =>
    have shown := tokens_of_peek front (by simp)
    simp only [front] at read
    split at read
    case h_1 value known =>
      cases read
      exact .inl ⟨_, .constant (constant?_eq_some.mp known), shown⟩
    case h_2 =>
      split at read
      case isTrue same =>
        obtain ⟨⟨inner, after⟩, inside, same'⟩ := bind_eq_ok.mp read
        cases same'
        exact .inr (.inl ⟨.kind, inner, rfl, by rw [shown, same]; rfl, inside⟩)
      case isFalse =>
        split at read
        case isTrue same =>
          obtain ⟨⟨name, after⟩, named, same'⟩ := bind_eq_ok.mp read
          cases same'
          exact .inl ⟨_, .field name, by rw [shown, same, tokens_of_fieldName named]⟩
        case isFalse => cases read
  | punct p =>
    have shown := tokens_of_peek front (by simp)
    simp only [front] at read
    split at read
    · next x same => cases same
    · next same => cases same
    · next same => cases same
    · next same =>
      cases same
      obtain ⟨⟨inner, after⟩, inside, read⟩ := bind_eq_ok.mp read
      obtain ⟨closed, ended, same⟩ := bind_eq_ok.mp read
      cases same
      exact .inr (.inr (.inl ⟨after, shown, inside, tokens_of_expect ended⟩))
    · next same =>
      cases same
      obtain ⟨⟨es, after⟩, inside, same⟩ := bind_eq_ok.mp read
      cases same
      exact .inr (.inr (.inr (.inl ⟨es, rfl, shown, inside⟩)))
    · next same =>
      cases same
      obtain ⟨⟨es, after⟩, inside, same⟩ := bind_eq_ok.mp read
      cases same
      exact .inr (.inr (.inr (.inr ⟨es, rfl, shown, inside⟩)))
    · next q _ _ _ same =>
      cases same
      split at read
      case h_1 op known =>
        obtain ⟨⟨inner, after⟩, inside, same⟩ := bind_eq_ok.mp read
        cases same
        exact .inr (.inl ⟨op, inner, rfl, by rw [shown, unary?_eq_some known], inside⟩)
      case h_2 => cases read
    · next same => cases same

/-- After an expression there is nothing that takes it with the power wanted, or a name, a key, or an operator
    with what stands to its right. -/
theorem operators_cases (read : operators (fuel + 1) power left ls = .ok (e, rest)) :
    (e = left ∧ rest = ls ∧ pull (peek ls) < max power 1) ∨
    (∃ name, peek ls = .punct .dot ∧ tokens ls = [.punct .dot, .word name] ++ tokens ls.tail.tail ∧
      operators fuel power (.member left name) ls.tail.tail = .ok (e, rest)) ∨
    (∃ key inside after, peek ls = .punct .openBracket ∧ tokens ls = .punct .openBracket :: tokens ls.tail ∧
      expression fuel 0 ls.tail = .ok (key, inside) ∧ tokens inside = .punct .closeBracket :: tokens after ∧
      operators fuel power (.index left key) after = .ok (e, rest)) ∨
    (∃ yes no inside after other, power ≤ conditionalPower ∧ peek ls = .punct .question ∧
      tokens ls = .punct .question :: tokens ls.tail ∧
      expression fuel 0 ls.tail = .ok (yes, inside) ∧ tokens inside = .punct .colon :: tokens after ∧
      expression fuel alternativePower after = .ok (no, other) ∧
      operators fuel power (.conditional left yes no) other = .ok (e, rest)) ∨
    (∃ op right after, power ≤ (Stratum.of op).power ∧ peek ls = .punct (.of op) ∧
      tokens ls = .punct (.of op) :: tokens ls.tail ∧
      expression fuel ((Stratum.of op).power + 1) ls.tail = .ok (right, after) ∧
      operators fuel power (.binary op left right) after = .ok (e, rest)) := by
  rw [operators] at read
  split at read
  · next front =>
    split at read
    · next name named =>
      refine .inr (.inl ⟨name, front, ?_, read⟩)
      rw [tokens_of_peek front (by simp), tokens_of_peek named (by simp)]
      rfl
    · cases read
  · next front =>
    obtain ⟨⟨key, inside⟩, inner, read⟩ := bind_eq_ok.mp read
    obtain ⟨after, closed, read⟩ := bind_eq_ok.mp read
    exact .inr (.inr (.inl ⟨key, inside, after, front, tokens_of_peek front (by simp), inner,
      tokens_of_expect closed, read⟩))
  · cases read
  · next front =>
    split at read
    · next beyond =>
      cases read
      refine .inl ⟨rfl, rfl, ?_⟩
      rw [front, pull]
      omega
    · next reached =>
      obtain ⟨⟨yes, inside⟩, first, read⟩ := bind_eq_ok.mp read
      obtain ⟨after, parted, read⟩ := bind_eq_ok.mp read
      obtain ⟨⟨no, other⟩, second, read⟩ := bind_eq_ok.mp read
      exact .inr (.inr (.inr (.inl ⟨yes, no, inside, after, other, Nat.le_of_not_lt reached, front,
        tokens_of_peek front (by simp), first, tokens_of_expect parted, second, read⟩)))
  · next p notDot notBracket notParen notQuestion front =>
    split at read
    · next op level known =>
      obtain ⟨rfl, rfl⟩ := binary?_eq_some known
      split at read
      · next beyond =>
        cases read
        refine .inl ⟨rfl, rfl, ?_⟩
        rw [front, pull_of]
        omega
      · next reached =>
        obtain ⟨⟨right, after⟩, second, read⟩ := bind_eq_ok.mp read
        exact .inr (.inr (.inr (.inr ⟨op, right, after, Nat.le_of_not_lt reached, front,
          tokens_of_peek front (by simp), second, read⟩)))
    · next unknown =>
      cases read
      have idle : pull (.punct p) = 0 := by
        rw [pull, unknown] <;> assumption
      exact .inl ⟨rfl, rfl, by rw [front, idle]; omega⟩
  · next other =>
    cases read
    have idle : pull (peek ls) = 0 := by
      cases front : peek ls with
      | punct p => exact absurd front (other p)
      | _ => rfl
    exact .inl ⟨rfl, rfl, by omega⟩

end steps

/-! ### What is read derives -/

/-- A power that operands are read with. -/
def Asked (power : Nat) : Prop :=
  power ≠ conditionalPower ∧ power ≤ unaryPower

theorem asked_zero : Asked 0 := ⟨by decide, by decide⟩

theorem asked_one : Asked 1 := ⟨by decide, by decide⟩

theorem asked_of (op : BinaryOp) : Asked ((Stratum.of op).power + 1) := by
  cases op <;> exact ⟨by decide, by decide⟩

/-- The tokens `before` and some tokens at the front of `ls` stand for an expression that no operator of less
    than the power holds together, and nothing in `rest` takes it with the power. -/
def Reads (power : Nat) (before : List Token) (ls : List Lexeme) (e : Expr) (rest : List Lexeme) : Prop :=
  ∃ s ts, tokens ls = ts ++ tokens rest ∧ Derives (.expr s e) (before ++ ts) ∧ power ≤ s.power ∧
    pull (peek rest) < max power 1

theorem Reads.loosen {power : Nat} {ls rest : List Lexeme} {e : Expr} (reads : Reads power [] ls e rest)
    {t : Stratum} (looser : ∀ s : Stratum, power ≤ s.power → t.power ≤ s.power) :
    ∃ ts, tokens ls = ts ++ tokens rest ∧ Derives (.expr t e) ts := by
  obtain ⟨s, ts, shown, derived, reached, -⟩ := reads
  exact ⟨ts, shown, derived.loosen (looser s reached)⟩

theorem Reads.after {power : Nat} {before ts : List Token} {ls mid rest : List Lexeme} {e : Expr}
    (shown : tokens ls = ts ++ tokens mid) (reads : Reads power (before ++ ts) mid e rest) :
    Reads power before ls e rest := by
  obtain ⟨s, more, continued, derived, reached, idle⟩ := reads
  refine ⟨s, ts ++ more, ?_, ?_, reached, idle⟩
  · rw [shown, continued, List.append_assoc]
  · rwa [← List.append_assoc]

mutual

theorem expression_sound {power : Nat} {ls rest : List Lexeme} {e : Expr} (asked : Asked power) :
    ∀ fuel, expression fuel power ls = .ok (e, rest) → Reads power [] ls e rest
  | 0, read => by
    rw [expression] at read
    cases read
  | fuel + 1, read => by
    rw [expression] at read
    obtain ⟨⟨left, mid⟩, first, read⟩ := bind_eq_ok.mp read
    obtain ⟨s, ts, shown, derived, tight, fits⟩ := operand_sound fuel first
    exact .after shown (operators_sound asked derived (Nat.le_trans asked.2 tight) fits fuel read)

theorem operand_sound {ls rest : List Lexeme} {e : Expr} :
    ∀ fuel, operand fuel ls = .ok (e, rest) →
      ∃ s ts, tokens ls = ts ++ tokens rest ∧ Derives (.expr s e) ts ∧ unaryPower ≤ s.power ∧
        pull (peek rest) ≤ s.power
  | 0, read => by
    rw [operand] at read
    cases read
  | fuel + 1, read => by
    have primary {ts : List Token} (derived : Derives (.expr .primary e) ts) (shown : tokens ls = ts ++ tokens rest) :
        ∃ s ts, tokens ls = ts ++ tokens rest ∧ Derives (.expr s e) ts ∧ unaryPower ≤ s.power ∧
          pull (peek rest) ≤ s.power :=
      ⟨.primary, ts, shown, derived, by decide, Nat.le_trans (pull_le _) (by decide)⟩
    rcases operand_cases read with ⟨ts, derived, shown⟩ | ⟨op, inner, rfl, shown, inside⟩ |
      ⟨after, shown, inside, closed⟩ | ⟨es, rfl, shown, inside⟩ | ⟨es, rfl, shown, inside⟩
    · exact primary derived shown
    · have reads := expression_sound ⟨by decide, Nat.le_refl _⟩ fuel inside
      obtain ⟨ts, inner, derived⟩ := reads.loosen (t := .unary) fun _ => id
      obtain ⟨-, -, -, -, -, idle⟩ := reads
      exact ⟨.unary, .of op :: ts, by rw [shown, inner]; rfl, .unary op derived, Nat.le_refl _, Nat.le_of_lt idle⟩
    · obtain ⟨ts, inner, derived⟩ := (expression_sound asked_zero fuel inside).loosen Stratum.conditional_le
      exact primary (.group derived) (by simp [shown, inner, closed])
    · obtain ⟨ts, inner, derived⟩ := items_sound fuel inside
      exact primary (.array derived) (by simp [shown, inner])
    · obtain ⟨ts, inner, derived⟩ := entries_sound fuel inside
      exact primary (.object derived) (by simp [shown, inner])

theorem operators_sound {power : Nat} {left e : Expr} {ls rest : List Lexeme} {s : Stratum} {before : List Token}
    (asked : Asked power) (derived : Derives (.expr s left) before) (reached : power ≤ s.power)
    (fits : pull (peek ls) ≤ s.power) :
    ∀ fuel, operators fuel power left ls = .ok (e, rest) → Reads power before ls e rest
  | 0, read => by
    rw [operators] at read
    cases read
  | fuel + 1, read => by
    -- each operator makes what was read so far its left operand, at the stratum of the operator
    rcases operators_cases read with ⟨rfl, rfl, idle⟩ | ⟨name, front, shown, read⟩ |
      ⟨key, inside, after, front, shown, first, closed, read⟩ |
      ⟨yes, no, inside, after, other, low, front, shown, first, parted, second, read⟩ |
      ⟨op, right, after, low, front, shown, second, read⟩
    · exact ⟨s, [], rfl, by rwa [List.append_nil], reached, idle⟩
    · rw [front] at fits
      have target := derived.loosen (Stratum.access_le fits)
      exact .after shown (operators_sound asked (.member name target) (Nat.le_trans asked.2 (by decide))
        (Nat.le_trans (pull_le _) (by decide)) fuel read)
    · rw [front] at fits
      have target := derived.loosen (Stratum.access_le fits)
      obtain ⟨ts, inner, keyed⟩ := (expression_sound asked_zero fuel first).loosen Stratum.conditional_le
      have taken : tokens ls = (.punct .openBracket :: (ts ++ [.punct .closeBracket])) ++ tokens after := by
        simp [shown, inner, closed]
      exact .after taken (operators_sound asked (.index target keyed) (Nat.le_trans asked.2 (by decide))
        (Nat.le_trans (pull_le _) (by decide)) fuel read)
    · rw [front] at fits
      have test := derived.loosen (Stratum.or_le fits)
      obtain ⟨ts, inner, derivedYes⟩ := (expression_sound asked_zero fuel first).loosen Stratum.conditional_le
      have reads := expression_sound asked_one fuel second
      obtain ⟨us, alternative, derivedNo⟩ := reads.loosen Stratum.conditional_le
      obtain ⟨-, -, -, -, -, idle⟩ := reads
      have taken : tokens ls = (.punct .question :: (ts ++ .punct .colon :: us)) ++ tokens other := by
        simp [shown, inner, parted, alternative]
      have below : power ≤ Stratum.conditional.power := Nat.le_of_lt_succ (Nat.lt_of_le_of_ne low asked.1)
      exact .after taken (operators_sound asked (.conditional test derivedYes derivedNo) below (Nat.le_of_lt idle)
        fuel read)
    · rw [front, pull_of] at fits
      have reads := expression_sound (asked_of op) fuel second
      obtain ⟨ts, inner, derivedRight⟩ := reads.loosen fun _ above => (Stratum.tighter_power_le above).2
      obtain ⟨-, -, -, -, -, idle⟩ := reads
      have taken : tokens ls = (.punct (.of op) :: ts) ++ tokens after := by
        simp [shown, inner]
      exact .after taken (operators_sound asked (.binary op (derived.loosen fits) derivedRight) low (by omega)
        fuel read)

theorem items_sound {ls rest : List Lexeme} {es : List Expr} :
    ∀ fuel, items fuel ls = .ok (es, rest) →
      ∃ ts, tokens ls = ts ++ .punct .closeBracket :: tokens rest ∧ Derives (.items es) ts
  | 0, read => by
    rw [items] at read
    cases read
  | fuel + 1, read => by
    rw [items] at read
    split at read
    · next closed =>
      cases read
      exact ⟨[], tokens_of_eat? closed, .noItems⟩
    · obtain ⟨⟨item, after⟩, first, read⟩ := bind_eq_ok.mp read
      obtain ⟨ts, inner, derived⟩ := (expression_sound asked_zero fuel first).loosen Stratum.conditional_le
      dsimp only at read
      split at read
      · next more parted =>
        obtain ⟨⟨others, after⟩, second, same⟩ := bind_eq_ok.mp read
        cases same
        obtain ⟨us, tail, derivedOthers⟩ := items_sound fuel second
        exact ⟨_, by simp [inner, tokens_of_eat? parted, tail], .item derived derivedOthers⟩
      · obtain ⟨closed, ended, same⟩ := bind_eq_ok.mp read
        cases same
        exact ⟨ts, by rw [inner, tokens_of_expect ended], .lastItem derived⟩

theorem entries_sound {ls rest : List Lexeme} {es : List (String × Expr)} :
    ∀ fuel, entries fuel ls = .ok (es, rest) →
      ∃ ts, tokens ls = ts ++ .punct .closeBrace :: tokens rest ∧ Derives (.entries es) ts
  | 0, read => by
    rw [entries] at read
    cases read
  | fuel + 1, read => by
    rw [entries] at read
    split at read
    · next closed =>
      cases read
      exact ⟨[], tokens_of_eat? closed, .noEntries⟩
    · obtain ⟨⟨key, named⟩, keyed, read⟩ := bind_eq_ok.mp read
      obtain ⟨valued, parted, read⟩ := bind_eq_ok.mp read
      obtain ⟨⟨value, after⟩, first, read⟩ := bind_eq_ok.mp read
      obtain ⟨k, name, shown⟩ := entryKey_sound keyed
      obtain ⟨ts, inner, derived⟩ := (expression_sound asked_zero fuel first).loosen Stratum.conditional_le
      dsimp only at read
      split at read
      · next more continued =>
        obtain ⟨⟨others, after⟩, second, same⟩ := bind_eq_ok.mp read
        cases same
        obtain ⟨us, tail, derivedOthers⟩ := entries_sound fuel second
        refine ⟨_, ?_, .entry name derived derivedOthers⟩
        simp [shown, tokens_of_expect parted, inner, tokens_of_eat? continued, tail]
      · obtain ⟨closed, ended, same⟩ := bind_eq_ok.mp read
        cases same
        refine ⟨_, ?_, .lastEntry name derived⟩
        simp [shown, tokens_of_expect parted, inner, tokens_of_expect ended]

end

/-! ### What derives is read -/

/-- What the first token of an expression cannot be. -/
theorem Derives.starts {s : Stratum} {e : Expr} {ts : List Token} (derived : Derives (.expr s e) ts) :
    ∃ t more, ts = t :: more ∧ t ≠ .punct .closeBracket ∧ t ≠ .eof := by
  generalize same : Phrase.expr s e = phrase at derived
  induction derived generalizing s e with
  | tighter _ ih => exact ih rfl
  | conditional _ _ _ ih _ _ | binary _ _ _ ih _ | member _ _ ih | index _ _ ih _ =>
    obtain ⟨t, more, rfl, starts⟩ := ih rfl
    exact ⟨t, _, rfl, starts⟩
  | unary op => exact ⟨_, _, rfl, by cases op <;> simp [Token.of]⟩
  | number | text | constant | field | group | array | object => exact ⟨_, _, rfl, nofun, nofun⟩
  | noItems | lastItem | item | noEntries | lastEntry | entry => cases same

section forward

variable {fuel power : Nat} {l m : Lexeme} {ls rest after : List Lexeme} {left e : Expr} {p : Punct}

theorem eat?_cons (front : l.token = .punct p) : eat? p (l :: rest) = some rest := by
  obtain ⟨t, offset, width⟩ := l
  cases front
  simp [eat?]

theorem eat?_cons_of_ne (front : l.token ≠ .punct p) : eat? p (l :: rest) = none := by
  unfold eat?
  split
  · next q offset width more same =>
    cases same
    exact if_neg fun same => front (by rw [same])
  · rfl

theorem expect_cons (front : l.token = .punct p) : expect p (l :: rest) = .ok rest := by
  rw [expect, eat?_cons front]

theorem operators_idle (asked : power ≤ unaryPower) (idle : pull (peek ls) < max power 1) :
    operators (fuel + 1) power left ls = .ok (left, ls) := by
  have low : power ≤ 15 := asked
  rw [operators]
  split
  · next front =>
    rw [front, pull] at idle
    omega
  · next front =>
    rw [front, pull] at idle
    omega
  · next front =>
    rw [front, pull] at idle
    omega
  · next front =>
    rw [front, pull] at idle
    exact if_pos (by simp only [conditionalPower] at idle ⊢; omega)
  · next front =>
    split
    · next op level known =>
      obtain ⟨rfl, rfl⟩ := binary?_eq_some known
      rw [front, pull_of] at idle
      have positive : 0 < (Stratum.of op).power := by cases op <;> decide
      exact if_pos (by omega)
    · rfl
  · rfl

theorem operators_member {name : String} (first : l.token = .punct .dot) (second : m.token = .word name) :
    operators (fuel + 1) power left (l :: m :: rest) = operators fuel power (.member left name) rest := by
  simp [operators, peek, first, second]

theorem operators_index {key : Expr} {close : Lexeme} (first : l.token = .punct .openBracket)
    (inside : expression fuel 0 ls = .ok (key, close :: rest)) (closed : close.token = .punct .closeBracket) :
    operators (fuel + 1) power left (l :: ls) = operators fuel power (.index left key) rest := by
  simp only [operators, peek, first, List.tail_cons, inside]
  simp only [bind, Except.bind, expect_cons closed]

theorem operators_conditional {yes no : Expr} (reached : power ≤ conditionalPower) (first : l.token = .punct .question)
    (inside : expression fuel 0 ls = .ok (yes, m :: after)) (parted : m.token = .punct .colon)
    (other : expression fuel alternativePower after = .ok (no, rest)) :
    operators (fuel + 1) power left (l :: ls) = operators fuel power (.conditional left yes no) rest := by
  simp only [operators, peek, first, List.tail_cons, inside, if_neg (Nat.not_lt.mpr reached)]
  simp only [bind, Except.bind, expect_cons parted, other]

theorem operators_binary {op : BinaryOp} {right : Expr} (reached : power ≤ (Stratum.of op).power)
    (first : l.token = .punct (.of op))
    (second : expression fuel ((Stratum.of op).power + 1) ls = .ok (right, rest)) :
    operators (fuel + 1) power left (l :: ls) = operators fuel power (.binary op left right) rest := by
  have known : ∀ q, peek (l :: ls) = .punct q → q.binary? = some (op, (Stratum.of op).power) := by
    intro q front
    rw [peek, first] at front
    cases front
    exact binary?_of op
  rw [operators]
  split
  · next front => cases known _ front
  · next front => cases known _ front
  · next front => cases known _ front
  · next front => cases known _ front
  · next q _ _ _ _ front =>
    simp only [known q front, if_neg (Nat.not_lt.mpr reached), List.tail_cons, second]
    rfl
  · next other => exact absurd first (other _)

theorem expression_of_operand (read : operand fuel ls = .ok (e, rest)) :
    expression (fuel + 1) power ls = operators fuel power e rest := by
  rw [expression, read]
  rfl

end forward

/-- What the parser makes of tokens that stand for a phrase, whatever follows them. An expression becomes the
    operand to the left of what follows, which takes it with no more than the power of its stratum; three units
    of fuel for each token are enough. -/
def Parsed : Phrase → List Token → Prop
  | .expr s e, ts => ∀ ls rest power fuel, tokens ls = ts → Asked power → power ≤ s.power →
      pull (peek rest) ≤ s.power → 3 * (ls ++ rest).length + 1 ≤ fuel →
      ∃ left, 3 * rest.length + 1 ≤ left ∧ expression fuel power (ls ++ rest) = operators left power e rest
  | .items es, ts => ∀ ls close rest fuel, tokens ls = ts → close.token = .punct .closeBracket →
      3 * (ls ++ close :: rest).length + 2 ≤ fuel → items fuel (ls ++ close :: rest) = .ok (es, rest)
  | .entries es, ts => ∀ ls close rest fuel, tokens ls = ts → close.token = .punct .closeBrace →
      3 * (ls ++ close :: rest).length + 2 ≤ fuel → entries fuel (ls ++ close :: rest) = .ok (es, rest)

section parsed

variable {s : Stratum} {e : Expr} {ts : List Token}

/-- An expression is read as a whole where nothing that follows takes it. -/
theorem Parsed.whole (parsed : Parsed (.expr s e) ts) {ls rest : List Lexeme} {power fuel : Nat}
    (shown : tokens ls = ts) (asked : Asked power) (reached : power ≤ s.power) (fits : pull (peek rest) ≤ s.power)
    (idle : pull (peek rest) < max power 1) (enough : 3 * (ls ++ rest).length + 1 ≤ fuel) :
    expression fuel power (ls ++ rest) = .ok (e, rest) := by
  obtain ⟨left, more, read⟩ := parsed ls rest power fuel shown asked reached fits enough
  obtain ⟨left, rfl⟩ := Nat.exists_eq_add_one.mpr (Nat.lt_of_lt_of_le (Nat.succ_pos _) more)
  rw [read, operators_idle asked.2 idle]

/-- A conditional expression is read as a whole before a sign that takes nothing. -/
theorem Parsed.inside (parsed : Parsed (.expr .conditional e) ts) {ls rest : List Lexeme} {close : Lexeme} {fuel : Nat}
    (shown : tokens ls = ts) (idle : pull close.token = 0) (enough : 3 * (ls ++ close :: rest).length + 1 ≤ fuel) :
    expression fuel 0 (ls ++ close :: rest) = .ok (e, close :: rest) :=
  parsed.whole shown asked_zero (Nat.zero_le _) (by simp [peek, idle]) (by simp [peek, idle]) enough

/-- What is read as an operand is parsed. -/
theorem parsed_of_operand (nonempty : ts ≠ [])
    (read : ∀ ls rest fuel, tokens ls = ts → pull (peek rest) ≤ s.power → 3 * (ls ++ rest).length ≤ fuel →
      operand fuel (ls ++ rest) = .ok (e, rest)) : Parsed (.expr s e) ts := by
  intro ls rest power fuel shown _ _ fits enough
  obtain ⟨fuel, rfl⟩ := Nat.exists_eq_add_one.mpr (Nat.lt_of_lt_of_le (Nat.succ_pos _) enough)
  have some : 0 < ls.length := by
    rw [← shown] at nonempty
    exact List.length_pos_iff.mpr fun none => nonempty (by rw [none]; rfl)
  refine ⟨fuel, ?_, expression_of_operand (read ls rest fuel shown fits (by omega))⟩
  rw [List.length_append] at enough
  omega

theorem Parsed.tighter (inner : Parsed (.expr s.tighter e) ts) : Parsed (.expr s e) ts := by
  intro ls rest power fuel shown asked reached fits enough
  have looser := s.power_le_tighter
  exact inner ls rest power fuel shown asked (by omega) (by omega) enough

theorem Parsed.conditional {test yes no : Expr} {a b c : List Token} (first : Parsed (.expr .or test) a)
    (second : Parsed (.expr .conditional yes) b) (third : Parsed (.expr .conditional no) c) :
    Parsed (.expr .conditional (.conditional test yes no)) (a ++ .punct .question :: (b ++ .punct .colon :: c)) := by
  intro ls rest power fuel shown asked reached fits enough
  obtain ⟨la, tail, rfl, shownTest, shown⟩ := List.map_eq_append_iff.mp shown
  obtain ⟨question, tail, rfl, asks, shown⟩ := List.map_eq_cons_iff.mp shown
  obtain ⟨lb, tail, rfl, shownYes, shown⟩ := List.map_eq_append_iff.mp shown
  obtain ⟨colon, lc, rfl, parts, shownNo⟩ := List.map_eq_cons_iff.mp shown
  have low : power ≤ 1 := reached
  have idle : pull (peek rest) ≤ 1 := fits
  have other := (pull_ne (peek rest)).1
  simp only [List.append_assoc, List.cons_append] at enough ⊢
  obtain ⟨left, more, read⟩ := first la (question :: (lb ++ colon :: (lc ++ rest))) power fuel shownTest asked
    (Nat.le_trans reached (by decide)) (by rw [peek, asks]; decide) enough
  obtain ⟨left, rfl⟩ := Nat.exists_eq_add_one.mpr (Nat.lt_of_lt_of_le (Nat.succ_pos _) more)
  simp only [List.length_cons, List.length_append] at more
  have readYes : expression left 0 (lb ++ colon :: (lc ++ rest)) = .ok (yes, colon :: (lc ++ rest)) :=
    second.inside shownYes (by rw [parts]; rfl) (by simp only [List.length_cons, List.length_append]; omega)
  have readNo : expression left alternativePower (lc ++ rest) = .ok (no, rest) :=
    third.whole shownNo asked_one (Nat.le_refl _) fits (by omega) (by rw [List.length_append]; omega)
  refine ⟨left, by omega, ?_⟩
  rw [read, operators_conditional (Nat.le_trans low (by decide)) asks readYes parts readNo]

theorem Parsed.binary {left right : Expr} {a b : List Token} {op : BinaryOp} (first : Parsed (.expr (.of op) left) a)
    (second : Parsed (.expr (Stratum.of op).tighter right) b) :
    Parsed (.expr (.of op) (.binary op left right)) (a ++ .punct (.of op) :: b) := by
  intro ls rest power fuel shown asked reached fits enough
  obtain ⟨la, tail, rfl, shownLeft, shown⟩ := List.map_eq_append_iff.mp shown
  obtain ⟨sign, lb, rfl, signed, shownRight⟩ := List.map_eq_cons_iff.mp shown
  have tighter : (Stratum.of op).power + 2 = (Stratum.of op).tighter.power := by cases op <;> rfl
  simp only [List.append_assoc, List.cons_append] at enough ⊢
  obtain ⟨fuel, more, read⟩ := first la (sign :: (lb ++ rest)) power fuel shownLeft asked reached
    (Nat.le_of_eq (by rw [peek, signed, pull_of])) enough
  obtain ⟨fuel, rfl⟩ := Nat.exists_eq_add_one.mpr (Nat.lt_of_lt_of_le (Nat.succ_pos _) more)
  simp only [List.length_cons, List.length_append] at more
  have readRight : expression fuel ((Stratum.of op).power + 1) (lb ++ rest) = .ok (right, rest) :=
    second.whole shownRight (asked_of op) (by omega) (by omega) (by omega) (by rw [List.length_append]; omega)
  refine ⟨fuel, by omega, ?_⟩
  rw [read, operators_binary reached signed readRight]

theorem Parsed.unary (op : UnaryOp) (inner : Parsed (.expr .unary e) ts) :
    Parsed (.expr .unary (.unary op e)) (.of op :: ts) := by
  refine parsed_of_operand nofun fun ls rest fuel shown fits enough => ?_
  obtain ⟨sign, ls, rfl, signed, shown⟩ := List.map_eq_cons_iff.mp shown
  simp only [List.cons_append, List.length_cons] at enough ⊢
  obtain ⟨fuel, rfl⟩ := Nat.exists_eq_add_one.mpr (show 0 < fuel by omega)
  have below : pull (peek rest) ≤ 15 := fits
  have other := (pull_ne (peek rest)).2
  have read : expression fuel unaryPower (ls ++ rest) = .ok (e, rest) :=
    inner.whole shown ⟨by decide, Nat.le_refl _⟩ (Nat.le_refl _) fits (by simp only [unaryPower]; omega) (by omega)
  rw [operand]
  cases op <;> simp [peek, signed, Token.of, constant?, Punct.unary?, read, bind, Except.bind, pure, Except.pure]

theorem Parsed.member (name : String) (target : Parsed (.expr .access e) ts) :
    Parsed (.expr .access (.member e name)) (ts ++ [.punct .dot, .word name]) := by
  intro ls rest power fuel shown asked reached fits enough
  obtain ⟨la, tail, rfl, shownTarget, shown⟩ := List.map_eq_append_iff.mp shown
  obtain ⟨dot, tail, rfl, dotted, shown⟩ := List.map_eq_cons_iff.mp shown
  obtain ⟨word, tail, rfl, named, shown⟩ := List.map_eq_cons_iff.mp shown
  obtain rfl := List.map_eq_nil_iff.mp shown
  simp only [List.append_assoc, List.cons_append, List.nil_append] at enough ⊢
  obtain ⟨fuel, more, read⟩ := target la (dot :: word :: rest) power fuel shownTarget asked reached
    (Nat.le_trans (pull_le _) (by decide)) enough
  obtain ⟨fuel, rfl⟩ := Nat.exists_eq_add_one.mpr (Nat.lt_of_lt_of_le (Nat.succ_pos _) more)
  simp only [List.length_cons] at more
  exact ⟨fuel, by omega, by rw [read, operators_member dotted named]⟩

theorem Parsed.index {key : Expr} {a b : List Token} (target : Parsed (.expr .access e) a)
    (inside : Parsed (.expr .conditional key) b) :
    Parsed (.expr .access (.index e key)) (a ++ .punct .openBracket :: (b ++ [.punct .closeBracket])) := by
  intro ls rest power fuel shown asked reached fits enough
  obtain ⟨la, tail, rfl, shownTarget, shown⟩ := List.map_eq_append_iff.mp shown
  obtain ⟨opening, tail, rfl, opened, shown⟩ := List.map_eq_cons_iff.mp shown
  obtain ⟨lb, tail, rfl, shownKey, shown⟩ := List.map_eq_append_iff.mp shown
  obtain ⟨close, rfl, closed⟩ := List.map_eq_singleton_iff.mp shown
  simp only [List.append_assoc, List.cons_append, List.nil_append] at enough ⊢
  obtain ⟨fuel, more, read⟩ := target la (opening :: (lb ++ close :: rest)) power fuel shownTarget asked reached
    (Nat.le_trans (pull_le _) (by decide)) enough
  obtain ⟨fuel, rfl⟩ := Nat.exists_eq_add_one.mpr (Nat.lt_of_lt_of_le (Nat.succ_pos _) more)
  have readKey : expression fuel 0 (lb ++ close :: rest) = .ok (key, close :: rest) :=
    inside.inside shownKey (by rw [closed]; rfl) (by rw [List.length_cons] at more; omega)
  simp only [List.length_cons, List.length_append] at more
  exact ⟨fuel, by omega, by rw [read, operators_index opened readKey closed]⟩

/-- A token that is an operand by itself. -/
theorem parsed_single {t : Token} (read : ∀ l rest fuel, l.token = t → operand (fuel + 1) (l :: rest) = .ok (e, rest)) :
    Parsed (.expr .primary e) [t] := by
  refine parsed_of_operand nofun fun ls rest fuel shown _ enough => ?_
  obtain ⟨l, rfl, single⟩ := List.map_eq_singleton_iff.mp shown
  simp only [List.cons_append, List.nil_append, List.length_cons] at enough ⊢
  obtain ⟨fuel, rfl⟩ := Nat.exists_eq_add_one.mpr (show 0 < fuel by omega)
  exact read l rest fuel single

theorem fieldName_cons {opening key close : Lexeme} {rest : List Lexeme} {name : String}
    (opened : opening.token = .punct .openBracket) (named : key.token = .text name)
    (closed : close.token = .punct .closeBracket) :
    fieldName (opening :: key :: close :: rest) = .ok (name, rest) := by
  simp [fieldName, expect_cons opened, expect_cons closed, peek, named, bind, Except.bind, pure, Except.pure]

theorem lookupTokens_eq {ls : List Lexeme} {name : String} (shown : tokens ls = lookupTokens name) :
    ∃ word opening key close, ls = [word, opening, key, close] ∧ word.token = .word "context" ∧
      opening.token = .punct .openBracket ∧ key.token = .text name ∧ close.token = .punct .closeBracket := by
  obtain ⟨word, tail, rfl, spelt, shown⟩ := List.map_eq_cons_iff.mp shown
  obtain ⟨opening, tail, rfl, opened, shown⟩ := List.map_eq_cons_iff.mp shown
  obtain ⟨key, tail, rfl, named, shown⟩ := List.map_eq_cons_iff.mp shown
  obtain ⟨close, rfl, closed⟩ := List.map_eq_singleton_iff.mp shown
  exact ⟨word, opening, key, close, rfl, spelt, opened, named, closed⟩

theorem parsed_field (name : String) : Parsed (.expr .primary (.field name)) (lookupTokens name) := by
  refine parsed_of_operand nofun fun ls rest fuel shown _ enough => ?_
  obtain ⟨word, opening, key, close, rfl, spelt, opened, named, closed⟩ := lookupTokens_eq shown
  simp only [List.cons_append, List.nil_append, List.length_cons] at enough ⊢
  obtain ⟨fuel, rfl⟩ := Nat.exists_eq_add_one.mpr (show 0 < fuel by omega)
  rw [operand]
  simp [peek, spelt, constant?, fieldName_cons opened named closed, bind, Except.bind, pure, Except.pure]

/-- What stands between a pair of brackets is an operand. -/
theorem parsed_bracketed {o c : Punct}
    (read : ∀ opening ls close rest fuel, opening.token = .punct o → tokens ls = ts → close.token = .punct c →
      3 * (ls ++ close :: rest).length + 2 ≤ fuel →
      operand (fuel + 1) (opening :: (ls ++ close :: rest)) = .ok (e, rest)) :
    Parsed (.expr .primary e) (.punct o :: (ts ++ [.punct c])) := by
  refine parsed_of_operand nofun fun ls rest fuel shown _ enough => ?_
  obtain ⟨opening, tail, rfl, opened, shown⟩ := List.map_eq_cons_iff.mp shown
  obtain ⟨ls, tail, rfl, shownInside, shown⟩ := List.map_eq_append_iff.mp shown
  obtain ⟨close, rfl, closed⟩ := List.map_eq_singleton_iff.mp shown
  simp only [List.append_assoc, List.cons_append, List.nil_append] at enough ⊢
  rw [List.length_cons] at enough
  obtain ⟨fuel, rfl⟩ := Nat.exists_eq_add_one.mpr (show 0 < fuel by omega)
  exact read opening ls close rest fuel opened shownInside closed (by omega)

theorem Parsed.group (inside : Parsed (.expr .conditional e) ts) :
    Parsed (.expr .primary e) (.punct .openParen :: (ts ++ [.punct .closeParen])) := by
  refine parsed_bracketed fun opening ls close rest fuel opened shown closed enough => ?_
  have read : expression fuel 0 (ls ++ close :: rest) = .ok (e, close :: rest) :=
    inside.inside shown (by rw [closed]; rfl) (by omega)
  rw [operand]
  simp [peek, opened, read, expect_cons closed, bind, Except.bind, pure, Except.pure]

theorem Parsed.array {es : List Expr} (inside : Parsed (.items es) ts) :
    Parsed (.expr .primary (.array es)) (.punct .openBracket :: (ts ++ [.punct .closeBracket])) := by
  refine parsed_bracketed fun opening ls close rest fuel opened shown closed enough => ?_
  rw [operand]
  simp [peek, opened, inside ls close rest fuel shown closed enough, bind, Except.bind, pure, Except.pure]

theorem Parsed.object {es : List (String × Expr)} (inside : Parsed (.entries es) ts) :
    Parsed (.expr .primary (.object es)) (.punct .openBrace :: (ts ++ [.punct .closeBrace])) := by
  refine parsed_bracketed fun opening ls close rest fuel opened shown closed enough => ?_
  rw [operand]
  simp [peek, opened, inside ls close rest fuel shown closed enough, bind, Except.bind, pure, Except.pure]

theorem eat?_of_starts {p : Punct} {ls rest : List Lexeme} (shown : tokens ls = ts)
    (starts : ∃ t more, ts = t :: more ∧ t ≠ .punct p) : eat? p (ls ++ rest) = none := by
  obtain ⟨t, more, rfl, other⟩ := starts
  obtain ⟨l, ls, rfl, front, -⟩ := List.map_eq_cons_iff.mp shown
  exact eat?_cons_of_ne (front ▸ other)

theorem parsed_noItems : Parsed (.items []) [] := by
  intro ls close rest fuel shown closed enough
  obtain rfl := List.map_eq_nil_iff.mp shown
  obtain ⟨fuel, rfl⟩ := Nat.exists_eq_add_one.mpr (show 0 < fuel by omega)
  rw [items, List.nil_append, eat?_cons closed]

theorem Parsed.lastItem (derived : Derives (.expr s e) ts) (parsed : Parsed (.expr .conditional e) ts) :
    Parsed (.items [e]) ts := by
  intro ls close rest fuel shown closed enough
  obtain ⟨t, more, start, other, -⟩ := derived.starts
  obtain ⟨fuel, rfl⟩ := Nat.exists_eq_add_one.mpr (show 0 < fuel by omega)
  have read : expression fuel 0 (ls ++ close :: rest) = .ok (e, close :: rest) :=
    parsed.inside shown (by rw [closed]; rfl) (by omega)
  have single : eat? .comma (close :: rest) = none := eat?_cons_of_ne (by rw [closed]; nofun)
  rw [items, eat?_of_starts shown ⟨t, more, start, other⟩]
  simp [read, single, expect_cons closed, bind, Except.bind, pure, Except.pure]

theorem Parsed.item {es : List Expr} {a b : List Token} (derived : Derives (.expr s e) a)
    (first : Parsed (.expr .conditional e) a) (others : Parsed (.items es) b) :
    Parsed (.items (e :: es)) (a ++ .punct .comma :: b) := by
  intro ls close rest fuel shown closed enough
  obtain ⟨t, more, start, other, -⟩ := derived.starts
  obtain ⟨la, tail, rfl, shownFirst, shown⟩ := List.map_eq_append_iff.mp shown
  obtain ⟨comma, lb, rfl, parted, shownOthers⟩ := List.map_eq_cons_iff.mp shown
  simp only [List.append_assoc, List.cons_append] at enough ⊢
  obtain ⟨fuel, rfl⟩ := Nat.exists_eq_add_one.mpr (show 0 < fuel by omega)
  have read : expression fuel 0 (la ++ comma :: (lb ++ close :: rest)) = .ok (e, comma :: (lb ++ close :: rest)) :=
    first.inside shownFirst (by rw [parted]; rfl) (by omega)
  have readOthers : items fuel (lb ++ close :: rest) = .ok (es, rest) := by
    refine others lb close rest fuel shownOthers closed ?_
    simp only [List.length_append, List.length_cons] at enough ⊢
    omega
  rw [items, eat?_of_starts shownFirst ⟨t, more, start, other⟩]
  simp [read, eat?_cons parted, readOthers, bind, Except.bind, pure, Except.pure]

theorem Key.starts {key : String} {k : List Token} (name : Key key k) :
    ∃ t more, k = t :: more ∧ t ≠ .punct .closeBrace := by
  cases name <;> exact ⟨_, _, rfl, nofun⟩

theorem Key.read {key : String} {k : List Token} (name : Key key k) {ls rest : List Lexeme} (shown : tokens ls = k) :
    entryKey (ls ++ rest) = .ok (key, rest) := by
  cases name with
  | text s | number x =>
    obtain ⟨l, rfl, spelt⟩ := List.map_eq_singleton_iff.mp shown
    simp [entryKey, peek, spelt]
  | word w other =>
    obtain ⟨l, rfl, spelt⟩ := List.map_eq_singleton_iff.mp shown
    simp [entryKey, peek, spelt, other]
  | field name =>
    obtain ⟨word, opening, l, close, rfl, spelt, opened, named, closed⟩ := lookupTokens_eq shown
    simp [entryKey, peek, spelt, fieldName_cons opened named closed]

theorem parsed_noEntries : Parsed (.entries []) [] := by
  intro ls close rest fuel shown closed enough
  obtain rfl := List.map_eq_nil_iff.mp shown
  obtain ⟨fuel, rfl⟩ := Nat.exists_eq_add_one.mpr (show 0 < fuel by omega)
  rw [entries, List.nil_append, eat?_cons closed]

theorem Parsed.lastEntry {key : String} {k : List Token} (name : Key key k) (value : Parsed (.expr .conditional e) ts) :
    Parsed (.entries [(key, e)]) (k ++ .punct .colon :: ts) := by
  intro ls close rest fuel shown closed enough
  obtain ⟨lk, tail, rfl, shownKey, shown⟩ := List.map_eq_append_iff.mp shown
  obtain ⟨colon, ls, rfl, parted, shownValue⟩ := List.map_eq_cons_iff.mp shown
  simp only [List.append_assoc, List.cons_append] at enough ⊢
  obtain ⟨fuel, rfl⟩ := Nat.exists_eq_add_one.mpr (show 0 < fuel by omega)
  have read : expression fuel 0 (ls ++ close :: rest) = .ok (e, close :: rest) := by
    refine value.inside shownValue (by rw [closed]; rfl) ?_
    simp only [List.length_append, List.length_cons] at enough ⊢
    omega
  have single : eat? .comma (close :: rest) = none := eat?_cons_of_ne (by rw [closed]; nofun)
  rw [entries, eat?_of_starts shownKey name.starts]
  simp [name.read shownKey, expect_cons parted, read, single, expect_cons closed, bind, Except.bind, pure, Except.pure]

theorem Parsed.entry {key : String} {es : List (String × Expr)} {k a b : List Token} (name : Key key k)
    (value : Parsed (.expr .conditional e) a) (others : Parsed (.entries es) b) :
    Parsed (.entries ((key, e) :: es)) (k ++ .punct .colon :: (a ++ .punct .comma :: b)) := by
  intro ls close rest fuel shown closed enough
  obtain ⟨lk, tail, rfl, shownKey, shown⟩ := List.map_eq_append_iff.mp shown
  obtain ⟨colon, tail, rfl, parted, shown⟩ := List.map_eq_cons_iff.mp shown
  obtain ⟨la, tail, rfl, shownValue, shown⟩ := List.map_eq_append_iff.mp shown
  obtain ⟨comma, lb, rfl, continued, shownOthers⟩ := List.map_eq_cons_iff.mp shown
  simp only [List.append_assoc, List.cons_append] at enough ⊢
  obtain ⟨fuel, rfl⟩ := Nat.exists_eq_add_one.mpr (show 0 < fuel by omega)
  simp only [List.length_append, List.length_cons] at enough
  have read : expression fuel 0 (la ++ comma :: (lb ++ close :: rest)) = .ok (e, comma :: (lb ++ close :: rest)) := by
    refine value.inside shownValue (by rw [continued]; rfl) ?_
    simp only [List.length_append, List.length_cons]
    omega
  have readOthers : entries fuel (lb ++ close :: rest) = .ok (es, rest) := by
    refine others lb close rest fuel shownOthers closed ?_
    simp only [List.length_append, List.length_cons]
    omega
  rw [entries, eat?_of_starts shownKey name.starts]
  simp [name.read shownKey, expect_cons parted, read, eat?_cons continued, readOthers, bind, Except.bind, pure,
    Except.pure]

theorem Derives.parsed {phrase : Phrase} {ts : List Token} (derived : Derives phrase ts) : Parsed phrase ts := by
  induction derived with
  | tighter _ ih => exact ih.tighter
  | conditional _ _ _ first second third => exact first.conditional second third
  | binary op _ _ first second => exact first.binary second
  | unary op _ ih => exact ih.unary op
  | member name _ ih => exact ih.member name
  | index _ _ first second => exact first.index second
  | number x => exact parsed_single fun l rest fuel spelt => by simp [operand, peek, spelt]
  | text s => exact parsed_single fun l rest fuel spelt => by simp [operand, peek, spelt]
  | constant listed =>
    exact parsed_single fun l rest fuel spelt => by simp [operand, peek, spelt, constant?_eq_some.mpr listed]
  | field name => exact parsed_field name
  | group _ ih => exact ih.group
  | array _ ih => exact ih.array
  | object _ ih => exact ih.object
  | noItems => exact parsed_noItems
  | lastItem item ih => exact .lastItem item ih
  | item item _ first second => exact .item item first second
  | noEntries => exact parsed_noEntries
  | lastEntry name _ ih => exact .lastEntry name ih
  | entry name _ _ first second => exact .entry name first second

end parsed

/-! ### The parser and the grammar -/

theorem Key.plain {key : String} {k : List Token} (name : Key key k) : Token.eof ∉ k := by
  cases name <;> simp [lookupTokens]

theorem Derives.plain {phrase : Phrase} {ts : List Token} (derived : Derives phrase ts) : Token.eof ∉ ts := by
  induction derived with
  | unary op _ ih => cases op <;> simp [Token.of, ih]
  | lastEntry name _ ih => simp [name.plain, ih]
  | entry name _ _ first second => simp [name.plain, first, second]
  | _ => simp_all [lookupTokens]

/-- Tokens up to the end, if the end stands neither among them nor among those before the last one. -/
theorem eq_of_ended {xs ts : List Token} {rest : List Lexeme} (within : Token.eof ∉ xs) (plain : Token.eof ∉ ts)
    (shown : xs ++ [.eof] = ts ++ tokens rest) (front : peek rest = .eof) : ts = xs := by
  cases rest with
  | nil =>
    rw [tokens, List.map_nil, List.append_nil] at shown
    exact absurd (shown ▸ List.mem_append_right _ List.mem_cons_self) plain
  | cons l rest =>
    rcases List.append_eq_append_iff.mp shown with ⟨extra, rfl, tail⟩ | ⟨extra, rfl, tail⟩
    · cases extra with
      | nil => rw [List.append_nil]
      | cons t extra => simp at tail
    · cases extra with
      | nil => rw [List.append_nil]
      | cons t extra =>
        have last : l.token = t := (List.cons.inj tail).1
        have front : l.token = .eof := front
        exact absurd (List.mem_append_right _ (last ▸ front ▸ List.mem_cons_self)) within

section whole

variable {ls : List Lexeme} {close : Lexeme} {e : Expr}

theorem Derives.ofLexemes (derived : Derives (.expr .conditional e) (tokens ls)) (ended : close.token = .eof) :
    ofLexemes (ls ++ [close]) = .ok e := by
  have idle : pull (peek [close]) = 0 := by rw [peek, ended]; rfl
  have read : expression (sufficientFuel (ls ++ [close])) 0 (ls ++ [close]) = .ok (e, [close]) :=
    derived.parsed.inside rfl idle (by rw [sufficientFuel]; omega)
  have started : peek (ls ++ [close]) ≠ .eof := by
    obtain ⟨t, more, start, -, other⟩ := derived.starts
    obtain ⟨l, ls, rfl, rfl, -⟩ := List.map_eq_cons_iff.mp start
    exact other
  unfold Expr.ofLexemes
  split
  · next front => exact absurd front started
  · simp [read, peek, ended, bind, Except.bind, pure, Except.pure]

theorem derives_of_ofLexemes (plain : ∀ l ∈ ls, l.token ≠ .eof) (ended : close.token = .eof)
    (read : ofLexemes (ls ++ [close]) = .ok e) : Derives (.expr .conditional e) (tokens ls) := by
  unfold Expr.ofLexemes at read
  split at read
  · cases read
  · obtain ⟨⟨e', rest⟩, first, read⟩ := bind_eq_ok.mp read
    dsimp only at read
    split at read
    · next front =>
      cases read
      obtain ⟨ts, taken, derived⟩ := (expression_sound asked_zero _ first).loosen Stratum.conditional_le
      have within : Token.eof ∉ tokens ls := by
        simpa using plain
      have shown : tokens ls ++ [.eof] = ts ++ tokens rest := by
        rw [← taken, tokens, tokens, List.map_append, List.map_singleton, ended]
      exact eq_of_ended within derived.plain shown front ▸ derived
    · cases read

end whole

/-- The parser accepts exactly the grammar: lexemes before the end are read as a tree exactly if their tokens
    derive it, and tokens derive at most one tree. -/
theorem ofLexemes_iff_derives :
    (∀ (ls : List Lexeme) (close : Lexeme) (e : Expr), (∀ l ∈ ls, l.token ≠ .eof) → close.token = .eof →
      (ofLexemes (ls ++ [close]) = .ok e ↔ Derives (.expr .conditional e) (tokens ls))) ∧
    ∀ (ts : List Token) (e e' : Expr), Derives (.expr .conditional e) ts → Derives (.expr .conditional e') ts →
      e = e' := by
  constructor
  · intro ls close e plain ended
    constructor
    · exact derives_of_ofLexemes plain ended
    · exact fun derived => derived.ofLexemes ended
  · intro ts e e' derived derived'
    have read (e : Expr) (derived : Derives (.expr .conditional e) ts) :
        ofLexemes (ts.map (⟨·, 0, 0⟩) ++ [⟨.eof, 0, 0⟩]) = .ok e :=
      Derives.ofLexemes ((tokens_map ts).symm ▸ derived) rfl
    exact Except.ok.inj ((read e derived).symm.trans (read e' derived'))

/-- The lexemes of `-1 - 2 - 3 * true ? [null,] : context['a'].b ? 'c' : {}`, places apart. -/
def mixedLexemes : List Lexeme :=
  [.punct .minus, .number 1, .punct .minus, .number 2, .punct .minus, .number 3, .punct .star, .word "true",
    .punct .question, .punct .openBracket, .word "null", .punct .comma, .punct .closeBracket, .punct .colon,
    .word "context", .punct .openBracket, .text "a", .punct .closeBracket, .punct .dot, .word "b",
    .punct .question, .text "c", .punct .colon, .punct .openBrace, .punct .closeBrace].map (⟨·, 0, 0⟩)

/-- The tree of `mixedLexemes`: differences group to the left, alternatives to the right. -/
def mixedTree : Expr :=
  .conditional
    (.binary .sub (.binary .sub (.unary .neg (.literal (.number 1))) (.literal (.number 2)))
      (.binary .mul (.literal (.number 3)) (.literal (.bool true))))
    (.array [.literal .null])
    (.conditional (.member (.field "a") "b") (.literal (.string "c")) (.object []))

theorem mixed_ofLexemes : (∀ l ∈ mixedLexemes, l.token ≠ .eof) ∧
    ofLexemes (mixedLexemes ++ [⟨.eof, 0, 0⟩]) = .ok mixedTree := by
  have plain : ∀ l ∈ mixedLexemes, l.token ≠ .eof := by
    simp [mixedLexemes]
  have number (s : Stratum) (x : Float) : Derives (.expr s (.literal (.number x))) [.number x] :=
    (Derives.number x).loosen (by cases s <;> decide)
  have negative : Derives (.expr .sum (.unary .neg (.literal (.number 1)))) [.punct .minus, .number 1] :=
    (Derives.unary .neg (number .unary 1)).loosen (by decide)
  have constant (s : Stratum) {w : String} {v : Value} (listed : (w, v) ∈ constants) :
      Derives (.expr s (.literal v)) [.word w] :=
    (Derives.constant listed).loosen (by cases s <;> decide)
  have product := Derives.binary .mul (number .product 3) (constant .unary (.head _))
  have test := (Derives.binary .sub (.binary .sub negative (number .product 2)) product).loosen
    (t := .or) (by decide)
  have listed : ("null", Value.null) ∈ constants := by simp [constants]
  have array := (Derives.array (.item (constant .conditional listed) .noItems)).loosen (t := .conditional) (by decide)
  have member := (Derives.member "b" (.tighter (.field "a"))).loosen (t := .or) (by decide)
  have text := (Derives.text "c").loosen (t := .conditional) (by decide)
  have object := (Derives.object .noEntries).loosen (t := .conditional) (by decide)
  exact ⟨plain, (ofLexemes_iff_derives.1 mixedLexemes ⟨.eof, 0, 0⟩ mixedTree plain rfl).mpr
    (.conditional test array (.conditional member text object))⟩

end Stencil.Expr
