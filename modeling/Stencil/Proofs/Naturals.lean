import Mathlib
import Stencil.Number.Format
import Stencil.Number.Read

/-!
The texts of the natural numbers among the doubles. A natural number has a decimal of seventeen digits nearer than the
next double, so the search for the shortest one succeeds and places the point right behind the digits, or one further.
Hence below `10 ^ 20` no exponent is written: the text is the row of digits, and it reads back as the number.
-/
namespace Stencil.Number

/-! ### Digits -/

theorem isDigit_of_mem_toDigits {n : Nat} {c : Char} (member : c ∈ Nat.toDigits 10 n) : isDigit c = true := by
  have digit := Nat.isDigit_of_mem_toDigits (by decide) (by decide) member
  simpa [isDigit, Char.isDigit, Char.le_def] using digit

theorem ofDigits_concat (cs : List Char) (c : Char) : ofDigits (cs ++ [c]) = 10 * ofDigits cs + (c.toNat - 48) := by
  simp [ofDigits, List.foldl_append]

theorem ofDigits_toDigits (n : Nat) : ofDigits (Nat.toDigits 10 n) = n := by
  induction n using Nat.strongRecOn with
  | ind n ih =>
    have lone (d : Nat) (small : d < 10) : d.digitChar.toNat - 48 = d := by
      rw [Nat.toNat_digitChar_of_lt_ten small]
      omega
    by_cases small : n < 10
    · rw [Nat.toDigits_of_lt_base small]
      simpa [ofDigits] using lone n small
    · rw [Nat.toDigits_of_base_le (by decide) (by omega), ofDigits_concat, ih (n / 10) (by omega),
        lone (n % 10) (by omega)]
      omega

theorem readNat?_unsigned {cs : List Char} (unsigned : cs.head? ≠ some '+') :
    readNat? cs = if cs ≠ [] ∧ cs.all isDigit = true then some (ofDigits cs) else none := by
  cases cs with
  | nil => rfl
  | cons c rest =>
    have plain : c ≠ '+' := by simpa using unsigned
    simp [readNat?, plain]

theorem readNat?_toDigits (n : Nat) : readNat? (Nat.toDigits 10 n) = some n := by
  have unsigned : (Nat.toDigits 10 n).head? ≠ some '+' := by
    intro first
    have digit := isDigit_of_mem_toDigits (List.mem_of_head? first)
    revert digit
    decide
  have digits : (Nat.toDigits 10 n).all isDigit = true :=
    List.all_eq_true.mpr fun c member => isDigit_of_mem_toDigits member
  rw [readNat?_unsigned unsigned, if_pos ⟨Nat.toDigits_ne_nil, digits⟩, ofDigits_toDigits]

/-- A character that is neither a digit nor a plus sign does not occur in a natural number. -/
theorem readNat?_eq_none {cs : List Char} {c : Char} (member : c ∈ cs) (sign : c ≠ '+') (other : isDigit c = false) :
    readNat? cs = none := by
  have refused : ∀ digits : List Char, c ∈ digits → ¬ (digits ≠ [] ∧ digits.all isDigit = true) := by
    rintro digits among ⟨-, all⟩
    simp [List.all_eq_true.mp all c among] at other
  by_cases signed : cs.head? = some '+'
  · obtain ⟨rest, rfl⟩ := List.head?_eq_some_iff.mp signed
    rcases List.mem_cons.mp member with same | among
    · exact absurd same sign
    · exact if_neg (refused rest among)
  · rw [readNat?_unsigned signed]
    exact if_neg (refused cs member)

/-! ### Lengths -/

theorem lt_pow_length (n : Nat) : n < 10 ^ (Nat.toDigits 10 n).length :=
  (Nat.length_toDigits_le_iff (by decide) Nat.length_toDigits_pos).mp (Nat.le_refl _)

theorem succ_le_length {n k : Nat} (large : 10 ^ k ≤ n) : k + 1 ≤ (Nat.toDigits 10 n).length := by
  by_cases none : k = 0
  · rw [none]
    exact Nat.length_toDigits_pos
  · have longer : ¬ (Nat.toDigits 10 n).length ≤ k := by
      rw [Nat.length_toDigits_le_iff (by decide) (by omega)]
      omega
    omega

theorem pow_le_of_length {n k : Nat} (positive : 0 < n) (length : (Nat.toDigits 10 n).length = k + 1) :
    10 ^ k ≤ n := by
  by_cases none : k = 0
  · rw [none]
    exact positive
  · have longer : ¬ (Nat.toDigits 10 n).length ≤ k := by omega
    rw [Nat.length_toDigits_le_iff (by decide) (by omega)] at longer
    omega

/-- Zeros at the end of the significand do not move the point. -/
theorem Decimal.point_normalize (d : Decimal) : d.normalize.point = d.point := by
  fun_induction Decimal.normalize d with
  | case1 d divisible ih =>
    have shorter : Nat.toDigits 10 d.significand = Nat.toDigits 10 (d.significand / 10) ++ [_] :=
      Nat.toDigits_of_base_le (by decide) (by omega)
    rw [ih]
    simp only [Decimal.point, Decimal.digits, shorter, List.length_append, List.length_singleton]
    omega
  | case2 d other => rfl

/-! ### Decimal grids -/

/-- The value in units of the grid, over the denominator `step`. -/
def Rounding.scaled (r : Rounding) (unit : Int) : Nat :=
  r.value * 10 ^ (-unit).toNat

/-- One unit of the grid. -/
def Rounding.step (r : Rounding) (unit : Int) : Nat :=
  r.denominator * 10 ^ unit.toNat

/-- A grid offers the neighbours of the value and no other point. -/
theorem Rounding.onGrid_cases {r : Rounding} {unit : Int} {d : Decimal} (found : r.onGrid unit = some d) :
    d.exponent = unit ∧ r.scaled unit / r.step unit ≤ d.significand ∧
      d.significand ≤ r.scaled unit / r.step unit + 1 := by
  unfold Rounding.onGrid at found
  extract_lets up step floor rest ceiling floorFits ceilingFits at found
  have neighbours : floor ≤ ceiling ∧ ceiling ≤ floor + 1 := by
    dsimp only [ceiling]
    split <;> omega
  split at found
  · cases found
    exact ⟨rfl, Nat.le_refl _, Nat.le_succ _⟩
  · split at found
    · cases found
      exact ⟨rfl, neighbours⟩
    · cases found

/-- A grid whose step is shorter than the interval on each side of the value has a point in it. -/
theorem Rounding.onGrid_isSome {r : Rounding} {unit : Int} (positive : 0 < r.step unit)
    (below : r.step unit + 2 * (r.low * 10 ^ (-unit).toNat) < 2 * r.scaled unit)
    (above : r.step unit + 2 * r.scaled unit < 2 * (r.high * 10 ^ (-unit).toNat)) : (r.onGrid unit).isSome := by
  unfold Rounding.onGrid
  extract_lets up step floor rest ceiling floorFits ceilingFits
  change step + 2 * (r.low * up) < 2 * r.scaled unit at below
  change step + 2 * r.scaled unit < 2 * (r.high * up) at above
  change 0 < step at positive
  have divided : floor * step + rest = r.scaled unit := Nat.div_add_mod' _ _
  by_cases near : 2 * rest < step
  · have inside : r.low * up < floor * step := by omega
    have fits : floorFits = true := by
      cases ends : r.closed
      · simpa [floorFits, ends] using inside
      · simpa [floorFits, ends] using Nat.le_of_lt inside
    simp [fits, near]
  · have next : ceiling * step = floor * step + step := by
      have inexact : rest ≠ 0 := by omega
      simp only [ceiling, inexact, if_false, Nat.succ_mul]
    have inside : ceiling * step < r.high * up := by omega
    have fits : ceilingFits = true := by
      cases ends : r.closed
      · simpa [ceilingFits, ends] using inside
      · simpa [ceilingFits, ends] using Nat.le_of_lt inside
    split <;> simp [fits]

section natural

variable {r : Rounding} {i : Nat} (whole : r.value = i * r.denominator) (denominator : 0 < r.denominator)
  (positive : 0 < i)

include whole denominator positive

theorem Rounding.magnitude_eq : r.magnitude = (Nat.toDigits 10 i).length := by
  have least : r.denominator ≤ i * r.denominator := Nat.le_mul_of_pos_left _ positive
  simp [Rounding.magnitude, digitCount, whole, least, Nat.mul_div_cancel _ denominator, Nat.ne_of_gt positive]

/-- On the grid chosen for `n + 1` digits, so many stand before the point of a natural number. -/
theorem Rounding.scaled_bounds {unit : Int} (n : Nat) (digits : unit = (Nat.toDigits 10 i).length - (n + 1)) :
    10 ^ n * r.step unit ≤ r.scaled unit ∧ r.scaled unit < 10 ^ (n + 1) * r.step unit := by
  obtain ⟨k, length⟩ : ∃ k, (Nat.toDigits 10 i).length = k + 1 :=
    Nat.exists_eq_add_one_of_ne_zero (Nat.ne_of_gt Nat.length_toDigits_pos)
  have large : 10 ^ k ≤ i := pow_le_of_length positive length
  have small : i < 10 ^ (k + 1) := length ▸ lt_pow_length i
  have powers : ∀ more, 10 ^ (n + more) * 10 ^ unit.toNat = 10 ^ (k + more) * 10 ^ (-unit).toNat := by
    intro more
    rw [← Nat.pow_add, ← Nat.pow_add]
    congr 1
    omega
  have scaled : r.scaled unit = r.denominator * (i * 10 ^ (-unit).toNat) := by
    rw [Rounding.scaled, whole]
    ac_rfl
  constructor
  · calc 10 ^ n * r.step unit = r.denominator * (10 ^ k * 10 ^ (-unit).toNat) := by
          rw [← Nat.add_zero k, ← powers, Rounding.step]
          ac_rfl
      _ ≤ r.denominator * (i * 10 ^ (-unit).toNat) :=
        Nat.mul_le_mul_left _ (Nat.mul_le_mul_right _ large)
      _ = r.scaled unit := scaled.symm
  · calc r.scaled unit = r.denominator * (i * 10 ^ (-unit).toNat) := scaled
      _ < r.denominator * (10 ^ (k + 1) * 10 ^ (-unit).toNat) :=
        Nat.mul_lt_mul_of_pos_left (Nat.mul_lt_mul_of_pos_right small (Nat.pow_pos (by decide))) denominator
      _ = 10 ^ (n + 1) * r.step unit := by
          rw [← powers, Rounding.step]
          ac_rfl

/-- Rounding to a grid may carry into one more digit, as from 96 to 100. -/
theorem Rounding.onGrid_point {n : Nat} {d : Decimal} (found : r.onGrid (r.magnitude - (n + 1)) = some d) :
    (Nat.toDigits 10 i).length ≤ d.point ∧ d.point ≤ (Nat.toDigits 10 i).length + 1 := by
  rw [Rounding.magnitude_eq whole denominator positive] at found
  obtain ⟨exponent, floor_le, le_ceiling⟩ := Rounding.onGrid_cases found
  obtain ⟨least, most⟩ := Rounding.scaled_bounds whole denominator positive n rfl
  have step_pos : 0 < r.step ((Nat.toDigits 10 i).length - (n + 1)) :=
    Nat.mul_pos denominator (Nat.pow_pos (by decide))
  have low : 10 ^ n ≤ d.significand := Nat.le_trans ((Nat.le_div_iff_mul_le step_pos).mpr least) floor_le
  have high : d.significand < 10 ^ (n + 2) := by
    have below := (Nat.div_lt_iff_lt_mul step_pos).mpr most
    have unit_pos : 0 < 10 ^ n := Nat.pow_pos (by decide)
    have grows : 10 ^ (n + 2) = 10 * 10 ^ (n + 1) := Nat.pow_succ'
    omega
  have longer := succ_le_length low
  have shorter := (Nat.length_toDigits_le_iff (k := n + 2) (by decide) (by omega)).mpr high
  simp only [Decimal.point, Decimal.digits, exponent]
  omega

end natural

/-! ### Doubles that denote natural numbers -/

theorem Binary.rounding_denominator_pos (b : Binary) : 0 < b.rounding.denominator :=
  Nat.pow_pos (by decide)

/-- The fraction that stands for an integral double is the integer. -/
theorem Binary.rounding_value {b : Binary} (integral : b.isIntegral = true) :
    b.rounding.value = b.truncate * b.rounding.denominator := by
  have divides : 2 ^ (-b.exponent).toNat ∣ b.mantissa * 2 ^ b.exponent.toNat := by
    simp only [Binary.isIntegral, Bool.or_eq_true, decide_eq_true_eq, beq_iff_eq, Nat.pow_eq] at integral
    rcases integral with large | multiple
    · rw [show (-b.exponent).toNat = 0 by omega]
      exact Nat.one_dvd _
    · exact Nat.dvd_mul_right_of_dvd (Nat.dvd_of_mod_eq_zero multiple) _
  apply Nat.eq_of_mul_eq_mul_right (Nat.pow_pos (n := (-b.exponent).toNat) (Nat.zero_lt_two))
  calc b.rounding.value * 2 ^ (-b.exponent).toNat
      = b.mantissa * (4 * 2 ^ (b.exponent - 2).toNat * 2 ^ (-b.exponent).toNat) := by
        simp only [Binary.rounding, Nat.pow_eq]
        ac_rfl
    _ = b.mantissa * (2 ^ 2 * 2 ^ (b.exponent - 2).toNat * 2 ^ (-b.exponent).toNat) := rfl
    _ = b.mantissa * (2 ^ b.exponent.toNat * 2 ^ (2 - b.exponent).toNat) := by
        simp only [← Nat.pow_add]
        congr 2
        omega
    _ = b.truncate * 2 ^ (-b.exponent).toNat * 2 ^ (2 - b.exponent).toNat := by
        rw [Binary.truncate, Nat.pow_eq, Nat.pow_eq, Nat.div_mul_cancel divides, Nat.mul_assoc]
    _ = b.truncate * b.rounding.denominator * 2 ^ (-b.exponent).toNat := by
        simp only [Binary.rounding, Nat.pow_eq]
        ac_rfl

/-- A double has at most 53 significant bits. -/
theorem Binary.mantissa_lt {x : Float} {b : Binary} (exact : Binary.ofFloat? x = some b) : b.mantissa < 2 ^ 53 := by
  unfold Binary.ofFloat? at exact
  extract_lets bits negative exponent fraction at exact
  have below : fraction < 2 ^ 52 := Nat.mod_lt _ (by decide)
  split at exact
  · cases exact
  · split at exact <;> cases exact <;> simp only [Nat.pow_eq] <;> omega

/-- A grid on which the value has seventeen digits is finer than the distance between neighbouring doubles. -/
theorem Binary.onGrid_isSome {b : Binary} {unit : Int} (bits : b.mantissa < 2 ^ 53) (nonzero : 0 < b.mantissa)
    (digits : 10 ^ 16 * b.rounding.step unit ≤ b.rounding.scaled unit) : (b.rounding.onGrid unit).isSome := by
  -- a quarter of the distance to the next double, in units of the grid
  obtain ⟨quarter, quarter_eq⟩ : ∃ quarter, quarter = 2 ^ (b.exponent - 2).toNat * 10 ^ (-unit).toNat :=
    ⟨_, rfl⟩
  have quarter_pos : 0 < quarter := by
    rw [quarter_eq]
    exact Nat.mul_pos (Nat.pow_pos (by decide)) (Nat.pow_pos (by decide))
  have value : b.rounding.scaled unit = 4 * (b.mantissa * quarter) := by
    simp only [Rounding.scaled, Binary.rounding, Nat.pow_eq, Nat.mul_assoc, ← quarter_eq]
  have high : b.rounding.high * 10 ^ (-unit).toNat = 4 * (b.mantissa * quarter) + 2 * quarter := by
    simp only [Binary.rounding, Nat.pow_eq, Nat.mul_assoc, ← quarter_eq, Nat.add_mul]
  have bounded : b.mantissa * quarter ≤ (2 ^ 53 - 1) * quarter := Nat.mul_le_mul_right _ (by omega)
  have low : b.rounding.low * 10 ^ (-unit).toNat = 4 * (b.mantissa * quarter) - 2 * quarter ∨
      b.mantissa = 2 ^ 52 ∧ b.rounding.low * 10 ^ (-unit).toNat = 4 * (b.mantissa * quarter) - quarter := by
    simp only [Binary.rounding, Nat.pow_eq, Nat.mul_assoc, ← quarter_eq, Nat.sub_mul]
    split
    · next power => exact .inr ⟨power.1, by rw [Nat.one_mul]⟩
    · exact .inl rfl
  have least : quarter ≤ b.mantissa * quarter := Nat.le_mul_of_pos_left _ nonzero
  refine Rounding.onGrid_isSome (Nat.mul_pos b.rounding_denominator_pos (Nat.pow_pos (by decide))) ?_ ?_
  · rcases low with low | ⟨power, low⟩
    · rw [low]
      omega
    · rw [power] at value low
      rw [low]
      omega
  · rw [high]
    omega

/-- The point of the shortest decimal of a natural number stands after the last digit, or one place further where the
    digits are rounded up to a power of ten. -/
theorem Binary.shortest_point {b : Binary} (integral : b.isIntegral = true) (positive : 0 < b.truncate)
    (bits : b.mantissa < 2 ^ 53) :
    (Nat.toDigits 10 b.truncate).length ≤ b.shortest.point ∧
      b.shortest.point ≤ (Nat.toDigits 10 b.truncate).length + 1 := by
  have whole := Binary.rounding_value integral
  have denominator := b.rounding_denominator_pos
  have nonzero : 0 < b.mantissa := by
    apply Nat.pos_of_ne_zero
    intro zero
    simp [Binary.truncate, zero] at positive
  have digits := (Rounding.scaled_bounds whole denominator positive 16 rfl).1
  rw [← Rounding.magnitude_eq whole denominator positive] at digits
  have exists_grid : ((List.range 17).findSome? fun n : Nat =>
      b.rounding.onGrid (b.rounding.magnitude - (n + 1))).isSome :=
    List.findSome?_isSome_iff.mpr
      ⟨16, List.mem_range.mpr (by decide), Binary.onGrid_isSome bits nonzero digits⟩
  obtain ⟨d, found⟩ := Option.isSome_iff_exists.mp exists_grid
  obtain ⟨n, -, onGrid⟩ := List.exists_of_findSome?_eq_some found
  have point := Rounding.onGrid_point whole denominator positive onGrid
  rwa [Binary.shortest, found, Decimal.point_normalize]

/-! ### Texts -/

theorem toNat?_eq_some {x : Float} {i : Nat} (denotes : toNat? x = some i) :
    ∃ b, Binary.ofFloat? x = some b ∧ b.isIntegral = true ∧ (b.negative = false ∨ b.mantissa = 0) ∧
      b.truncate = i := by
  unfold toNat? at denotes
  split at denotes
  · next b exact =>
    split at denotes
    · next natural =>
      simp only [Bool.and_eq_true, Bool.or_eq_true, Bool.not_eq_true', beq_iff_eq] at natural
      exact ⟨b, exact, natural.1, natural.2, Option.some.inj denotes⟩
    · cases denotes
  · cases denotes

theorem Decimal.scientific_eq (d : Decimal) :
    ∃ front sign back, d.scientific = front ++ 'e' :: sign :: back ∧ (sign = '-' ∨ sign = '+') :=
  ⟨_, _, _, rfl, by split <;> simp⟩

/-- The text of a double that denotes a natural number holds the digits of the number, or an exponent. -/
theorem text_cases {x : Float} {i : Nat} (denotes : toNat? x = some i) :
    text x = String.ofList (Nat.toDigits 10 i) ∨
      10 ^ 20 ≤ i ∧ ∃ d : Decimal, text x = String.ofList d.scientific := by
  obtain ⟨b, exact, integral, sign, rfl⟩ := toNat?_eq_some denotes
  by_cases zero : b.mantissa = 0
  · left
    simp [text, exact, zero, Binary.truncate]
  have nonnegative : b.negative = false := sign.resolve_right zero
  have positive : 0 < b.truncate := by
    apply Nat.pos_of_ne_zero
    intro nothing
    have value := Binary.rounding_value integral
    rw [nothing, Nat.zero_mul] at value
    have nonzero : 0 < b.rounding.value := Nat.mul_pos (by omega) (Nat.pow_pos (by decide))
    omega
  obtain ⟨least, most⟩ := Binary.shortest_point integral positive (Binary.mantissa_lt exact)
  by_cases large : 22 ≤ b.shortest.point
  · right
    have longer : ¬ (Nat.toDigits 10 b.truncate).length ≤ 20 := by omega
    rw [Nat.length_toDigits_le_iff (by decide) (by decide)] at longer
    refine ⟨by omega, b.shortest, ?_⟩
    simp [text, exact, zero, large, signed, nonnegative]
  · left
    have small : ¬ b.shortest.point ≤ -6 := by omega
    simp [text, exact, zero, large, small, signed, nonnegative, integral]

/-- Read as a key, the text of a double that denotes a natural number below `10 ^ 20` gives the number. -/
theorem readNat?_text {x : Float} {i : Nat} (denotes : toNat? x = some i) :
    readNat? (text x).toList = some i ∨ 10 ^ 20 ≤ i ∧ readNat? (text x).toList = none := by
  rcases text_cases denotes with digits | ⟨large, d, scientific⟩
  · left
    rw [digits, String.toList_ofList, readNat?_toDigits]
  · right
    obtain ⟨front, sign, back, parts, -⟩ := d.scientific_eq
    rw [scientific, String.toList_ofList, parts]
    exact ⟨large, readNat?_eq_none (c := 'e') (by simp) (by decide) (by decide)⟩

/-- No natural number is mistaken for the name of the length: it has no letters, or a sign with them. -/
theorem text_ne_length {x : Float} {i : Nat} (denotes : toNat? x = some i) : text x ≠ "length" := by
  intro same
  rcases text_cases denotes with digits | ⟨-, d, scientific⟩
  · have letter : 'l' ∈ (String.ofList (Nat.toDigits 10 i)).toList := by
      rw [← digits, same]
      decide
    rw [String.toList_ofList] at letter
    cases isDigit_of_mem_toDigits letter
  · obtain ⟨front, sign, back, parts, signs⟩ := d.scientific_eq
    have member : sign ∈ "length".toList := by
      rw [← same, scientific, String.toList_ofList, parts]
      simp
    rcases signs with rfl | rfl
    · exact absurd member (by decide)
    · exact absurd member (by decide)

end Stencil.Number
