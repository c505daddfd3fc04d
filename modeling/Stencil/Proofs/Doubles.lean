import Mathlib
import Stencil.Number.Binary

/-!
The doubles of natural numbers. A natural number below `2 ^ 53` fits into the 53 bits of a mantissa, so none of the
roundings on the way to its double changes it, and the double denotes the number (`toNat?_ofNat`).
-/
namespace Stencil.Number

open Float.Model (UnpackedFloat)
open Float.Model.UnpackedFloat (ExtendedMantissa)

/-! ### Rounding -/

/-- Zeros shifted out leave nothing to round. -/
theorem shiftRight_zeros (m j : Nat) :
    (⟨m * 2 ^ j, false, false⟩ : ExtendedMantissa) >>> j = ⟨m, false, false⟩ := by
  induction j generalizing m with
  | zero => simp [HShiftRight.hShiftRight, Nat.repeat]
  | succ j ih =>
    have earlier := ih (m * 2)
    rw [Nat.mul_assoc, ← Nat.pow_succ'] at earlier
    change ((⟨m * 2 ^ (j + 1), false, false⟩ : ExtendedMantissa) >>> j).shiftRightOne = _
    rw [earlier]
    simp [ExtendedMantissa.shiftRightOne]

section normal

-- a mantissa of exactly 53 bits, and the exponents that the double has room for
variable {m : Nat} {e : Int} (normal : 2 ^ 52 ≤ m ∧ m < 2 ^ 53) (range : -1074 ≤ e ∧ e ≤ 971)

include normal

theorem log2_mul_two_pow (j : Nat) : (m * 2 ^ j).log2 = 52 + j := by
  have nonzero : m * 2 ^ j ≠ 0 := Nat.ne_of_gt (Nat.mul_pos (by omega) (Nat.pow_pos (by decide)))
  rw [Nat.log2_eq_iff nonzero, Nat.pow_add, Nat.add_right_comm, Nat.pow_add]
  exact ⟨Nat.mul_le_mul_right _ normal.1, Nat.mul_lt_mul_of_pos_right normal.2 (Nat.pow_pos (by decide))⟩

include range

theorem shiftToTargetExponent_exact (j : Nat) :
    UnpackedFloat.shiftToTargetExponent .binary64 (m * 2 ^ j) (e - j) .exact = (⟨m, false, false⟩, e) := by
  have target : Float.Model.Format.binary64.targetExponent (Float.Model.totalExponent (m * 2 ^ j) (e - j)) = e := by
    rw [Float.Model.totalExponent, log2_mul_two_pow normal]
    simp only [Float.Model.Format.targetExponent, Float.Model.Format.mantissaBits, Float.Model.Format.minExponent]
    omega
  have shift : (e - (e - j)).toNat = j := by omega
  rw [UnpackedFloat.shiftToTargetExponent, target]
  simp only [UnpackedFloat.shiftToExponent, shift, ExtendedMantissa.ofMantissaAndAccuracy, shiftRight_zeros]
  rw [Int.sub_add_cancel]

/-- What has at most 53 significant bits is not rounded. -/
theorem roundWithAccuracy_exact (s : UnpackedFloat.Sign) (j : Nat) :
    UnpackedFloat.roundWithAccuracy .binary64 s (m * 2 ^ j) (e - j) .exact = .finite s m e (by omega) := by
  have again := shiftToTargetExponent_exact normal range 0
  rw [Nat.pow_zero, Nat.mul_one, Int.natCast_zero, Int.sub_zero] at again
  simp only [UnpackedFloat.roundWithAccuracy, shiftToTargetExponent_exact normal range,
    ExtendedMantissa.roundedMantissa, ExtendedMantissa.accuracy, UnpackedFloat.Accuracy.roundToNearestEven, again]
  rw [dif_neg (by omega)]

/-! ### Bits -/

/-- A positive double has its exponent above its mantissa, which leaves out the first bit. -/
theorem toNat_pack : (UnpackedFloat.pack .binary64 (.finite .positive m e (by omega))).toNat =
    (e + 1075).toNat * 2 ^ 52 + (m - 2 ^ 52) := by
  have bits : m.log2 + 1 = Float.Model.Format.binary64.mantissaBits := by
    have log := log2_mul_two_pow normal 0
    rw [Nat.pow_zero, Nat.mul_one] at log
    simp only [Float.Model.Format.mantissaBits]
    omega
  have biased : (e + (Float.Model.Format.binary64.exponentBias : Int) + (52 : Nat)).toNat = (e + 1075).toNat := by
    simp only [Float.Model.Format.exponentBias]
    omega
  have fraction : m % 2 ^ 52 = m - 2 ^ 52 := by omega
  have exponent : (e + 1075).toNat % 2 ^ 11 = (e + 1075).toNat := Nat.mod_eq_of_lt (by omega)
  simp only [UnpackedFloat.pack]
  rw [biased, if_neg (by omega), if_pos bits]
  simp only [UnpackedFloat.packComponents, UnpackedFloat.Sign.toBitVec, BitVec.toNat_append, BitVec.toNat_ofNat,
    Nat.zero_mod, Nat.zero_shiftLeft, Nat.zero_or, fraction, exponent]
  rw [← Nat.shiftLeft_add_eq_or_of_lt (by omega), Nat.shiftLeft_eq]

theorem unpack_of_toNat {b : BitVec Float.Model.Format.binary64.numBits}
    (bits : b.toNat = (e + 1075).toNat * 2 ^ 52 + (m - 2 ^ 52)) :
    UnpackedFloat.unpack .binary64 b = .finite .positive m e (by omega) := by
  have exponent : (UnpackedFloat.unpackExponent b).toNat = (e + 1075).toNat := by
    simp only [UnpackedFloat.unpackExponent, BitVec.toNat_cast, BitVec.extractLsb_toNat,
      Nat.shiftRight_eq_div_pow, bits]
    omega
  have mantissa : (UnpackedFloat.unpackMantissa b).toNat = m - 2 ^ 52 := by
    simp only [UnpackedFloat.unpackMantissa, BitVec.toNat_cast, BitVec.extractLsb_toNat,
      Nat.shiftRight_eq_div_pow, bits]
    omega
  have sign : UnpackedFloat.unpackSign b = 0#1 := by
    apply BitVec.eq_of_toNat_eq
    change _ = 0
    simp only [UnpackedFloat.unpackSign, BitVec.toNat_cast, BitVec.extractLsb_toNat,
      Nat.shiftRight_eq_div_pow, bits]
    omega
  have finite : UnpackedFloat.unpackExponent b ≠ -1#11 := by
    intro same
    rw [same] at exponent
    have ones : (-1#11).toNat = 2047 := by decide
    omega
  have regular : UnpackedFloat.unpackExponent b ≠ 0#11 := by
    intro same
    rw [same] at exponent
    simp only [BitVec.toNat_ofNat] at exponent
    omega
  have implicit : (1#1 ++ UnpackedFloat.unpackMantissa b).toNat = m := by
    rw [BitVec.toNat_append, ← Nat.shiftLeft_add_eq_or_of_lt (UnpackedFloat.unpackMantissa b).isLt, mantissa]
    simp only [BitVec.toNat_ofNat, Nat.shiftLeft_eq]
    omega
  simp only [UnpackedFloat.unpack]
  rw [if_neg finite, if_neg regular]
  simp only [UnpackedFloat.finite.injEq, sign, implicit, exponent]
  refine ⟨rfl, trivial, ?_⟩
  simp only [Float.Model.Format.exponentBias]
  omega

theorem unpack_pack : (Float.Model.pack (.finite .positive m e (by omega))).unpack =
    .finite .positive m e (by omega) :=
  unpack_of_toNat normal range (toNat_pack normal range)

end normal

/-! ### Natural numbers -/

section natural

-- the shift that gives a natural number 53 bits
variable {n j : Nat} (normal : 2 ^ 52 ≤ n * 2 ^ j ∧ n * 2 ^ j < 2 ^ 53) (bound : j ≤ 52)

include normal bound

theorem unpacked_ofNat : UnpackedFloat.ofNat .binary64 n = .finite .positive (n * 2 ^ j) (-j) (by omega) := by
  have powers : 2 ^ (52 - j) * 2 ^ j = 2 ^ 52 := by rw [← Nat.pow_add, Nat.sub_add_cancel bound]
  have positive : n ≠ 0 := by
    rintro rfl
    omega
  have log : n.log2 = 52 - j := by
    rw [Nat.log2_eq_iff positive]
    constructor
    · exact Nat.le_of_mul_le_mul_right (powers ▸ normal.1) (Nat.pow_pos (by decide))
    · refine Nat.lt_of_mul_lt_mul_right (a := 2 ^ j) ?_
      rw [Nat.pow_succ', Nat.mul_assoc, powers]
      exact normal.2
  have sign : compare (n : Int) 0 = .gt := by
    rw [Int.compare_eq_gt]
    omega
  have target : Float.Model.Format.binary64.targetExponent (Float.Model.totalExponent n 0) = -j := by
    rw [Float.Model.totalExponent, log]
    simp only [Float.Model.Format.targetExponent, Float.Model.Format.mantissaBits, Float.Model.Format.minExponent]
    omega
  have exact := roundWithAccuracy_exact normal (e := -j) (by omega) .positive 0
  rw [Nat.pow_zero, Nat.mul_one, Int.natCast_zero, Int.sub_zero] at exact
  simp only [UnpackedFloat.ofNat, UnpackedFloat.ofInt, UnpackedFloat.normalize, sign, UnpackedFloat.round,
    Int.toNat_natCast, target, UnpackedFloat.decreaseExponent]
  have shift : (0 - -(j : Int)).toNat = j := by omega
  rw [shift, Nat.shiftLeft_eq, Int.zero_sub]
  exact exact

/-- The conversion multiplies by one, which rounds nothing off either. -/
theorem toBits_ofNat (small : n < 2 ^ 53) :
    (Float.ofNat n).toBits.toNat = (1075 - j) * 2 ^ 52 + (n * 2 ^ j - 2 ^ 52) := by
  have range : -1074 ≤ (-j : Int) ∧ (-j : Int) ≤ 971 := by omega
  have one : (Float.ofBits 0x3FF0000000000000).toModel.unpack = .finite .positive (2 ^ 52) (-52) (by decide) := rfl
  have word : n.toUInt64.toNat = n := by
    simp only [Nat.toUInt64, UInt64.toNat_ofNat']
    omega
  have integer : n.toUInt64.toFloat.toModel.unpack = .finite .positive (n * 2 ^ j) (-j) (by omega) := by
    rw [UInt64.toFloat, Float.Model.ofUInt64, UnpackedFloat.ofUInt64, word, unpacked_ofNat normal bound]
    exact unpack_pack normal range
  have product : Float.ofNat n = n.toUInt64.toFloat * Float.ofBits 0x3FF0000000000000 := by
    change Float.ofScientific n false 0 = _
    rw [Float.ofScientific, dif_pos ⟨small, by decide⟩]
    rfl
  have model : (Float.ofNat n).toModel = Float.Model.pack (.finite .positive (n * 2 ^ j) (-j) (by omega)) := by
    rw [product]
    change Float.Model.pack (UnpackedFloat.mul .binary64 n.toUInt64.toFloat.toModel.unpack
      (Float.ofBits 0x3FF0000000000000).toModel.unpack) = _
    rw [integer, one]
    exact congrArg Float.Model.pack (roundWithAccuracy_exact normal range .positive 52)
  rw [Float.toBits, model]
  refine (toNat_pack normal range).trans ?_
  congr 2
  omega

/-- A natural number below `2 ^ 53` is a double. -/
theorem ofFloat?_ofNat (small : n < 2 ^ 53) : Binary.ofFloat? (Float.ofNat n) = some ⟨false, n * 2 ^ j, -j⟩ := by
  have bits := toBits_ofNat normal bound small
  have negative : (Float.ofNat n).toBits.toNat / 2 ^ 63 = 0 := by omega
  have exponent : (Float.ofNat n).toBits.toNat / 2 ^ 52 % 2 ^ 11 = 1075 - j := by omega
  have fraction : (Float.ofNat n).toBits.toNat % 2 ^ 52 = n * 2 ^ j - 2 ^ 52 := by omega
  simp only [Binary.ofFloat?, Nat.pow_eq, negative, exponent, fraction, beq_iff_eq]
  have mantissa : 2 ^ 52 + (n * 2 ^ j - 2 ^ 52) = n * 2 ^ j := by omega
  have power : ((1075 - j : Nat) : Int) - 1075 = -j := by omega
  rw [if_neg (by omega), if_neg (by omega), mantissa, power]
  rfl

end natural

/-- A natural number below `2 ^ 53` is the number that its double denotes. -/
theorem toNat?_ofNat {n : Nat} (small : n < 2 ^ 53) : toNat? (Float.ofNat n) = some n := by
  by_cases zero : n = 0
  · have double : Binary.ofFloat? (Float.ofNat 0) = some ⟨false, 0, -1074⟩ := by decide
    simp only [zero, toNat?, double, Binary.isIntegral, Binary.truncate, Nat.zero_mod, Nat.zero_mul, Nat.zero_div,
      beq_self_eq_true, Bool.or_true, Bool.and_true, if_true]
  obtain ⟨j, bound, normal⟩ : ∃ j, j ≤ 52 ∧ 2 ^ 52 ≤ n * 2 ^ j ∧ n * 2 ^ j < 2 ^ 53 := by
    have log : n.log2 < 53 := (Nat.log2_lt zero).mpr small
    refine ⟨52 - n.log2, Nat.sub_le .., ?_, ?_⟩
    · calc 2 ^ 52 = 2 ^ n.log2 * 2 ^ (52 - n.log2) := by rw [← Nat.pow_add, Nat.add_sub_cancel' (by omega)]
        _ ≤ n * 2 ^ (52 - n.log2) := Nat.mul_le_mul_right _ (Nat.log2_self_le zero)
    · calc n * 2 ^ (52 - n.log2) < 2 ^ (n.log2 + 1) * 2 ^ (52 - n.log2) :=
          Nat.mul_lt_mul_of_pos_right Nat.lt_log2_self (Nat.pow_pos (by decide))
        _ = 2 ^ 53 := by rw [← Nat.pow_add, show n.log2 + 1 + (52 - n.log2) = 53 by omega]
  have double := ofFloat?_ofNat normal bound small
  simp [toNat?, double, Binary.isIntegral, Binary.truncate, Nat.mul_div_cancel _ (Nat.pow_pos (Nat.zero_lt_two))]

end Stencil.Number
