import AffineLoops.Number.Binary64
import Mathlib.Algebra.Order.Ring.Int

/-!
Zero among the doubles. Doubles are compared through what their bits stand for, and bits whose exponent field is not
zero never stand for a zero. The double nearest to an integer has such bits, unless the integer is zero.

* `unpack_cases`: what bits with an exponent stand for.
* `unpackExponent_pack_ne_zero`: making a double from bits does not take their exponent away.
* `ofInt_beq_zero_iff`: so zero is the only integer that is rounded to a zero.
-/

namespace AffineLoops.Binary64

open Float.Model (Format UnpackedFloat)
open Float.Model.UnpackedFloat

/-- Only zeros compare equal to a zero. -/
theorem exists_eq_zero_of_beq {x : UnpackedFloat} {sign : Sign} (same : x.beq (.zero sign) = true) :
    ∃ s, x = .zero s := by
  cases x with
  | zero s => exact ⟨s, rfl⟩
  | notANumber => cases same
  | infinity s => cases s <;> cases same
  | finite s => cases s <;> cases same

/-- With the leading bit that is not stored, a significand is as long as it can be. -/
theorem log2_leading_append (fraction : BitVec 52) :
    (1#1 ++ fraction).toNat.log2 + 1 = Format.binary64.mantissaBits := by
  have high : (1#1 ++ fraction).toNat < 2 ^ 53 := (1#1 ++ fraction).isLt
  have low : 2 ^ 52 ≤ (1#1 ++ fraction).toNat := by
    rw [BitVec.toNat_append]
    exact Nat.left_le_or
  have top : (1#1 ++ fraction).toNat.log2 = 52 := (Nat.log2_eq_iff (by omega)).mpr ⟨low, high⟩
  rw [top]
  rfl

/-! ### Bits with an exponent -/

section ExponentField

variable {bits : BitVec Format.binary64.numBits} (field : unpackExponent bits ≠ 0#11)

include field

/-- What bits with an exponent stand for: an infinity, no number, or a number with the leading bit. -/
theorem unpack_cases :
    (∃ s, unpack Format.binary64 bits = .infinity s) ∨ unpack Format.binary64 bits = .notANumber ∨
      ∃ (s : Sign) (fraction : BitVec 52) (positive : 0 < (1#1 ++ fraction).toNat),
        unpack Format.binary64 bits = .finite s (1#1 ++ fraction).toNat
          ((unpackExponent bits).toNat - (Format.binary64.exponentBias + (52 : Nat))) positive := by
  delta unpack
  dsimp only
  by_cases full : unpackExponent bits = -1#11
  · rw [if_pos full]
    by_cases whole : unpackMantissa bits = 0#52
    · rw [if_pos whole]
      exact .inl ⟨_, rfl⟩
    · rw [if_neg whole]
      exact .inr (.inl rfl)
  · rw [if_neg full, if_neg field]
    exact .inr (.inr ⟨_, _, _, rfl⟩)

theorem unpack_ne_zero (sign : Sign) : unpack Format.binary64 bits ≠ .zero sign := by
  obtain ⟨s, same⟩ | same | ⟨s, fraction, positive, same⟩ := unpack_cases field
  all_goals
    rw [same]
    exact nofun

/-- The forms of NaN lose their difference when bits are stored, but no bits lose their exponent. -/
theorem unpackExponent_pack_ne_zero :
    unpackExponent (pack Format.binary64 (unpack Format.binary64 bits)) ≠ 0#11 := by
  have full : -1#11 ≠ 0#11 := by decide
  obtain ⟨s, same⟩ | same | ⟨s, fraction, positive, same⟩ := unpack_cases field
  · rw [same]
    exact unpackExponent_packComponents.trans_ne full
  · rw [same]
    exact unpackExponent_packComponents.trans_ne full
  · rw [same]
    delta pack
    dsimp only
    split
    · exact unpackExponent_packComponents.trans_ne full
    · have biased (e bias width : Int) : e - (bias + width) + bias + width = e := by omega
      rw [if_pos (log2_leading_append fraction), unpackExponent_packComponents, biased, Int.toNat_natCast,
        BitVec.ofNat_toNat, BitVec.setWidth_eq]
      exact field

end ExponentField

/-- A double that equals zero has an exponent without bits. -/
theorem exponent_of_ofBits_beq_zero {bits : UInt64} (zero : (Float.ofBits bits == 0.0) = true) :
    bits.toNat / 2 ^ 52 % 2 ^ 11 = 0 := by
  have plain : (0.0 : Float).toModel.unpack = .zero .positive := rfl
  -- A double holds its bits in packed form, and comparing unpacks them again.
  have same : (Float.ofBits bits).toModel.unpack.beq (0.0 : Float).toModel.unpack = true := zero
  rw [plain] at same
  obtain ⟨s, unpacked⟩ := exists_eq_zero_of_beq same
  by_contra nonzero
  have field : @unpackExponent Format.binary64 bits.toBitVec ≠ 0#11 := by
    intro empty
    have none := congrArg BitVec.toNat empty
    simp only [unpackExponent, BitVec.toNat_cast, BitVec.extractLsb_toNat, Nat.shiftRight_eq_div_pow] at none
    exact nonzero none
  exact unpack_ne_zero (unpackExponent_pack_ne_zero field) s unpacked

/-! ### Rounded integers -/

theorem bitsOfNat_between {n : Nat} (nonzero : n ≠ 0) : 2 ^ 52 ≤ bitsOfNat n ∧ bitsOfNat n < 2 ^ 63 := by
  have infinity : 2 ^ 52 ≤ infinityBits ∧ infinityBits < 2 ^ 63 := by decide
  have unit : Nat.pow 2 fractionBits = 2 ^ 52 := rfl
  rw [bitsOfNat, if_neg nonzero]
  constructor
  · apply le_min infinity.1
    rw [unit]
    omega
  · exact lt_of_le_of_lt (min_le_left _ _) infinity.2

/-- No integer but zero is rounded to a zero. -/
theorem ofInt_beq_zero_iff (n : Int) : (ofInt n == 0.0) = true ↔ n = 0 := by
  constructor
  · intro zero
    by_contra nonzero
    obtain ⟨low, high⟩ := bitsOfNat_between (Int.natAbs_ne_zero.mpr nonzero)
    have sign : Nat.pow 2 63 = 2 ^ 63 := rfl
    have exponent := exponent_of_ofBits_beq_zero zero
    rw [UInt64.toNat_ofNat', sign] at exponent
    split at exponent <;> omega
  · rintro rfl
    decide

end AffineLoops.Binary64
