import AffineLoops.Number.TwosComplement
import Mathlib.Algebra.Order.Ring.Int

/-!
Division of integers that rounds down. Operations on values divide in this way, and so do the bounds of a progression;
a divisor of either sign occurs in both places.

* `fmod_between`: the remainder is nearer to zero than the divisor, on the same side.
* `fdiv_fmod`: quotient and remainder make up the dividend, with the bounds in terms of absolute value and sign.
* `shiftRight_eq_fdiv`: shifting to the right is such a division, as shifting to the left is a product.
-/

namespace AffineLoops.FloorDivision

theorem fmod_between {divisor : Int} (nonzero : divisor ≠ 0) (n : Int) :
    if 0 < divisor then 0 ≤ n.fmod divisor ∧ n.fmod divisor < divisor
    else divisor < n.fmod divisor ∧ n.fmod divisor ≤ 0 := by
  split
  · rename_i positive
    exact ⟨Int.fmod_nonneg_of_pos _ positive, Int.fmod_lt_of_pos _ positive⟩
  · -- The library has bounds for positive divisors; changing both signs changes that of the remainder.
    have opposite : 0 < -divisor := by omega
    have flipped := Int.neg_fmod_neg (-n) (-divisor)
    rw [neg_neg, neg_neg] at flipped
    have low := Int.fmod_nonneg_of_pos (-n) opposite
    have high := Int.fmod_lt_of_pos (-n) opposite
    omega

theorem fdiv_fmod {divisor : Int} (nonzero : divisor ≠ 0) (n : Int) :
    n = n.fdiv divisor * divisor + n.fmod divisor ∧ |n.fmod divisor| < |divisor| ∧
      (n.fmod divisor = 0 ∨ (n.fmod divisor).sign = divisor.sign) := by
  have whole := Int.mul_fdiv_add_fmod n divisor
  have between := fmod_between nonzero n
  refine ⟨by rw [mul_comm, whole], ?_⟩
  split at between
  · rename_i positive
    obtain ⟨low, high⟩ := between
    rw [abs_of_nonneg low, abs_of_pos positive, Int.sign_eq_one_of_pos positive, Int.sign_eq_one_iff_pos]
    omega
  · have negative : divisor < 0 := by omega
    obtain ⟨low, high⟩ := between
    rw [abs_of_nonpos high, abs_of_neg negative, Int.sign_eq_neg_one_of_neg negative, Int.sign_eq_neg_one_iff_neg]
    omega

/-! ### Powers of two -/

open TwosComplement

theorem shiftLeft_eq_mul (a : Int) (n : Nat) : shiftLeft a n = a * 2 ^ n := by
  unfold shiftLeft
  split
  · rename_i zero
    rw [zero, zero_mul]
  · rfl

theorem shiftRight_eq_fdiv (a : Int) (n : Nat) : shiftRight a n = a.fdiv (2 ^ n) := by
  rw [shiftRight, Int.shiftRight_eq_div_pow, Int.fdiv_eq_ediv_of_nonneg _ (Int.pow_nonneg (by decide))]
  push_cast
  rfl

end AffineLoops.FloorDivision
