import AffineLoops.Progression
import Mathlib.Algebra.Order.Ring.Int

/-!
Progressions as their constructors build them. The stop of a built progression is a whole number of steps
from the start (`Aligned.stop_eq`), so that the length counts its elements and the last element is one step
before the stop.
-/

namespace AffineLoops.Progression

/-- The progression comes from one of the two constructors. -/
inductive Built : Progression → Prop where
  | ofBounds {start stop step : Int} {p : Progression} : ofBounds start stop step = .ok p → Built p
  | upto (stop : Int) : Built (upto stop)

/-- The aligned stop is a whole number of steps from the start. -/
theorem dvd_alignedStop (start stop step : Int) : step ∣ alignedStop start stop step - start := by
  unfold alignedStop
  dsimp only
  split
  · rename_i whole
    exact Int.dvd_of_fmod_eq_zero whole
  · have whole : step ∣ stop - start - (stop - start).fmod step := Int.dvd_self_sub_fmod
    have regroup : stop + (step - (stop - start).fmod step) - start =
        stop - start - (stop - start).fmod step + step := by omega
    rw [regroup]
    exact Int.dvd_add whole (Int.dvd_refl step)

/-- A progression whose step divides its extent, and leads to the stop if there is any. -/
structure Aligned (p : Progression) : Prop where
  dvd : p.step ∣ p.stop - p.start
  sign : p.stop ≠ p.start → (p.stop - p.start).sign = p.step.sign

theorem Built.aligned {p : Progression} (built : p.Built) : p.Aligned := by
  cases built with
  | @ofBounds start stop step p bounds =>
    unfold Progression.ofBounds at bounds
    split at bounds
    · cases bounds
    · dsimp only at bounds
      split at bounds
      · rename_i towards
        cases bounds
        exact ⟨dvd_alignedStop start stop step, fun _ => towards⟩
      · cases bounds
        exact ⟨by simp, fun extent => absurd rfl extent⟩
  | upto stop =>
    refine ⟨one_dvd _, fun extent => ?_⟩
    simp only [Progression.upto] at extent ⊢
    rw [Int.sign_eq_one_of_pos (by omega)]
    rfl

namespace Aligned

variable {p : Progression} (aligned : p.Aligned)

include aligned

/-- The stop is as many steps from the start as the progression is long. -/
theorem stop_eq : p.stop = p.start + p.step * p.length := by
  have whole : p.step * p.length = p.stop - p.start := Int.mul_tdiv_cancel' aligned.dvd
  omega

theorem length_pos (extent : p.isEmpty = false) : 0 < p.length := by
  have apart : p.stop ≠ p.start := by
    rintro same
    simp [isEmpty, same] at extent
  -- step and extent point the same way, so that their quotient is positive
  have signs : p.step.sign * p.length.sign = p.step.sign := by
    rw [← Int.sign_mul, ← aligned.sign apart, aligned.stop_eq]
    congr 1
    omega
  have moving : p.step.sign ≠ 0 := by
    rw [← aligned.sign apart, ne_eq, Int.sign_eq_zero_iff_zero]
    omega
  exact Int.sign_eq_one_iff_pos.mp (mul_left_cancel₀ moving (by rw [signs, mul_one]))

theorem length_nonneg : 0 ≤ p.length := by
  by_cases elements : p.isEmpty = false
  · exact (aligned.length_pos elements).le
  · have same : p.start = p.stop := by simpa [isEmpty] using elements
    simp [length, same]

/-- The last element is the one before the stop. -/
theorem last?_eq (rounds : 0 < p.length) : p.last? = some (p.start + p.step * (p.length - 1)) := by
  have apart : p.start ≠ p.stop := by
    intro same
    rw [length, ← same] at rounds
    simp at rounds
  rw [last?, if_neg (by simpa [isEmpty] using apart), aligned.stop_eq, mul_sub, mul_one]
  congr 1
  omega

end Aligned

end AffineLoops.Progression
