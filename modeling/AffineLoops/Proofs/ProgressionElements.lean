import AffineLoops.Proofs.FloorDivision
import AffineLoops.Proofs.Progressions

/-!
The elements of a progression. Going through them stops at the stop and nowhere else, so that it ends only if
the steps from the start meet the stop (`Produces`). The constructor takes care of that: it moves the stop to the
first value, from the given one on, that the steps meet.

* `produces_toList`, `Produces.unique`: from an aligned start the elements come to an end, and they are `toList`.
* `alignedStop_eq`: the aligned stop is as many steps away as there are elements before the given stop, in
  either direction.
* `ofBounds_eq`: so the constructor is a count of steps that is not negative.
-/

namespace AffineLoops.Progression

/-! ### Going through the elements -/

/-- One move: nothing at the stop, and otherwise a value and the one after it. -/
def advance (p : Progression) (next : Int) : Option (Int × Int) :=
  if next = p.stop then none else some (next, next + p.step)

/-- From `next` on, the moves come to an end after these elements. -/
inductive Produces (p : Progression) : Int → List Int → Prop where
  | done {next : Int} : p.advance next = none → Produces p next []
  | more {next element after : Int} {rest : List Int} :
      p.advance next = some (element, after) → Produces p after rest → Produces p next (element :: rest)

variable {p : Progression}

theorem Produces.unique {next : Int} {elements others : List Int} (produces : Produces p next elements)
    (produces' : Produces p next others) : elements = others := by
  induction produces generalizing others with
  | done ended =>
    cases produces' with
    | done => rfl
    | more moved => simp [ended] at moved
  | more moved rest ih =>
    cases produces' with
    | done ended => simp [ended] at moved
    | more moved' rest' =>
      obtain ⟨rfl, rfl⟩ : _ ∧ _ := by simpa [moved] using moved'
      rw [ih rest']

theorem element_succ (index : Nat) : p.element (index + 1) = p.element index + p.step := by
  rw [element, element, Nat.cast_succ, mul_add, mul_one, add_assoc]

theorem element_ne_stop (moving : p.step ≠ 0) {index left : Nat} (stop : p.stop = p.element (index + (left + 1))) :
    p.element index ≠ p.stop := by
  rw [stop, element, element, ne_eq, add_right_inj, mul_right_inj' moving]
  omega

/-- The moves from an element on give the elements that are left. -/
theorem produces_from (moving : p.step ≠ 0) (left : Nat) {index : Nat} (stop : p.stop = p.element (index + left)) :
    Produces p (p.element index) ((List.range' index left).map p.element) := by
  induction left generalizing index with
  | zero =>
    have ended : p.element index = p.stop := stop.symm
    exact .done (if_pos ended)
  | succ left ih =>
    have moved : p.advance (p.element index) = some (p.element index, p.element (index + 1)) := by
      rw [advance, if_neg (element_ne_stop moving stop), element_succ]
    rw [List.range'_succ, List.map_cons]
    refine .more moved (ih ?_)
    rw [stop, Nat.add_assoc, Nat.add_comm 1]

theorem Aligned.produces_toList (aligned : p.Aligned) (moving : p.step ≠ 0) : Produces p p.start p.toList := by
  have count : (p.length.toNat : Int) = p.length := Int.toNat_of_nonneg aligned.length_nonneg
  have start : p.element 0 = p.start := by simp [element]
  have stop : p.stop = p.element (0 + p.length.toNat) := by
    rw [Nat.zero_add, element, count, ← aligned.stop_eq]
  rw [toList, List.range_eq_range']
  exact start ▸ produces_from moving _ stop

/-! ### Counting the steps -/

/-- The value lies before the stop, in the direction of the step. -/
def Precedes (step stop value : Int) : Prop := if 0 < step then value < stop else stop < value

instance (step stop value : Int) : Decidable (Precedes step stop value) :=
  inferInstanceAs (Decidable (if 0 < step then value < stop else stop < value))

/-- Steps over a whole number of them: the values before the stop are those of the fewer steps. -/
theorem precedes_steps {step : Int} (moving : step ≠ 0) (start count index : Int) :
    Precedes step (start + step * count) (start + step * index) ↔ index < count := by
  unfold Precedes
  split
  · rename_i up
    rw [Int.add_lt_add_iff_left, mul_lt_mul_iff_right₀ up]
  · have down : step < 0 := by omega
    rw [Int.add_lt_add_iff_left, mul_lt_mul_left_of_neg down]

/-- A stop inside a step lies after the values of the whole steps up to there, and before all others. -/
theorem precedes_between {step : Int} (start count : Int) {rest : Int} (inside : rest ≠ 0)
    (between : if 0 < step then 0 ≤ rest ∧ rest < step else step < rest ∧ rest ≤ 0) (index : Int) :
    Precedes step (start + (step * count + rest)) (start + step * index) ↔ index < count + 1 := by
  have next : step * (count + 1) = step * count + step := by rw [mul_add, mul_one]
  unfold Precedes
  split at between
  · rename_i up
    rw [if_pos up]
    constructor
    · intro before
      by_contra beyond
      have far : step * (count + 1) ≤ step * index := Int.mul_le_mul_of_nonneg_left (by omega) up.le
      omega
    · intro within
      have near : step * index ≤ step * count := Int.mul_le_mul_of_nonneg_left (by omega) up.le
      omega
  · rename_i down
    rw [if_neg down]
    constructor
    · intro before
      by_contra beyond
      have far : step * index ≤ step * (count + 1) := Int.mul_le_mul_of_nonpos_left (by omega) (by omega)
      omega
    · intro within
      have near : step * count ≤ step * index := Int.mul_le_mul_of_nonpos_left (by omega) (by omega)
      omega

/-- The aligned stop is `count` steps from the start, where the values before the given stop are those of fewer
steps. -/
theorem alignedStop_eq {step : Int} (moving : step ≠ 0) (start stop : Int) :
    ∃ count, alignedStop start stop step = start + step * count ∧
      ∀ index, Precedes step stop (start + step * index) ↔ index < count := by
  -- The rest of the distance is less than a step, and points in the direction of one.
  have between := FloorDivision.fmod_between moving (stop - start)
  have whole : start + (step * (stop - start).fdiv step + (stop - start).fmod step) = stop := by
    rw [Int.mul_fdiv_add_fmod]
    omega
  unfold alignedStop
  dsimp only
  split
  · rename_i exact
    rw [exact, add_zero] at whole
    refine ⟨(stop - start).fdiv step, whole.symm, ?_⟩
    intro index
    rw [← precedes_steps moving start, whole]
  · rename_i inside
    refine ⟨(stop - start).fdiv step + 1, ?_, ?_⟩
    · rw [mul_add]
      omega
    · intro index
      rw [← precedes_between start _ inside between, whole]

/-- The constructor counts the steps, and none where the step leads away. -/
theorem ofBounds_eq {step : Int} (moving : step ≠ 0) (start stop : Int) :
    ∃ count, ofBounds start stop step = .ok ⟨start, start + step * max count 0, step⟩ ∧
      ∀ index, Precedes step stop (start + step * index) ↔ index < count := by
  obtain ⟨count, aligned, before⟩ := alignedStop_eq moving start stop
  refine ⟨count, ?_, before⟩
  have towards : (start + step * count - start).sign = step.sign ↔ 0 < count := by
    rw [add_sub_cancel_left, Int.sign_mul, mul_eq_left₀ (by simpa using moving), Int.sign_eq_one_iff_pos]
  rw [ofBounds, if_neg moving]
  dsimp only
  rw [aligned]
  by_cases positive : 0 < count
  · rw [if_pos (towards.mpr positive), max_eq_left positive.le]
  · rw [if_neg (mt towards.mp positive), max_eq_right (by omega), mul_zero, add_zero]

theorem length_steps {step : Int} (moving : step ≠ 0) (start count : Int) :
    (⟨start, start + step * count, step⟩ : Progression).length = count := by
  rw [length, add_sub_cancel_left, Int.mul_tdiv_cancel_left _ moving]

theorem eq_of_lt_iff {count other : Int} (same : ∀ index, index < count ↔ index < other) : count = other := by
  have := same count
  have := same other
  omega

/-- A stop that the steps meet stays where it is. -/
theorem ofBounds_steps {step : Int} (moving : step ≠ 0) (start : Int) {count : Int} (forwards : 0 ≤ count) :
    ofBounds start (start + step * count) step = .ok ⟨start, start + step * count, step⟩ := by
  obtain ⟨other, built, before⟩ := ofBounds_eq moving start (start + step * count)
  obtain rfl : count = other :=
    eq_of_lt_iff fun index => (precedes_steps moving start count index).symm.trans (before index)
  rw [built, max_eq_left forwards]

theorem ofBounds_upto (stop : Int) : ofBounds 0 stop 1 = .ok (upto stop) := by
  obtain ⟨count, built, before⟩ := ofBounds_eq one_ne_zero 0 stop
  obtain rfl : stop = count := eq_of_lt_iff fun index => by simpa [Precedes] using before index
  rw [built, zero_add, one_mul, upto]

theorem length_toList : p.toList.length = p.length.toNat := by
  rw [toList, List.length_map, List.length_range]

theorem getElem?_toList (index : Nat) :
    p.toList[index]? = if (index : Int) < p.length then some (p.element index) else none := by
  by_cases inside : (index : Int) < p.length
  · rw [if_pos inside, toList, List.getElem?_map, List.getElem?_range (by omega), Option.map_some]
  · rw [if_neg inside, List.getElem?_eq_none]
    rw [length_toList]
    omega

/-- The elements of a progression. Every step but zero makes a progression. Going through it comes to an end, and
the elements that it gives are as many as its length: the values that are a number of steps from the start and
before the stop, in the order of the steps. The stop that is kept is one step after the last of them, so that
it makes the same progression. Counting up from zero is the progression with the step one. -/
theorem ofBounds_elements :
    (∀ start stop step : Int, step ≠ 0 → ∃ p, ofBounds start stop step = .ok p ∧
      p.start = start ∧ p.step = step ∧
      (∀ elements, Produces p start elements ↔ elements = p.toList) ∧
      (p.toList.length : Int) = p.length ∧
      (∀ index : Nat, p.toList[index]? =
        if Precedes step stop (start + index * step) then some (start + index * step) else none) ∧
      p.stop = start + p.length * step ∧ 0 ≤ p.length ∧
      ofBounds start p.stop step = .ok p) ∧
    ∀ stop, ofBounds 0 stop 1 = .ok (upto stop) := by
  refine ⟨?_, ofBounds_upto⟩
  intro start stop step moving
  obtain ⟨count, built, before⟩ := ofBounds_eq moving start stop
  have length := length_steps moving start (max count 0)
  have aligned := (Built.ofBounds built).aligned
  refine ⟨_, built, rfl, rfl, ?_, ?_, ?_, ?_, aligned.length_nonneg, ?_⟩
  · intro elements
    have produces := aligned.produces_toList moving
    constructor
    · intro others
      exact others.unique produces
    · rintro rfl
      exact produces
  · rw [length_toList, Int.toNat_of_nonneg aligned.length_nonneg]
  · intro index
    have inside : (index : Int) < max count 0 ↔ Precedes step stop (start + step * index) := by
      rw [before]
      omega
    rw [getElem?_toList, length, mul_comm (index : Int)]
    simp only [inside]
    rfl
  · rw [length, mul_comm]
  · exact ofBounds_steps moving start (le_max_right count 0)

/-- Downwards, with a stop between two values. -/
theorem countdown_elements :
    ∃ p, ofBounds 10 1 (-4) = .ok p ∧ p.toList = [10, 6, 2] ∧ Produces p 10 [10, 6, 2] ∧ p.length = 3 ∧
      p.stop = -2 ∧ ofBounds 10 (-2) (-4) = .ok p := by
  obtain ⟨p, built, -, -, produces, -, -, -, -, again⟩ := ofBounds_elements.1 10 1 (-4) (by decide)
  obtain rfl : ⟨10, -2, -4⟩ = p := by
    have known : ofBounds 10 1 (-4) = .ok ⟨10, -2, -4⟩ := by decide
    simpa [known] using built
  exact ⟨_, built, rfl, (produces _).mpr rfl, rfl, rfl, again⟩

end AffineLoops.Progression
