import AffineLoops.CompiledLoop.Execute
import AffineLoops.Proofs.ProgressionElements

/-!
The views of a progression agree with its elements. The number of elements, the first and the last one, the element at
an index and the shape of a loop are computed from start, stop and step; the elements themselves come one after
another until the stop. A loop that is run round by round goes by the elements, and an accelerated one by the
views.

* `get?_of_nonneg`, `get?_of_neg`: the element at an index, from either end.
* `Aligned.isEmpty_iff_toList`, `Aligned.first?_eq_head?`, `Aligned.last?_eq_getLast?`: the ends.
* `Aligned.shape?_eq_none_iff`, `Aligned.shape?_of_lt`: when a loop has a shape, and which.
-/

namespace AffineLoops.Progression

variable {p : Progression}

theorem Built.moving (built : p.Built) : p.step ≠ 0 := by
  cases built with
  | @ofBounds start stop step p bounds =>
    have moving : step ≠ 0 := by
      rintro rfl
      simp [Progression.ofBounds] at bounds
    obtain ⟨count, counted, -⟩ := ofBounds_eq moving start stop
    rw [counted] at bounds
    cases bounds
    exact moving
  | upto stop => exact one_ne_zero

/-! ### Elements at an index -/

/-- An index is inside the progression where it is inside the list. -/
theorem at_eq (index : Int) :
    (if index < 0 ∨ p.length ≤ index then none else some (p.start + p.step * index)) =
      if 0 ≤ index then p.toList[index.toNat]? else none := by
  by_cases forwards : 0 ≤ index
  · rw [if_pos forwards, getElem?_toList, element, Int.toNat_of_nonneg forwards]
    by_cases inside : index < p.length
    · rw [if_pos inside, if_neg (by omega)]
    · rw [if_neg inside, if_pos (by omega)]
  · rw [if_neg forwards, if_pos (by omega)]

theorem get?_of_nonneg {index : Int} (forwards : 0 ≤ index) : p.get? index = p.toList[index.toNat]? := by
  have kept : (if index < 0 then p.length + index else index) = index := if_neg (by omega)
  rw [get?, kept, at_eq, if_pos forwards]

theorem get?_of_neg {index : Int} (backwards : index < 0) :
    p.get? index = if -p.length ≤ index then p.toList[(p.length + index).toNat]? else none := by
  have shifted : (if index < 0 then p.length + index else index) = p.length + index := if_pos backwards
  rw [get?, shifted, at_eq]
  by_cases inside : -p.length ≤ index
  · rw [if_pos inside, if_pos (by omega)]
  · rw [if_neg inside, if_neg (by omega)]

/-! ### The ends -/

namespace Aligned

variable (aligned : p.Aligned)

include aligned

theorem length_eq : (p.toList.length : Int) = p.length := by
  rw [length_toList, Int.toNat_of_nonneg aligned.length_nonneg]

theorem isEmpty_iff : p.isEmpty = true ↔ p.length = 0 := by
  constructor
  · intro none
    have same : p.start = p.stop := by simpa [isEmpty] using none
    simp [length, same]
  · intro none
    by_contra elements
    have rounds := aligned.length_pos (by simpa using elements)
    omega

theorem isEmpty_iff_toList : p.isEmpty = true ↔ p.toList = [] := by
  rw [aligned.isEmpty_iff, ← aligned.length_eq, Int.natCast_eq_zero, List.length_eq_zero_iff]

theorem first?_eq_head? : p.first? = p.toList.head? := by
  by_cases none : p.isEmpty = true
  · rw [first?, if_pos none, aligned.isEmpty_iff_toList.mp none, List.head?_nil]
  · have rounds := aligned.length_pos (by simpa using none)
    rw [first?, if_neg none, List.head?_eq_getElem?, getElem?_toList, if_pos (by simpa using rounds)]
    simp [element]

theorem last?_eq_getLast? : p.last? = p.toList.getLast? := by
  by_cases none : p.isEmpty = true
  · rw [last?, if_pos none, aligned.isEmpty_iff_toList.mp none, List.getLast?_nil]
  · have rounds := aligned.length_pos (by simpa using none)
    have length := aligned.length_eq
    have before : ((p.toList.length - 1 : Nat) : Int) = p.length - 1 := by omega
    rw [aligned.last?_eq rounds, List.getLast?_eq_getElem?, getElem?_toList, element, before, if_pos (by omega)]

/-! ### The shape of a loop -/

theorem shape?_eq_none_iff (limit : Nat) :
    (Iterable.range p).shape? limit = .ok none ↔ p.toList.length ≤ limit := by
  have length := aligned.length_eq
  unfold Iterable.shape?
  dsimp only
  split
  · rename_i short
    simp only [true_iff]
    omega
  · rename_i long
    simp only [Except.ok.injEq, reduceCtorEq, false_iff]
    omega

theorem shape?_of_lt {limit : Nat} (long : limit < p.toList.length) :
    (Iterable.range p).shape? limit = .ok (some ⟨p.start, p.step, p.length, p.last?⟩) := by
  have length := aligned.length_eq
  exact if_neg (by omega)

end Aligned

/-- The views of a progression agree. Going through a progression comes to an end with one list of elements. Its
length is the progression's, it is empty if the progression is, its ends are the first and the last element, and an
index finds what it finds in the list, a negative one from the end. A loop over it has no shape if it has at most as
many elements as the limit; and otherwise the shape has the start, the step, the count and the last value of the
elements. -/
theorem views_agree (built : p.Built) :
    ∃ elements, (∀ others, Produces p p.start others ↔ others = elements) ∧
      p.length = elements.length ∧ (p.isEmpty = true ↔ elements = []) ∧
      p.first? = elements.head? ∧ p.last? = elements.getLast? ∧
      (∀ index : Int, p.get? index =
        if 0 ≤ index then elements[index.toNat]?
        else if -p.length ≤ index then elements[(p.length + index).toNat]? else none) ∧
      ∀ limit : Nat,
        ((Iterable.range p).shape? limit = .ok none ↔ elements.length ≤ limit) ∧
        (limit < elements.length → ∃ shape, (Iterable.range p).shape? limit = .ok (some shape) ∧
          shape.itersCount = elements.length ∧ shape.last = elements.getLast? ∧
          shape.last = some (shape.start + shape.step * (shape.itersCount - 1)) ∧
          ∀ index : Nat, index < elements.length → elements[index]? = some (shape.start + shape.step * index)) := by
  have aligned := built.aligned
  have length := aligned.length_eq
  refine ⟨p.toList, ?_, length.symm, aligned.isEmpty_iff_toList, aligned.first?_eq_head?, aligned.last?_eq_getLast?,
    ?_, ?_⟩
  · intro others
    have produces := aligned.produces_toList built.moving
    constructor
    · intro another
      exact another.unique produces
    · rintro rfl
      exact produces
  · intro index
    by_cases forwards : 0 ≤ index
    · rw [if_pos forwards, get?_of_nonneg forwards]
    · rw [if_neg forwards, get?_of_neg (by omega)]
  · intro limit
    refine ⟨aligned.shape?_eq_none_iff limit, ?_⟩
    intro long
    refine ⟨_, aligned.shape?_of_lt long, length.symm, aligned.last?_eq_getLast?, aligned.last?_eq (by omega), ?_⟩
    intro index inside
    rw [getElem?_toList, if_pos (by omega), element]

def countdown : Progression := ⟨10, -2, -4⟩

/-- Downwards, with a stop between two values. -/
theorem countdown_views :
    ofBounds 10 1 (-4) = .ok countdown ∧ Produces countdown 10 [10, 6, 2] ∧
      countdown.length = 3 ∧ countdown.first? = some 10 ∧ countdown.last? = some 2 ∧
      countdown.get? 1 = some 6 ∧ countdown.get? (-3) = some 10 ∧ countdown.get? (-4) = none ∧
      (Iterable.range countdown).shape? 3 = .ok none ∧
      ∃ shape, (Iterable.range countdown).shape? 2 = .ok (some shape) ∧ shape.itersCount = 3 ∧ shape.last = some 2 := by
  have bounds : ofBounds 10 1 (-4) = .ok countdown := by decide
  have moves : Produces countdown 10 [10, 6, 2] := .more rfl (.more rfl (.more rfl (.done rfl)))
  obtain ⟨elements, produces, length, -, first, last, indexed, shapes⟩ := views_agree (.ofBounds bounds)
  obtain rfl : [10, 6, 2] = elements := (produces _).mp moves
  obtain ⟨shape, shaped, count, shapeLast, -⟩ := (shapes 2).2 (by decide)
  exact ⟨bounds, moves, length, first, last, indexed 1, indexed (-3), indexed (-4), (shapes 3).1.mpr (by decide),
    shape, shaped, count, shapeLast⟩

end AffineLoops.Progression
