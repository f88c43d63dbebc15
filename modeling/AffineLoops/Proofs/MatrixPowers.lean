import AffineLoops.Proofs.MatrixAlgebra
import Mathlib.Data.Nat.Size

/-!
Powers of stored matrices are iterated products. A power is computed from few products, by halving the exponent;
`copies` multiplies the matrix in one copy at a time, and `squareAndMultiply` goes through the bits of the exponent,
lowest first, with a square that is kept ready for the next bit.

* `eq_raise_of_toMatrix`: a square matrix with the entries of a power is that power.
* `copies_eq`, `squareAndMultiply_eq`: both ways lead to the same matrix. The walk over the bits has, after some of
  them, the power to the number that these bits make (`Squaring.Holds`).
* `raise_add`, `raise_mul`: the laws of exponents.
-/

namespace AffineLoops.IntMatrix

/-! ### One copy at a time -/

/-- The product of `count` copies of a matrix, from the identity on. -/
def copies (A : IntMatrix) : Nat → Except MatrixError IntMatrix
  | 0 => .ok (identity A.rows)
  | count + 1 => do (← A.copies count).multiply A

section Square

variable {A B : IntMatrix} {side : Nat} (hA : A.size = ⟨side, side⟩)

include hA

/-- A matrix of the right size with the entries of a power is that power. -/
theorem eq_raise_of_toMatrix (hB : B.size = ⟨side, side⟩) {n : Nat}
    (entries : B.toMatrix side side = A.toMatrix side side ^ n) : B = A.raise n := by
  refine eq_of_toMatrix hB (size_raise hA n) ?_
  rw [entries, toMatrix_raise hA]

theorem raise_zero : A.raise 0 = identity A.rows := by
  obtain ⟨rfl, -⟩ := MatrixSize.mk.inj hA
  symm
  refine eq_raise_of_toMatrix hA (size_identity _) ?_
  rw [toMatrix_identity, pow_zero]

theorem raise_succ (n : Nat) : A.raise (n + 1) = (A.raise n).mul A := by
  have size := size_raise hA n
  symm
  refine eq_raise_of_toMatrix hA (size_mul size hA) ?_
  rw [toMatrix_mul size hA, toMatrix_raise hA, pow_succ]

theorem raise_add (m n : Nat) : A.raise (m + n) = (A.raise m).mul (A.raise n) := by
  have first := size_raise hA m
  have second := size_raise hA n
  symm
  refine eq_raise_of_toMatrix hA (size_mul first second) ?_
  rw [toMatrix_mul first second, toMatrix_raise hA, toMatrix_raise hA, pow_add]

theorem raise_mul (m n : Nat) : A.raise (m * n) = (A.raise m).raise n := by
  have size := size_raise hA m
  symm
  refine eq_raise_of_toMatrix hA (size_raise size n) ?_
  rw [toMatrix_raise size, toMatrix_raise hA, pow_mul]

theorem copies_eq (n : Nat) : A.copies n = .ok (A.raise n) := by
  induction n with
  | zero => rw [copies, raise_zero hA]
  | succ n ih =>
    rw [copies, ih, raise_succ hA]
    exact multiply_ok (size_raise hA n) hA

end Square

/-! ### One bit at a time -/

/-- What a walk over the bits of an exponent holds: the product so far, and the square for the next bit. -/
structure Squaring where
  result : IntMatrix
  square : IntMatrix

namespace Squaring

/-- One bit of the exponent `n`. The square is multiplied in if the bit is set, and squared for the next bit if there
is one. -/
def step (n : Nat) (s : Squaring) (bit : Nat) : Squaring where
  result := if n.testBit bit then s.result.mul s.square else s.result
  square := if bit + 1 < n.size then s.square.mul s.square else s.square

/-- After the first `bits` bits of `n`: the result is the power to the number that they make, and the square that
to the weight of the next bit. -/
structure Holds (A : IntMatrix) (side n bits : Nat) (s : Squaring) : Prop where
  sizeResult : s.result.size = ⟨side, side⟩
  sizeSquare : s.square.size = ⟨side, side⟩
  result : s.result.toMatrix side side = A.toMatrix side side ^ (n % 2 ^ bits)
  square : bits < n.size → s.square.toMatrix side side = A.toMatrix side side ^ 2 ^ bits

variable {A : IntMatrix} {side n bits : Nat} {s : Squaring}

theorem holds_start (hA : A.size = ⟨side, side⟩) (n : Nat) : Holds A side n 0 ⟨identity A.rows, A⟩ := by
  obtain ⟨rfl, -⟩ := MatrixSize.mk.inj hA
  constructor
  · exact size_identity _
  · exact hA
  · rw [toMatrix_identity, pow_zero, Nat.mod_one, pow_zero]
  · intro _
    rw [pow_zero, pow_one]

theorem Holds.step (holds : Holds A side n bits s) (next : bits < n.size) :
    Holds A side n (bits + 1) (s.step n bits) := by
  have square := holds.square next
  have sizeProduct := size_mul holds.sizeResult holds.sizeSquare
  have sizeNext := size_mul holds.sizeSquare holds.sizeSquare
  constructor
  · show (if n.testBit bits then _ else _ : IntMatrix).size = _
    split
    · exact sizeProduct
    · exact holds.sizeResult
  · show (if bits + 1 < n.size then _ else _ : IntMatrix).size = _
    split
    · exact sizeNext
    · exact holds.sizeSquare
  · -- a bit that is set adds its weight to the number, and the square to the product
    rw [Nat.mod_pow_succ, ← Nat.toNat_testBit]
    unfold Squaring.step
    cases n.testBit bits with
    | false => simp [holds.result]
    | true => simp [toMatrix_mul holds.sizeResult holds.sizeSquare, holds.result, square, pow_add]
  · intro more
    have squared : (s.step n bits).square = s.square.mul s.square := if_pos more
    rw [squared, toMatrix_mul holds.sizeSquare holds.sizeSquare, square, ← pow_add, ← two_mul, ← pow_succ']

theorem Holds.foldl (holds : Holds A side n 0 s) (within : bits ≤ n.size) :
    Holds A side n bits ((List.range bits).foldl (Squaring.step n) s) := by
  induction bits with
  | zero => exact holds
  | succ bits ih =>
    rw [List.range_succ, List.foldl_append]
    exact (ih (Nat.le_of_succ_le within)).step within

end Squaring

/-- The power by a walk over the bits of the exponent. -/
def squareAndMultiply (A : IntMatrix) (n : Nat) : IntMatrix :=
  ((List.range n.size).foldl (Squaring.step n) ⟨identity A.rows, A⟩).result

theorem squareAndMultiply_eq {A : IntMatrix} {side : Nat} (hA : A.size = ⟨side, side⟩) (n : Nat) :
    A.squareAndMultiply n = A.raise n := by
  have whole : n % 2 ^ n.size = n := Nat.mod_eq_of_lt (Nat.lt_size_self n)
  have holds := (Squaring.holds_start hA n).foldl (Nat.le_refl n.size)
  refine eq_raise_of_toMatrix hA holds.sizeResult ?_
  exact holds.result.trans (by rw [whole])

/-! ### Powers -/

theorem size_of_square {A : IntMatrix} (square : A.rows = A.cols) : A.size = ⟨A.rows, A.rows⟩ := by
  rw [size, square]

theorem power_not_square {A : IntMatrix} (notSquare : A.rows ≠ A.cols) (n : Nat) :
    A.power n = .error (.notSquare A.size) := by
  rw [power, if_neg (by simpa [isSquare] using notSquare)]

/-- Powers are iterated products. A power of a square matrix exists, and it is the product of copies of the matrix,
multiplied from the identity on; walking over the bits of the exponent gives the same. Exponents add up in products
and multiply in powers of powers. A matrix that is not square has no powers. -/
theorem power_eq_copies (A : IntMatrix) :
    (A.rows = A.cols → ∀ n, ∃ P, A.power n = .ok P ∧ A.copies n = .ok P ∧ A.squareAndMultiply n = P) ∧
      (A.rows = A.cols → A.power 0 = .ok (identity A.rows)) ∧
      (∀ m n, A.power (m + n) = do (← A.power m).multiply (← A.power n)) ∧
      (∀ m n, A.power (m * n) = do (← A.power m).power n) ∧
      (A.rows ≠ A.cols → ∀ n, A.power n = .error (.notSquare A.size)) := by
  by_cases square : A.rows = A.cols
  · have hA := size_of_square square
    refine ⟨?_, ?_, ?_, ?_, fun notSquare => absurd square notSquare⟩
    · intro _ n
      exact ⟨A.raise n, power_ok hA n, copies_eq hA n, squareAndMultiply_eq hA n⟩
    · intro _
      rw [power_ok hA, raise_zero hA]
    · intro m n
      simp only [power_ok hA, raise_add hA, bind, Except.bind]
      exact (multiply_ok (size_raise hA m) (size_raise hA n)).symm
    · intro m n
      simp only [power_ok hA, raise_mul hA, bind, Except.bind]
      exact (power_ok (size_raise hA m) n).symm
  · have fails := power_not_square square
    refine ⟨fun isSquare => absurd isSquare square, fun isSquare => absurd isSquare square, ?_, ?_, fun _ => fails⟩
    · intro m n
      simp only [fails]
      rfl
    · intro m n
      simp only [fails]
      rfl

def fibonacci : IntMatrix := ⟨2, 2, #[1, 1, 1, 0], rfl⟩

theorem fibonacci_power_eq_copies :
    (∃ P, fibonacci.power 10 = .ok P ∧ fibonacci.copies 10 = .ok P ∧ fibonacci.squareAndMultiply 10 = P ∧
        P.entry 0 0 = 89) ∧
      (fibonacci.power 10 = do (← fibonacci.power 4).multiply (← fibonacci.power 6)) ∧
      (fibonacci.power 10 = do (← fibonacci.power 5).power 2) ∧
      (rowVector [1, 2]).power 3 = .error (.notSquare ⟨1, 2⟩) := by
  obtain ⟨powers, -, add, mul, -⟩ := power_eq_copies fibonacci
  obtain ⟨P, power, copies, bits⟩ := powers rfl 10
  have value : fibonacci.power 10 = .ok ⟨2, 2, #[89, 55, 55, 34], rfl⟩ := by decide +kernel
  refine ⟨⟨P, power, copies, bits, ?_⟩, add 4 6, mul 5 2, ?_⟩
  · rw [value] at power
    cases power
    rfl
  · exact (power_eq_copies (rowVector [1, 2])).2.2.2.2 (by decide) 3

end AffineLoops.IntMatrix
