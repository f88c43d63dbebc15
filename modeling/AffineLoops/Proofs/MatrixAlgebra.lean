import AffineLoops.IntMatrix.Basic
import Mathlib.Algebra.BigOperators.Fin
import Mathlib.Data.Matrix.Mul

/-!
Stored matrices as matrices of the algebra library. `toMatrix` forgets the storage and keeps the
entries, and products, identities and powers of stored matrices become those of the ring of matrices:

* `toMatrix_mul`, `toMatrix_identity`, `toMatrix_raise` carry the operations over;
* `eq_of_toMatrix` brings an equation back, since a stored matrix is its size and its entries.

`IsAffine` is the shape of a transition matrix: its last column is that of the identity, so the constant
one at the end of a row vector stays one. The shape is kept by products and powers.
-/

namespace AffineLoops

open Matrix

namespace IntMatrix

/-- The entries of a stored matrix that lie in the first `rows` rows and `cols` columns. -/
def toMatrix (rows cols : Nat) (A : IntMatrix) : Matrix (Fin rows) (Fin cols) ℤ :=
  Matrix.of fun i j => A.entry i j

theorem toMatrix_apply {rows cols : Nat} (A : IntMatrix) (i : Fin rows) (j : Fin cols) :
    A.toMatrix rows cols i j = A.entry i j := rfl

/-- A stored matrix is its size and its entries. -/
theorem eq_of_toMatrix {A B : IntMatrix} {rows cols : Nat} (hA : A.size = ⟨rows, cols⟩)
    (hB : B.size = ⟨rows, cols⟩) (h : A.toMatrix rows cols = B.toMatrix rows cols) : A = B := by
  obtain ⟨rfl, rfl⟩ := MatrixSize.mk.inj hA
  obtain ⟨hrows, hcols⟩ := MatrixSize.mk.inj hB
  refine ext_entry hrows.symm hcols.symm fun i j hi hj => ?_
  exact congrFun (congrFun h ⟨i, hi⟩) ⟨j, hj⟩

theorem sumBelow_eq_sum (n : Nat) (f : Nat → Int) : sumBelow n f = ∑ k : Fin n, f k := by
  induction n with
  | zero => rfl
  | succ n ih => rw [sumBelow, ih, Fin.sum_univ_castSucc]; rfl

/-- The entry of a product is the sum over the shared index; leaving the zero weights out changes
nothing. -/
theorem entry_mul (A B : IntMatrix) {i j : Nat} (hi : i < A.rows) (hj : j < B.cols) :
    (A.mul B).entry i j = ∑ k : Fin A.cols, A.entry i k * B.entry k j := by
  rw [mul, entry_ofFn, if_pos ⟨hi, hj⟩, sumBelow_eq_sum]
  refine Finset.sum_congr rfl fun k _ => ?_
  by_cases zero : A.entry i k = 0
  · simp [zero]
  · simp [zero]

theorem size_mul {A B : IntMatrix} {rows mid cols : Nat} (hA : A.size = ⟨rows, mid⟩)
    (hB : B.size = ⟨mid, cols⟩) : (A.mul B).size = ⟨rows, cols⟩ := by
  obtain ⟨rfl, -⟩ := MatrixSize.mk.inj hA
  obtain ⟨-, rfl⟩ := MatrixSize.mk.inj hB
  rfl

theorem toMatrix_mul {A B : IntMatrix} {rows mid cols : Nat} (hA : A.size = ⟨rows, mid⟩)
    (hB : B.size = ⟨mid, cols⟩) :
    (A.mul B).toMatrix rows cols = A.toMatrix rows mid * B.toMatrix mid cols := by
  obtain ⟨rfl, rfl⟩ := MatrixSize.mk.inj hA
  obtain ⟨-, rfl⟩ := MatrixSize.mk.inj hB
  ext i j
  rw [Matrix.mul_apply]
  exact entry_mul A B i.isLt j.isLt

theorem multiply_ok {A B : IntMatrix} {rows mid cols : Nat} (hA : A.size = ⟨rows, mid⟩)
    (hB : B.size = ⟨mid, cols⟩) : A.multiply B = .ok (A.mul B) := by
  obtain ⟨-, rfl⟩ := MatrixSize.mk.inj hA
  obtain ⟨fit, -⟩ := MatrixSize.mk.inj hB
  rw [multiply, if_pos fit.symm]

theorem size_identity (side : Nat) : (identity side).size = ⟨side, side⟩ := rfl

theorem delta_eq_one {side : Nat} (i j : Fin side) :
    delta i j = (1 : Matrix (Fin side) (Fin side) ℤ) i j := by
  rw [delta, Matrix.one_apply]
  simp only [Fin.ext_iff]

theorem toMatrix_identity (side : Nat) : (identity side).toMatrix side side = 1 := by
  ext i j
  rw [toMatrix_apply, identity, entry_ofFn, if_pos ⟨i.isLt, j.isLt⟩, delta_eq_one]

/-- Repeated squaring keeps the size of a square matrix. -/
theorem size_raise {A : IntMatrix} {side : Nat} (hA : A.size = ⟨side, side⟩) (n : Nat) :
    (A.raise n).size = ⟨side, side⟩ := by
  induction n using Nat.strong_induction_on with
  | _ n ih =>
    rw [raise]
    split
    · obtain ⟨rfl, -⟩ := MatrixSize.mk.inj hA
      rfl
    · have half := ih (n / 2) (by omega)
      dsimp only
      split
      · exact size_mul half half
      · exact size_mul (size_mul half half) hA

/-- Repeated squaring computes the power: the exponent is twice its half, and one more when odd. -/
theorem toMatrix_raise {A : IntMatrix} {side : Nat} (hA : A.size = ⟨side, side⟩) (n : Nat) :
    (A.raise n).toMatrix side side = A.toMatrix side side ^ n := by
  induction n using Nat.strong_induction_on with
  | _ n ih =>
    rw [raise]
    split
    · rename_i zero
      obtain ⟨rfl, -⟩ := MatrixSize.mk.inj hA
      rw [zero, pow_zero, toMatrix_identity]
    · have half := ih (n / 2) (by omega)
      have size := size_raise hA (n / 2)
      have square : ((A.raise (n / 2)).mul (A.raise (n / 2))).toMatrix side side =
          A.toMatrix side side ^ (n / 2 + n / 2) := by
        rw [toMatrix_mul size size, half, pow_add]
      dsimp only
      split
      · rw [square]
        congr 1
        omega
      · rw [toMatrix_mul (size_mul size size) hA, square, ← pow_succ]
        congr 1
        omega

theorem power_ok {A : IntMatrix} {side : Nat} (hA : A.size = ⟨side, side⟩) (n : Nat) :
    A.power n = .ok (A.raise n) := by
  obtain ⟨rfl, square⟩ := MatrixSize.mk.inj hA
  rw [power, if_pos (by simp [isSquare, square])]

/-! ### Affine shape -/

/-- The last column is that of the identity. -/
def IsAffine {side : Nat} (M : Matrix (Fin side) (Fin side) ℤ) : Prop :=
  ∀ i j : Fin side, j.val + 1 = side → M i j = (1 : Matrix (Fin side) (Fin side) ℤ) i j

theorem isAffine_one {side : Nat} : IsAffine (1 : Matrix (Fin side) (Fin side) ℤ) :=
  fun _ _ _ => rfl

theorem IsAffine.mul {side : Nat} {M N : Matrix (Fin side) (Fin side) ℤ} (hM : IsAffine M)
    (hN : IsAffine N) : IsAffine (M * N) := by
  intro i j last
  rw [Matrix.mul_apply, ← hM i j last]
  calc ∑ k, M i k * N k j = ∑ k, M i k * (1 : Matrix (Fin side) (Fin side) ℤ) k j :=
        Finset.sum_congr rfl fun k _ => by rw [hN k j last]
    _ = M i j := by rw [← Matrix.mul_apply, Matrix.mul_one]

theorem IsAffine.pow {side : Nat} {M : Matrix (Fin side) (Fin side) ℤ} (hM : IsAffine M) (n : Nat) :
    IsAffine (M ^ n) := by
  induction n with
  | zero => exact isAffine_one
  | succ n ih => rw [pow_succ]; exact ih.mul hM

end IntMatrix

end AffineLoops
