import AffineLoops.Proofs.MatrixAlgebra

/-!
Products of stored matrices, and their laws. An entry of a product is computed on its own, as a sum that leaves out the
zeros on the left. `accumulate` goes through the factors instead: it starts from zeros and adds each product of two
entries to its place in the result, unless one of the two is zero.

* `Adds`: an update that adds known amounts to the entries of a matrix. One update after another adds the sum of
  the amounts (`Adds.foldl_range`), so nested loops add nested sums.
* `accumulate_eq_mul`: both ways lead to the same matrix.
* `mul_assoc`, `transpose_mul`, `identity_mul`, `mul_identity`: the laws of the ring of matrices, for stored ones.
-/

namespace AffineLoops.IntMatrix

open Matrix

/-! ### Updates that add -/

/-- Places in the row-by-row data are different for different rows or columns. -/
theorem index_inj {cols i j i' j' : Nat} (hj : j < cols) (hj' : j' < cols)
    (same : i * cols + j = i' * cols + j') : i = i' ∧ j = j' := by
  have columns : j = j' := by
    have remainders := congrArg (· % cols) same
    simpa [Nat.mul_add_mod', Nat.mod_eq_of_lt hj, Nat.mod_eq_of_lt hj'] using remainders
  subst columns
  have weighted : i * cols = i' * cols := Nat.add_right_cancel same
  exact ⟨Nat.eq_of_mul_eq_mul_right (Nat.zero_lt_of_lt hj) weighted, rfl⟩

theorem entry_set {A : IntMatrix} {i j : Nat} (hi : i < A.rows) (hj : j < A.cols) (value : Int) {i' j' : Nat}
    (hi' : i' < A.rows) (hj' : j' < A.cols) :
    (A.set i j value).entry i' j' = if i' = i ∧ j' = j then value else A.entry i' j' := by
  have place : i * A.cols + j < A.data.size := A.size_eq ▸ index_lt hi hj
  have same : i * A.cols + j = i' * A.cols + j' ↔ i' = i ∧ j' = j := by
    constructor
    · intro places
      obtain ⟨rfl, rfl⟩ := index_inj hj hj' places
      exact ⟨rfl, rfl⟩
    · rintro ⟨rfl, rfl⟩
      rfl
  rw [← cell_eq_entry hi' hj', ← cell_eq_entry (A := A.set i j value) hi' hj', cell, cell]
  show (A.data.setIfInBounds (i * A.cols + j) value).getD (i' * A.cols + j') 0 = _
  rw [Array.getD_eq_getD_getElem?, Array.getElem?_setIfInBounds, Array.getD_eq_getD_getElem?, if_pos place]
  simp only [same]
  split <;> rfl

/-- An update of the matrices of one size that adds these amounts to the entries. -/
structure Adds (rows cols : Nat) (update : IntMatrix → IntMatrix) (amount : Nat → Nat → Int) : Prop where
  size {C : IntMatrix} : C.size = ⟨rows, cols⟩ → (update C).size = ⟨rows, cols⟩
  entry {C : IntMatrix} : C.size = ⟨rows, cols⟩ → ∀ i j, i < rows → j < cols →
    (update C).entry i j = C.entry i j + amount i j

namespace Adds

variable {rows cols : Nat}

theorem nothing : Adds rows cols (fun C => C) fun _ _ => 0 where
  size same := same
  entry _ _ _ _ _ := (add_zero _).symm

theorem congr {update : IntMatrix → IntMatrix} {amount amount' : Nat → Nat → Int}
    (adds : Adds rows cols update amount) (same : ∀ i j, i < rows → j < cols → amount i j = amount' i j) :
    Adds rows cols update amount' where
  size := adds.size
  entry hC i j hi hj := by rw [adds.entry hC i j hi hj, same i j hi hj]

/-- An update may be passed over where it adds nothing. -/
theorem passOver {update : IntMatrix → IntMatrix} {amount : Nat → Nat → Int} (adds : Adds rows cols update amount)
    {idle : Prop} [Decidable idle] (zero : idle → ∀ i j, amount i j = 0) :
    Adds rows cols (fun C => if idle then C else update C) amount := by
  by_cases passed : idle
  · simp only [if_pos passed]
    exact nothing.congr fun i j _ _ => (zero passed i j).symm
  · simpa only [if_neg passed] using adds

/-- A loop adds what its rounds add. -/
theorem foldl_range {step : IntMatrix → Nat → IntMatrix} {amount : Nat → Nat → Nat → Int} {count : Nat}
    (each : ∀ k < count, Adds rows cols (step · k) (amount k)) :
    Adds rows cols ((List.range count).foldl step) fun i j => ∑ k ∈ Finset.range count, amount k i j := by
  induction count with
  | zero => exact nothing
  | succ count ih =>
    have before := ih fun k within => each k (Nat.lt_succ_of_lt within)
    have last := each count (Nat.lt_succ_self count)
    constructor
    · intro C hC
      rw [List.range_succ, List.foldl_append]
      exact last.size (before.size hC)
    · intro C hC i j hi hj
      rw [List.range_succ, List.foldl_append, Finset.sum_range_succ, ← add_assoc, ← before.entry hC i j hi hj]
      exact last.entry (before.size hC) i j hi hj

/-- A cell that grows by a number. -/
theorem cell {i j : Nat} (hi : i < rows) (hj : j < cols) (number : Int) :
    Adds rows cols (fun C => C.set i j (C.cell i j + number)) fun i' j' => if i' = i ∧ j' = j then number else 0 where
  size same := same
  entry {C} hC i' j' hi' hj' := by
    obtain ⟨rfl, rfl⟩ := MatrixSize.mk.inj hC
    rw [entry_set hi hj _ hi' hj', cell_eq_entry hi hj]
    split
    · rename_i here
      rw [here.1, here.2]
    · rw [add_zero]

end Adds

/-! ### Products in place -/

/-- Adds the product of entry `(i, k)` on the left and entry `(k, j)` on the right to the result. -/
def addProduct (A B : IntMatrix) (i k : Nat) (C : IntMatrix) (j : Nat) : IntMatrix :=
  let factor := B.cell k j
  if factor = 0 then C else C.set i j (C.cell i j + A.cell i k * factor)

/-- Adds row `k` on the right, times entry `(i, k)` on the left, to row `i` of the result. -/
def addRow (A B : IntMatrix) (i : Nat) (C : IntMatrix) (k : Nat) : IntMatrix :=
  if A.cell i k = 0 then C else (List.range B.cols).foldl (A.addProduct B i k) C

/-- The product by additions to a matrix of zeros. -/
def accumulate (A B : IntMatrix) : IntMatrix :=
  (List.range A.rows).foldl (fun C i => (List.range A.cols).foldl (A.addRow B i) C) (zeros A.rows B.cols)

section InPlace

variable {A B : IntMatrix} {i k j : Nat}

theorem entry_mul_range (A B : IntMatrix) (hi : i < A.rows) (hj : j < B.cols) :
    (A.mul B).entry i j = ∑ k ∈ Finset.range A.cols, A.entry i k * B.entry k j := by
  rw [entry_mul A B hi hj, Finset.sum_range fun k => A.entry i k * B.entry k j]

theorem adds_addProduct (hi : i < A.rows) (hj : j < B.cols) :
    Adds A.rows B.cols (A.addProduct B i k · j) fun i' j' =>
      if i' = i ∧ j' = j then A.cell i k * B.cell k j else 0 := by
  refine (Adds.cell hi hj (A.cell i k * B.cell k j)).passOver ?_
  intro zero i' j'
  simp [zero]

theorem adds_addRow (hi : i < A.rows) :
    Adds A.rows B.cols (A.addRow B i · k) fun i' j' => if i' = i then A.cell i k * B.cell k j' else 0 := by
  have row : Adds A.rows B.cols ((List.range B.cols).foldl (A.addProduct B i k)) fun i' j' =>
      if i' = i then A.cell i k * B.cell k j' else 0 := by
    refine (Adds.foldl_range fun j hj => adds_addProduct hi hj).congr ?_
    intro i' j' _ hj'
    by_cases here : i' = i
    · simp [here, hj']
    · simp [here]
  refine row.passOver ?_
  intro zero i' j'
  simp [zero]

/-- Each entry of the result is reached from its own row, once for each shared index. -/
theorem adds_rows (A B : IntMatrix) :
    Adds A.rows B.cols
      ((List.range A.rows).foldl fun C i => (List.range A.cols).foldl (A.addRow B i) C)
      fun i j => ∑ k ∈ Finset.range A.cols, A.cell i k * B.cell k j := by
  refine (Adds.foldl_range fun i hi => Adds.foldl_range fun k _ => adds_addRow hi).congr ?_
  intro i j hi _
  rw [Finset.sum_comm]
  refine Finset.sum_congr rfl fun k _ => ?_
  simp [hi]

theorem size_accumulate (A B : IntMatrix) : (A.accumulate B).size = ⟨A.rows, B.cols⟩ :=
  (adds_rows A B).size rfl

/-- Both ways to a product lead to the same matrix. -/
theorem accumulate_eq_mul (conform : A.cols = B.rows) : A.accumulate B = A.mul B := by
  obtain ⟨rows, cols⟩ := MatrixSize.mk.inj (size_accumulate A B)
  refine ext_entry rows cols fun i j hi hj => ?_
  rw [rows] at hi
  rw [cols] at hj
  rw [entry_mul_range A B hi hj, accumulate, (adds_rows A B).entry rfl i j hi hj, zeros, entry_ofFn, if_pos ⟨hi, hj⟩,
    zero_add]
  refine Finset.sum_congr rfl fun k within => ?_
  have shared : k < A.cols := Finset.mem_range.mp within
  rw [cell_eq_entry hi shared, cell_eq_entry (conform ▸ shared) hj]

end InPlace

/-! ### Laws -/

theorem size_transpose {A : IntMatrix} {rows cols : Nat} (hA : A.size = ⟨rows, cols⟩) :
    A.transpose.size = ⟨cols, rows⟩ := by
  obtain ⟨rfl, rfl⟩ := MatrixSize.mk.inj hA
  rfl

/-- Rows and columns change places; outside the matrix both sides are zero. -/
theorem entry_transpose (A : IntMatrix) (i j : Nat) : A.transpose.entry i j = A.entry j i := by
  rw [transpose, entry_ofFn]
  split
  · rfl
  · rename_i outside
    exact (if_neg fun inside => outside inside.symm).symm

theorem toMatrix_transpose {A : IntMatrix} {rows cols : Nat} (hA : A.size = ⟨rows, cols⟩) :
    A.transpose.toMatrix cols rows = (A.toMatrix rows cols)ᵀ := by
  obtain ⟨rfl, rfl⟩ := MatrixSize.mk.inj hA
  ext i j
  rw [toMatrix_apply, entry_transpose]
  rfl

section Laws

variable {A B C : IntMatrix}

/-- The size on the right, when it fits the left. -/
theorem size_right (conform : A.cols = B.rows) : B.size = ⟨A.cols, B.cols⟩ := by
  rw [size, conform]

protected theorem mul_assoc (conform : A.cols = B.rows) (conform' : B.cols = C.rows) :
    (A.mul B).mul C = A.mul (B.mul C) := by
  have hA : A.size = ⟨A.rows, A.cols⟩ := rfl
  have hB := size_right conform
  have hC := size_right conform'
  refine eq_of_toMatrix (size_mul (size_mul hA hB) hC) (size_mul hA (size_mul hB hC)) ?_
  rw [toMatrix_mul (size_mul hA hB) hC, toMatrix_mul hA hB, toMatrix_mul hA (size_mul hB hC), toMatrix_mul hB hC,
    Matrix.mul_assoc]

theorem transpose_mul (conform : A.cols = B.rows) : (A.mul B).transpose = B.transpose.mul A.transpose := by
  have hA : A.size = ⟨A.rows, A.cols⟩ := rfl
  have hB := size_right conform
  have hA' := size_transpose hA
  have hB' := size_transpose hB
  refine eq_of_toMatrix (size_transpose (size_mul hA hB)) (size_mul hB' hA') ?_
  rw [toMatrix_transpose (size_mul hA hB), toMatrix_mul hA hB, toMatrix_mul hB' hA', toMatrix_transpose hA,
    toMatrix_transpose hB, Matrix.transpose_mul]

theorem identity_mul (A : IntMatrix) : (identity A.rows).mul A = A := by
  have hA : A.size = ⟨A.rows, A.cols⟩ := rfl
  refine eq_of_toMatrix (size_mul (size_identity _) hA) hA ?_
  rw [toMatrix_mul (size_identity _) hA, toMatrix_identity, Matrix.one_mul]

theorem mul_identity (A : IntMatrix) : A.mul (identity A.cols) = A := by
  have hA : A.size = ⟨A.rows, A.cols⟩ := rfl
  refine eq_of_toMatrix (size_mul hA (size_identity _)) hA ?_
  rw [toMatrix_mul hA (size_identity _), toMatrix_identity, Matrix.mul_one]

end Laws

/-! ### Products -/

/-- Products of matrices of any sizes, also empty ones. A product exists unless the columns on the left differ in
number from the rows on the right. Its entries are the sums over the shared index, and additions in place that pass
over the zeros of both factors give the same matrix. Products of three matrices do not depend on where one begins, the
identity on either side changes nothing, and a transposed product is the product of the transposed factors, in the
other order, where the transposed matrix has the entries of the other with row and column exchanged. -/
theorem multiply_eq_sums (A B : IntMatrix) :
    (A.multiply B = .error (.dimensionMismatch A.size B.size) ↔ A.cols ≠ B.rows) ∧
      (A.cols = B.rows → ∃ P, A.multiply B = .ok P ∧ P.size = ⟨A.rows, B.cols⟩ ∧
        (∀ i j, i < A.rows → j < B.cols →
          P.entry i j = ∑ k ∈ Finset.range A.cols, A.entry i k * B.entry k j) ∧
        A.accumulate B = P ∧ B.transpose.multiply A.transpose = .ok P.transpose) ∧
      (∀ C : IntMatrix, A.cols = B.rows → B.cols = C.rows →
        ∃ P, (do (← A.multiply B).multiply C) = .ok P ∧ (do A.multiply (← B.multiply C)) = .ok P) ∧
      (identity A.rows).multiply A = .ok A ∧ A.multiply (identity A.cols) = .ok A ∧
      A.transpose.size = ⟨A.cols, A.rows⟩ ∧ ∀ i j, A.transpose.entry i j = A.entry j i := by
  refine ⟨?_, ?_, ?_, ?_, ?_, size_transpose rfl, entry_transpose A⟩
  · by_cases conform : A.cols = B.rows
    · simp [multiply, conform]
    · simp [multiply, conform]
  · intro conform
    have hB := size_right conform
    refine ⟨A.mul B, multiply_ok rfl hB, rfl, ?_, accumulate_eq_mul conform, ?_⟩
    · intro i j hi hj
      exact entry_mul_range A B hi hj
    · rw [transpose_mul conform]
      exact multiply_ok (size_transpose hB) rfl
  · intro C conform conform'
    have hB := size_right conform
    have hC := size_right conform'
    refine ⟨(A.mul B).mul C, ?_, ?_⟩
    · rw [multiply_ok rfl hB]
      exact multiply_ok rfl hC
    · rw [multiply_ok rfl hC, IntMatrix.mul_assoc conform conform']
      exact multiply_ok rfl (size_mul hB hC)
  · rw [multiply_ok (size_identity _) rfl, identity_mul]
  · rw [multiply_ok rfl (size_identity _), mul_identity]

def sparse : IntMatrix := ⟨2, 3, #[1, 0, -2, 0, 0, 3], rfl⟩

def tall : IntMatrix := ⟨3, 2, #[4, 0, 5, 6, 0, 7], rfl⟩

theorem sparse_multiply_eq_sums :
    (∃ P, sparse.multiply tall = .ok P ∧ P.entry 0 1 = -14 ∧ P.entry 1 0 = 0 ∧ sparse.accumulate tall = P ∧
        tall.transpose.multiply sparse.transpose = .ok P.transpose ∧
        P.transpose.entry 1 0 = -14 ∧ P.transpose.entry 0 1 = 0) ∧
      (∃ P, (do (← sparse.multiply tall).multiply sparse) = .ok P ∧
        (do sparse.multiply (← tall.multiply sparse)) = .ok P) ∧
      sparse.multiply sparse = .error (.dimensionMismatch ⟨2, 3⟩ ⟨2, 3⟩) ∧
      ∃ P, (zeros 2 0).multiply (zeros 0 3) = .ok P ∧ P.size = ⟨2, 3⟩ := by
  obtain ⟨-, product, associative, -⟩ := multiply_eq_sums sparse tall
  obtain ⟨P, multiplied, -, entries, inPlace, transposed⟩ := product rfl
  obtain ⟨empty, emptyProduct, size, -⟩ := (multiply_eq_sums (zeros 2 0) (zeros 0 3)).2.1 rfl
  obtain ⟨-, -, -, -, -, -, exchanged⟩ := multiply_eq_sums P P
  have above : P.entry 0 1 = -14 := entries 0 1 (by decide) (by decide)
  have below : P.entry 1 0 = 0 := entries 1 0 (by decide) (by decide)
  refine ⟨⟨P, multiplied, above, below, inPlace, transposed, ?_, ?_⟩, associative sparse rfl rfl, ?_, empty,
    emptyProduct, size⟩
  · rw [exchanged, above]
  · rw [exchanged, below]
  · exact (multiply_eq_sums sparse sparse).1.mpr (by decide)

end AffineLoops.IntMatrix
