import AffineLoops.IntMatrix.RowFolding
import AffineLoops.Proofs.MatrixAlgebra

/-!
Row folding computes the power it replaces. With `r` the reduced matrix put back into an identity and `f`
the last factor, an affine matrix `M` satisfies

* `M = r * f` (`expand_mul_fix`): one step is a step of the kept indices followed by the overwriting;
* `f * M = M` (`fix_mul`): overwriting before a step is lost, since no step reads an overwritten variable;
* putting back is multiplicative (`expand_mul`), so a power of the reduced matrix goes back to a power of `r`.

Hence `M ^ n = (r * f) ^ n = r ^ n * f` for every `n ≥ 1`, which is what `RowFolding.power` computes.
-/

namespace AffineLoops.RowFolding

open Matrix IntMatrix

variable {mat : IntMatrix}

/-! ### The classes of variables -/

theorem isolated_row {index j : Nat} (h : isolated mat index = true) (hj : j < mat.rows) (ne : j ≠ index) :
    mat.entry index j = 0 := by
  simp only [isolated, Bool.and_eq_true, List.all_eq_true, List.mem_range] at h
  simpa [ne] using h.1 j hj

theorem isolated_column {index i : Nat} (h : isolated mat index = true) (hi : i < unitIndex mat)
    (ne : i ≠ index) : mat.entry i index = 0 := by
  simp only [isolated, Bool.and_eq_true, List.all_eq_true, List.mem_range] at h
  simpa [ne] using h.2 i hi

/-- Nothing reads an overwritten variable. -/
theorem overwritten_row {index j : Nat} (h : overwritten mat index = true) (hj : j < mat.rows) :
    mat.entry index j = 0 := by
  simp only [overwritten, Bool.and_eq_true, decide_eq_true_eq] at h
  by_cases same : j = index
  · rw [same]; exact h.2
  · exact isolated_row h.1 hj same

/-- An overwritten variable reads only the constant one. -/
theorem overwritten_column {index i : Nat} (h : overwritten mat index = true) (hi : i < unitIndex mat) :
    mat.entry i index = 0 := by
  simp only [overwritten, Bool.and_eq_true, decide_eq_true_eq] at h
  by_cases same : i = index
  · rw [same]; exact h.2
  · exact isolated_column h.1 hi same

/-- An untouched variable keeps its own value. -/
theorem untouched_column {index i : Nat} (h : untouched mat index = true) (hi : i < mat.rows)
    (inner : index < unitIndex mat) : mat.entry i index = delta i index := by
  simp only [untouched, Bool.and_eq_true, decide_eq_true_eq] at h
  obtain ⟨⟨alone, diagonal⟩, constant⟩ := h
  by_cases same : i = index
  · rw [same, diagonal, delta, if_pos rfl]
  · rw [delta, if_neg same]
    by_cases last : i = unitIndex mat
    · rw [last]; exact constant
    · exact isolated_column alone (by unfold unitIndex at *; omega) same

theorem mem_keptVariables {index : Nat} : index ∈ keptVariables mat ↔
    index < unitIndex mat ∧ overwritten mat index = false ∧ untouched mat index = false := by
  simp [keptVariables, List.mem_filter, List.mem_range]

theorem mem_keptIndices_of_lt {index : Nat} (inner : index < unitIndex mat) :
    index ∈ keptIndices mat ↔ index ∈ keptVariables mat := by
  unfold keptIndices
  dsimp only
  split
  · simp [Nat.ne_of_lt inner]
  · rfl

/-- A variable that does not stay is overwritten or untouched. -/
theorem dropped {index : Nat} (inner : index < unitIndex mat) (out : index ∉ keptIndices mat) :
    overwritten mat index = true ∨ untouched mat index = true := by
  rw [mem_keptIndices_of_lt inner, mem_keptVariables] at out
  by_cases ow : overwritten mat index = true
  · exact .inl ow
  · exact .inr (by simpa [inner, ow] using out)

theorem dropped_isolated {index : Nat} (inner : index < unitIndex mat) (out : index ∉ keptIndices mat) :
    isolated mat index = true := by
  rcases dropped inner out with ow | same
  · simp only [overwritten, Bool.and_eq_true] at ow
    exact ow.1
  · simp only [untouched, Bool.and_eq_true] at same
    exact same.1.1

/-- Without the constant one, no variable that stays has a constant term. -/
theorem unit_row_of_dropped {index : Nat} (out : unitIndex mat ∉ keptIndices mat)
    (stays : index ∈ keptIndices mat) : mat.entry (unitIndex mat) index = 0 := by
  unfold keptIndices at out stays
  dsimp only at out stays
  split at out
  · simp at out
  · rename_i none_has
    rw [if_neg none_has] at stays
    by_contra nonzero
    exact none_has (List.any_eq_true.mpr ⟨index, stays, by simpa using nonzero⟩)

theorem nodup_keptIndices : (keptIndices mat).Nodup := by
  have inner : (keptVariables mat).Nodup := List.nodup_range.filter _
  unfold keptIndices
  dsimp only
  split
  · refine List.nodup_append.mpr ⟨inner, List.nodup_singleton _, ?_⟩
    intro a ha b hb
    rw [List.mem_singleton.mp hb]
    exact Nat.ne_of_lt (mem_keptVariables.mp ha).1
  · exact inner

theorem lt_of_mem_keptIndices {index : Nat} (positive : 0 < mat.rows) (h : index ∈ keptIndices mat) :
    index < mat.rows := by
  by_cases inner : index < unitIndex mat
  · unfold unitIndex at inner; omega
  · unfold keptIndices at h
    dsimp only at h
    split at h
    · rcases List.mem_append.mp h with stays | last
      · exact absurd (mem_keptVariables.mp stays).1 inner
      · rw [List.mem_singleton.mp last, unitIndex]; omega
    · exact absurd (mem_keptVariables.mp h).1 inner

/-! ### Putting a reduced matrix back -/

section Expand

variable {folding : RowFolding} {side : Nat} {X Y : IntMatrix}

theorem expand_kept (hside : folding.fix.rows = side) (nodup : folding.kept.Nodup)
    (hX : X.size = ⟨folding.kept.length, folding.kept.length⟩) {i j : Fin side}
    {y x : Fin folding.kept.length} (hi : folding.kept.get y = i) (hj : folding.kept.get x = j) :
    (folding.expand X).toMatrix side side i j =
      X.toMatrix folding.kept.length folding.kept.length y x := by
  have place : ∀ z : Fin folding.kept.length, folding.kept.idxOf? (folding.kept.get z) = some z.val := by
    intro z
    refine List.idxOf?_eq_some_iff.mpr ⟨z.isLt, rfl, fun k hk same => ?_⟩
    exact Nat.ne_of_lt hk ((List.Nodup.getElem_inj_iff nodup).mp same)
  obtain ⟨hrows, hcols⟩ := MatrixSize.mk.inj hX
  rw [toMatrix_apply, expand, entry_ofFn, if_pos (by rw [hside]; exact ⟨i.isLt, j.isLt⟩), ← hi, ← hj,
    place y, place x]
  exact cell_eq_entry (by rw [hrows]; exact y.isLt) (by rw [hcols]; exact x.isLt)

theorem expand_dropped (hside : folding.fix.rows = side) {i j : Fin side}
    (out : i.val ∉ folding.kept ∨ j.val ∉ folding.kept) :
    (folding.expand X).toMatrix side side i j = (1 : Matrix (Fin side) (Fin side) ℤ) i j := by
  rw [toMatrix_apply, expand, entry_ofFn, if_pos (by rw [hside]; exact ⟨i.isLt, j.isLt⟩), ← delta_eq_one]
  rcases out with out | out
  · rw [List.idxOf?_eq_none_iff.mpr out]
  · rw [List.idxOf?_eq_none_iff.mpr out]
    cases folding.kept.idxOf? i.val <;> rfl

/-- Putting back is multiplicative: a product reads and writes kept indices only among themselves. -/
theorem expand_mul (hside : folding.fix.rows = side) (nodup : folding.kept.Nodup)
    (bounded : ∀ index ∈ folding.kept, index < side)
    (hX : X.size = ⟨folding.kept.length, folding.kept.length⟩)
    (hY : Y.size = ⟨folding.kept.length, folding.kept.length⟩) :
    (folding.expand (X.mul Y)).toMatrix side side =
      (folding.expand X).toMatrix side side * (folding.expand Y).toMatrix side side := by
  have hXY := size_mul hX hY
  ext i j
  by_cases hi : i.val ∈ folding.kept
  · obtain ⟨y, hy⟩ := List.get_of_mem hi
    -- Only kept indices contribute: a kept row is zero elsewhere.
    let place : Fin folding.kept.length → Fin side := fun z =>
      ⟨folding.kept.get z, bounded _ (List.get_mem _ z)⟩
    have injective : Function.Injective place := fun a b same =>
      (List.Nodup.injective_get nodup) (Fin.ext_iff.mp same)
    have restricted : ((folding.expand X).toMatrix side side * (folding.expand Y).toMatrix side side) i j =
        ∑ z, X.toMatrix folding.kept.length folding.kept.length y z *
          (folding.expand Y).toMatrix side side (place z) j := by
      rw [Matrix.mul_apply]
      refine (Fintype.sum_of_injective place injective _ _ (fun l hl => ?_) (fun z => ?_)).symm
      · have out : l.val ∉ folding.kept := by
          intro member
          obtain ⟨z, hz⟩ := List.get_of_mem member
          exact hl ⟨z, Fin.ext hz⟩
        have ne : i ≠ l := fun same => out (same ▸ hi)
        rw [expand_dropped hside (.inr out), Matrix.one_apply_ne ne, zero_mul]
      · rw [expand_kept hside nodup hX (j := place z) hy rfl]
    rw [restricted]
    by_cases hj : j.val ∈ folding.kept
    · obtain ⟨x, hx⟩ := List.get_of_mem hj
      rw [expand_kept hside nodup hXY hy hx, toMatrix_mul hX hY, Matrix.mul_apply]
      refine Finset.sum_congr rfl fun z _ => ?_
      rw [expand_kept hside nodup hY (i := place z) rfl hx]
    · have ne : i ≠ j := fun same => hj (same ▸ hi)
      rw [expand_dropped hside (.inr hj), Matrix.one_apply_ne ne]
      refine (Finset.sum_eq_zero fun z _ => ?_).symm
      have away : place z ≠ j := fun same => hj (same ▸ List.get_mem _ z)
      rw [expand_dropped hside (.inr hj), Matrix.one_apply_ne away, mul_zero]
  · have row : ∀ l, (folding.expand X).toMatrix side side i l =
        (1 : Matrix (Fin side) (Fin side) ℤ) i l := fun l => expand_dropped hside (.inl hi)
    rw [Matrix.mul_apply]
    simp only [row]
    rw [← Matrix.mul_apply, Matrix.one_mul, expand_dropped hside (.inl hi), expand_dropped hside (.inl hi)]

theorem expand_identity (hside : folding.fix.rows = side) (nodup : folding.kept.Nodup) :
    (folding.expand (identity folding.kept.length)).toMatrix side side = 1 := by
  ext i j
  by_cases both : i.val ∈ folding.kept ∧ j.val ∈ folding.kept
  · obtain ⟨y, hy⟩ := List.get_of_mem both.1
    obtain ⟨x, hx⟩ := List.get_of_mem both.2
    rw [expand_kept hside nodup (size_identity _) hy hx, toMatrix_identity, Matrix.one_apply,
      Matrix.one_apply]
    have same : y = x ↔ i = j := by
      rw [Fin.ext_iff (a := i), ← hy, ← hx]
      exact (List.Nodup.injective_get nodup).eq_iff.symm
    simp only [same]
  · exact expand_dropped hside (by tauto)

/-- A power of the reduced matrix goes back to a power of what the matrix itself goes back to. -/
theorem expand_raise (hside : folding.fix.rows = side) (nodup : folding.kept.Nodup)
    (bounded : ∀ index ∈ folding.kept, index < side)
    (hX : X.size = ⟨folding.kept.length, folding.kept.length⟩) (n : Nat) :
    (folding.expand (X.raise n)).toMatrix side side = (folding.expand X).toMatrix side side ^ n := by
  induction n with
  | zero =>
    have none : X.raise 0 = identity folding.kept.length := by
      rw [raise, if_pos rfl, (MatrixSize.mk.inj hX).1]
    rw [none, expand_identity hside nodup, pow_zero]
  | succ n ih =>
    have more : X.raise (n + 1) = (X.raise n).mul X := by
      refine eq_of_toMatrix (size_raise hX _) (size_mul (size_raise hX n) hX) ?_
      rw [toMatrix_raise hX, toMatrix_mul (size_raise hX n) hX, toMatrix_raise hX, pow_succ]
    rw [more, expand_mul hside nodup bounded (size_raise hX n) hX, ih, pow_succ]

end Expand

/-! ### One step and its powers -/

section Power

variable {side : Nat}

theorem fix_apply (hmat : mat.size = ⟨side, side⟩) (i j : Fin side) :
    (fixMatrix mat).toMatrix side side i j =
      if j.val < unitIndex mat ∧ overwritten mat j.val = true then
        if i.val = unitIndex mat then mat.toMatrix side side i j else 0
      else (1 : Matrix (Fin side) (Fin side) ℤ) i j := by
  have hrows := (MatrixSize.mk.inj hmat).1
  rw [toMatrix_apply, fixMatrix, entry_ofFn, if_pos (by rw [hrows]; exact ⟨i.isLt, j.isLt⟩), delta_eq_one]
  rfl

/-- Overwriting before a step is lost: no step reads an overwritten variable. -/
theorem fix_mul (hmat : mat.size = ⟨side, side⟩) :
    (fixMatrix mat).toMatrix side side * mat.toMatrix side side = mat.toMatrix side side := by
  have hrows := (MatrixSize.mk.inj hmat).1
  ext i j
  rw [Matrix.mul_apply]
  calc ∑ l, (fixMatrix mat).toMatrix side side i l * mat.toMatrix side side l j
      = ∑ l, (1 : Matrix (Fin side) (Fin side) ℤ) i l * mat.toMatrix side side l j := by
        refine Finset.sum_congr rfl fun l _ => ?_
        rw [fix_apply hmat]
        split
        · rename_i ow
          have zero : mat.toMatrix side side l j = 0 :=
            overwritten_row ow.2 (by rw [hrows]; exact j.isLt)
          rw [zero, mul_zero, mul_zero]
        · rfl
    _ = mat.toMatrix side side i j := by rw [← Matrix.mul_apply, Matrix.one_mul]

/-- The reduced matrix of the analysis. -/
def reduced (mat : IntMatrix) : RowFolding where
  lite := ofFn (keptIndices mat).length (keptIndices mat).length fun y x =>
    mat.entry ((keptIndices mat).getD y 0) ((keptIndices mat).getD x 0)
  kept := keptIndices mat
  fix := fixMatrix mat

theorem analyze_ok (hmat : mat.size = ⟨side, side⟩) : analyze mat = .ok (reduced mat) := by
  obtain ⟨rfl, square⟩ := MatrixSize.mk.inj hmat
  rw [analyze, if_pos (by simp [isSquare, square])]
  rfl

/-- Between kept indices the reduced matrix has the entries of the matrix itself. -/
theorem lite_apply (y x : Fin (keptIndices mat).length) :
    (reduced mat).lite.toMatrix (keptIndices mat).length (keptIndices mat).length y x =
      mat.entry ((keptIndices mat).get y) ((keptIndices mat).get x) := by
  rw [toMatrix_apply, reduced, entry_ofFn, if_pos ⟨y.isLt, x.isLt⟩]
  simp [List.getD_eq_getElem?_getD]

/-- Away from the overwritten columns, a step is a step of the kept indices. -/
theorem expand_lite_apply (hmat : mat.size = ⟨side, side⟩) (affine : IsAffine (mat.toMatrix side side))
    {i j : Fin side} (other : ¬(j.val < unitIndex mat ∧ overwritten mat j.val = true)) :
    ((reduced mat).expand (reduced mat).lite).toMatrix side side i j = mat.toMatrix side side i j := by
  have hrows := (MatrixSize.mk.inj hmat).1
  have hside : (reduced mat).fix.rows = side := hrows
  have hi : i.val < mat.rows := by rw [hrows]; exact i.isLt
  have hj : j.val < mat.rows := by rw [hrows]; exact j.isLt
  have last : unitIndex mat + 1 = side := by unfold unitIndex; omega
  by_cases both : i.val ∈ keptIndices mat ∧ j.val ∈ keptIndices mat
  · obtain ⟨y, hy⟩ := List.get_of_mem both.1
    obtain ⟨x, hx⟩ := List.get_of_mem both.2
    refine (expand_kept hside nodup_keptIndices rfl hy hx).trans ((lite_apply y x).trans ?_)
    rw [hy, hx, toMatrix_apply]
  · rw [expand_dropped hside (not_and_or.mp both)]
    by_cases constant : j.val + 1 = side
    · exact (affine i j constant).symm
    have inner : j.val < unitIndex mat := by omega
    by_cases stays : j.val ∈ keptIndices mat
    · -- A dropped index does not enter a kept variable.
      have out : i.val ∉ keptIndices mat := fun member => both ⟨member, stays⟩
      have ne : i ≠ j := fun same => out (same ▸ stays)
      rw [Matrix.one_apply_ne ne, toMatrix_apply]
      by_cases unit : i.val = unitIndex mat
      · rw [unit] at out ⊢
        exact (unit_row_of_dropped out stays).symm
      · exact (isolated_row (dropped_isolated (by omega) out) hj fun same => ne (Fin.ext same.symm)).symm
    · rcases dropped inner stays with ow | same
      · exact absurd ⟨inner, ow⟩ other
      · rw [toMatrix_apply, untouched_column same hi inner, delta_eq_one]

/-- One step of an affine matrix is a step of the kept indices followed by the overwriting. -/
theorem expand_mul_fix (hmat : mat.size = ⟨side, side⟩) (affine : IsAffine (mat.toMatrix side side)) :
    ((reduced mat).expand (reduced mat).lite).toMatrix side side * (fixMatrix mat).toMatrix side side =
      mat.toMatrix side side := by
  have hrows := (MatrixSize.mk.inj hmat).1
  ext i j
  have last : unitIndex mat + 1 = side := by
    have := i.isLt
    unfold unitIndex
    omega
  rw [Matrix.mul_apply]
  by_cases ow : j.val < unitIndex mat ∧ overwritten mat j.val = true
  · let unit : Fin side := ⟨unitIndex mat, by omega⟩
    have column : ∀ l, (fixMatrix mat).toMatrix side side l j =
        if l = unit then mat.toMatrix side side l j else 0 := by
      intro l
      rw [fix_apply hmat, if_pos ow]
      simp only [Fin.ext_iff, unit]
    have weight : ((reduced mat).expand (reduced mat).lite).toMatrix side side i unit =
        (1 : Matrix (Fin side) (Fin side) ℤ) i unit := by
      rw [expand_lite_apply hmat affine fun h => Nat.lt_irrefl _ h.1]
      exact affine i unit last
    simp only [column, mul_ite, mul_zero, Finset.sum_ite_eq', Finset.mem_univ, if_true, weight]
    by_cases same : i = unit
    · rw [same, Matrix.one_apply_eq, one_mul]
    · have off : i.val ≠ unitIndex mat := fun h => same (Fin.ext h)
      have inner : i.val < unitIndex mat := by have := i.isLt; omega
      rw [Matrix.one_apply_ne same, zero_mul, toMatrix_apply, overwritten_column ow.2 inner]
  · have column : ∀ l, (fixMatrix mat).toMatrix side side l j =
        (1 : Matrix (Fin side) (Fin side) ℤ) l j := fun l => by rw [fix_apply hmat, if_neg ow]
    simp only [column]
    rw [← Matrix.mul_apply, Matrix.mul_one, expand_lite_apply hmat affine ow]

/-- A factor that a step absorbs on its left needs to stand only once, after all steps. -/
theorem pow_succ_of_absorb {R : Type} [Monoid R] {r f : R} (absorb : f * (r * f) = r * f) (m : Nat) :
    (r * f) ^ (m + 1) = r ^ (m + 1) * f := by
  induction m with
  | zero => rw [pow_one, pow_one]
  | succ m ih => rw [pow_succ, ih, mul_assoc, absorb, ← mul_assoc, ← pow_succ]

/-- The power of the reduced matrix, put back, is the power of the whole matrix, for one step or more. -/
theorem restore_raise (hmat : mat.size = ⟨side, side⟩) (affine : IsAffine (mat.toMatrix side side)) {n : Nat}
    (steps : 0 < n) : (reduced mat).restore ((reduced mat).lite.raise n) = .ok (mat.raise n) := by
  obtain ⟨hrows, hcols⟩ := MatrixSize.mk.inj hmat
  have hside : (reduced mat).fix.rows = side := hrows
  have bounded : ∀ index ∈ (reduced mat).kept, index < side := by
    intro index member
    by_cases empty : mat.rows = 0
    · simp [reduced, keptIndices, keptVariables, unitIndex, empty] at member
    · rw [← hrows]; exact lt_of_mem_keptIndices (Nat.pos_of_ne_zero empty) member
  have hlite : (reduced mat).lite.size = ⟨(reduced mat).kept.length, (reduced mat).kept.length⟩ := rfl
  have hexpand : ((reduced mat).expand ((reduced mat).lite.raise n)).size = ⟨side, side⟩ := by
    rw [← hside]; rfl
  have hfix : (reduced mat).fix.size = ⟨side, side⟩ := by
    rw [← hrows]; rfl
  rw [restore, multiply_ok hexpand hfix]
  congr 1
  refine eq_of_toMatrix (size_mul hexpand hfix) (size_raise hmat n) ?_
  rw [toMatrix_mul hexpand hfix, expand_raise hside nodup_keptIndices bounded hlite,
    toMatrix_raise hmat]
  have step := expand_mul_fix hmat affine
  have absorb := fix_mul hmat
  obtain ⟨m, rfl⟩ : ∃ m, n = m + 1 := ⟨n - 1, by omega⟩
  rw [← step] at absorb ⊢
  exact (pow_succ_of_absorb absorb m).symm

/-- Row folding is invisible on affine matrices: it gives the power of the whole matrix. -/
theorem power_eq_raise (hmat : mat.size = ⟨side, side⟩) (affine : IsAffine (mat.toMatrix side side))
    (n : Nat) : power mat n = .ok (mat.raise n) := by
  obtain ⟨hrows, hcols⟩ := MatrixSize.mk.inj hmat
  by_cases zero : n = 0
  · rw [power, if_pos zero, if_pos (by simp [isSquare, hrows, hcols]), zero, raise, if_pos rfl]
  · have hlite : (reduced mat).lite.size = ⟨(reduced mat).kept.length, (reduced mat).kept.length⟩ := rfl
    rw [power, if_neg zero, analyze_ok hmat]
    simp only [bind, Except.bind, power_ok hlite]
    exact restore_raise hmat affine (Nat.pos_of_ne_zero zero)

end Power

/-- The last column, entry by entry, is that of the identity. -/
theorem isAffine_of_lastColumn {mat : IntMatrix}
    (lastColumn : ∀ row < mat.rows, mat.entry row (mat.rows - 1) = if row + 1 = mat.rows then 1 else 0) :
    IsAffine (mat.toMatrix mat.rows mat.rows) := by
  intro row col last
  have isLast : col.val = mat.rows - 1 := by omega
  have same : row.val + 1 = mat.rows ↔ row = col := by
    rw [Fin.ext_iff]
    omega
  rw [toMatrix_apply, isLast, lastColumn row row.isLt, Matrix.one_apply]
  simp only [same]

/-- Row folding agrees with the plain power. Take a square matrix of any side whose last column is zero except
for a one in the last row, and any exponent. Both powers succeed, with the same matrix, which has the entries
of the power in the ring of matrices. If the exponent is positive, the power of the reduced matrix goes back
to that very matrix. -/
theorem folded_power_eq_plain {mat : IntMatrix} (square : mat.isSquare = true)
    (lastColumn : ∀ row < mat.rows, mat.entry row (mat.rows - 1) = if row + 1 = mat.rows then 1 else 0)
    (n : Nat) :
    ∃ result, RowFolding.power mat n = .ok result ∧ mat.power n = .ok result ∧ result.size = mat.size ∧
      result.toMatrix mat.rows mat.rows = mat.toMatrix mat.rows mat.rows ^ n ∧
      (0 < n → ∃ folding litePower, analyze mat = .ok folding ∧ folding.lite.power n = .ok litePower ∧
        folding.restore litePower = .ok result) := by
  have cols : mat.rows = mat.cols := by simpa [isSquare] using square
  have hmat : mat.size = ⟨mat.rows, mat.rows⟩ := by rw [size, ← cols]
  have affine := isAffine_of_lastColumn lastColumn
  have hlite : (reduced mat).lite.size = ⟨(reduced mat).kept.length, (reduced mat).kept.length⟩ := rfl
  refine ⟨mat.raise n, power_eq_raise hmat affine n, power_ok hmat n, ?_, toMatrix_raise hmat n, ?_⟩
  · rw [size_raise hmat, hmat]
  · intro steps
    exact ⟨reduced mat, _, analyze_ok hmat, power_ok hlite n, restore_raise hmat affine steps⟩

/-- A round of `a += 3 * b + 2; c = 7`, with a variable `d` that no round touches. -/
def mixedRound : IntMatrix :=
  ⟨5, 5, #[1, 0, 0, 0, 0, 3, 1, 0, 0, 0, 0, 0, 0, 0, 0, 0, 0, 0, 1, 0, 2, 0, 7, 0, 1], rfl⟩

/-- Of the five indices, the analysis drops the overwritten variable and the untouched one. -/
theorem mixedRound_folded_power :
    keptIndices mixedRound = [0, 1, 4] ∧
      ∃ result, RowFolding.power mixedRound 6 = .ok result ∧ mixedRound.power 6 = .ok result ∧
        result.toMatrix 5 5 = mixedRound.toMatrix 5 5 ^ 6 := by
  have square : mixedRound.isSquare = true := by decide
  obtain ⟨result, folded, plain, -, entries, -⟩ := folded_power_eq_plain square (by decide) 6
  exact ⟨by decide, result, folded, plain, entries⟩

end AffineLoops.RowFolding
