import AffineLoops.Proofs.EngineMeaning
import AffineLoops.Proofs.Outcomes

/-!
Row folding cannot be seen. Every matrix that the scan of a program comes across has the shape of a
transition (`Shaped`): one row and one column for each variable and for the constant one, and the last column
of the identity. On that shape the folded power is the plain one, so that the two engines take the same steps,
errors included.

* `step_eq_of_shaped` and `Progress.Shaped.step`: the engines agree on one instruction, which keeps the shape.
* `scan_eq_of_shaped`: so they agree on a whole program, also on one that fails, and what comes out is shaped.
-/

namespace AffineLoops.Engine

open IntMatrix

/-! ### The shape of a transition -/

/-- A square matrix with a row for each variable and one for the constant, whose last column is that of the
identity. -/
structure Shaped (vars : Nat) (A : IntMatrix) : Prop where
  size : A.size = ⟨vars + 1, vars + 1⟩
  affine : IsAffine (A.toMatrix (vars + 1) (vars + 1))

variable {vars : Nat}

theorem shaped_identity : Shaped vars (identity (vars + 1)) := by
  constructor
  · exact size_identity (vars + 1)
  · rw [toMatrix_identity]
    exact isAffine_one

theorem shaped_update {dest : Nat} (hdest : dest < vars) (weights : Nat → Int) :
    Shaped vars (Engine.update vars dest weights) :=
  ⟨rfl, isAffine_update hdest weights⟩

namespace Shaped

variable {A B : IntMatrix}

theorem mul (hA : Shaped vars A) (hB : Shaped vars B) : Shaped vars (A.mul B) := by
  constructor
  · exact size_mul hA.size hB.size
  · rw [toMatrix_mul hA.size hB.size]
    exact hA.affine.mul hB.affine

theorem raise (hA : Shaped vars A) (count : Nat) : Shaped vars (A.raise count) := by
  constructor
  · exact size_raise hA.size count
  · rw [toMatrix_raise hA.size]
    exact hA.affine.pow count

theorem compose_eq (hA : Shaped vars A) (hB : Shaped vars B) : compose A B = .ok (A.mul B) :=
  compose_ok hA.size hB.size

theorem loopPower_eq (hA : Shaped vars A) (engine : Engine) (count : Nat) :
    engine.loopPower A count = .ok (A.raise count) :=
  loopPower_ok engine hA.size hA.affine count

/-- The last column, entry by entry. -/
theorem entry_last (hA : Shaped vars A) {row : Nat} (inside : row < vars + 1) :
    A.entry row vars = if row = vars then 1 else 0 := by
  have last := hA.affine ⟨row, inside⟩ (Fin.last vars) rfl
  rw [toMatrix_apply, Matrix.one_apply] at last
  simpa [Fin.ext_iff] using last

end Shaped

theorem shaped_stepMatrix {instr : Instr Resolved} {matrix : IntMatrix}
    (stepped : stepMatrix vars instr = .ok matrix) : Shaped vars matrix := by
  obtain ⟨isUpdate, fits⟩ := fits_of_stepMatrix stepped
  obtain ⟨dest, weights, hdest, updates, -⟩ := stepMatrix_ok isUpdate fits
  rw [updates] at stepped
  cases stepped
  exact shaped_update hdest weights

/-! ### One instruction -/

/-- Every product that a scan holds is shaped. -/
structure Progress.Shaped (vars : Nat) (progress : Progress) : Prop where
  product : Engine.Shaped vars progress.product
  before : ∀ block ∈ progress.enclosing, Engine.Shaped vars block.before

theorem progress_shaped_start (vars : Nat) : Progress.Shaped vars ⟨identity (vars + 1), []⟩ where
  product := shaped_identity
  before := by simp

/-- Only the end of a loop looks at the engine's choice, and there both powers are the plain one. -/
theorem step_eq_of_shaped (engine other : Engine) {progress : Progress} (shaped : progress.Shaped vars)
    (index : Nat) (instr : Instr Resolved) :
    engine.step vars index instr progress = other.step vars index instr progress := by
  cases instr with
  | endLoop =>
    cases enclosing : progress.enclosing with
    | nil => simp only [Engine.step, enclosing]
    | cons block outer =>
      simp only [Engine.step, enclosing, shaped.product.loopPower_eq]
  | mov | add | sub | mul | loop => rfl

/-- An instruction keeps the shape of everything that the scan holds. -/
theorem Progress.Shaped.step {engine : Engine} {progress next : Progress} (shaped : progress.Shaped vars)
    {index : Nat} {instr : Instr Resolved} (stepped : engine.step vars index instr progress = .ok next) :
    next.Shaped vars := by
  unfold Engine.step at stepped
  split at stepped
  · obtain ⟨count, -, opened⟩ := bind_eq_ok_iff.mp stepped
    cases opened
    exact ⟨shaped_identity, List.forall_mem_cons.mpr ⟨shaped.product, shaped.before⟩⟩
  · split at stepped
    · cases stepped
    · rename_i block outer enclosing
      have inside := shaped.before
      rw [enclosing] at inside
      obtain ⟨hblock, hothers⟩ := List.forall_mem_cons.mp inside
      have rounds := shaped.product.raise block.count
      obtain ⟨power, powered, stepped⟩ := bind_eq_ok_iff.mp stepped
      rw [shaped.product.loopPower_eq] at powered
      cases powered
      obtain ⟨product, composed, closed⟩ := bind_eq_ok_iff.mp stepped
      rw [hblock.compose_eq rounds] at composed
      cases composed
      cases closed
      exact ⟨hblock.mul rounds, hothers⟩
  · obtain ⟨matrix, weights, stepped⟩ := bind_eq_ok_iff.mp stepped
    obtain ⟨product, composed, stepped⟩ := bind_eq_ok_iff.mp stepped
    have hmatrix := shaped_stepMatrix weights
    rw [shaped.product.compose_eq hmatrix] at composed
    cases composed
    cases stepped
    exact ⟨shaped.product.mul hmatrix, shaped.before⟩

/-! ### Whole programs -/

/-- The engines agree on every program from a shaped start, and what a scan ends with is shaped. -/
theorem scan_eq_of_shaped (engine other : Engine) (code : List (Instr Resolved)) {progress : Progress}
    (shaped : progress.Shaped vars) (index : Nat) :
    engine.scan vars index code progress = other.scan vars index code progress ∧
      ∀ final, engine.scan vars index code progress = .ok final → final.Shaped vars := by
  induction code generalizing index progress with
  | nil =>
    refine ⟨rfl, fun final scanned => ?_⟩
    cases scanned
    exact shaped
  | cons instr rest ih =>
    simp only [scan, step_eq_of_shaped engine other shaped index instr]
    cases one : other.step vars index instr progress with
    | error cause =>
      refine ⟨rfl, fun final scanned => ?_⟩
      cases scanned
    | ok next => exact ih (shaped.step one) (index + 1)

/-- Row folding is invisible. Both engines give a program the same outcome, the same error or the same matrix,
and such a matrix has a row and a column for each variable and for the constant, and in its last column
nothing but the one of the constant. -/
theorem transition_fold_invisible (code : List (Instr Resolved)) (vars : Nat) :
    (⟨true⟩ : Engine).transition code vars = (⟨false⟩ : Engine).transition code vars ∧
      ∀ (fold : Bool) (matrix : IntMatrix), (⟨fold⟩ : Engine).transition code vars = .ok matrix →
        matrix.rows = vars + 1 ∧ matrix.cols = vars + 1 ∧
          ∀ row < vars + 1, matrix.entry row vars = if row = vars then 1 else 0 := by
  constructor
  · have same := (scan_eq_of_shaped ⟨true⟩ ⟨false⟩ code (progress_shaped_start vars) 0).1
    rw [transition, transition, same]
  · intro fold matrix accepted
    obtain ⟨final, scanned, ended⟩ := bind_eq_ok_iff.mp accepted
    have shaped := (scan_eq_of_shaped ⟨fold⟩ ⟨fold⟩ code (progress_shaped_start vars) 0).2 final scanned
    split at ended
    · cases ended
      obtain ⟨rows, cols⟩ := MatrixSize.mk.inj shaped.product.size
      exact ⟨rows, cols, fun row inside => shaped.product.entry_last inside⟩
    · cases ended

/-- The inner loop of `nestedLoops` leaves a variable alone, and only one of the engines drops its row. -/
theorem transition_nestedLoops :
    ∃ matrix, (⟨true⟩ : Engine).transition nestedLoops 3 = .ok matrix ∧
      (⟨false⟩ : Engine).transition nestedLoops 3 = .ok matrix ∧
      matrix.rows = 4 ∧ matrix.cols = 4 ∧
        ∀ row < 4, matrix.entry row 3 = if row = 3 then 1 else 0 := by
  have accepted : (⟨true⟩ : Engine).transition nestedLoops 3 = .ok
      ⟨4, 4, #[4, 18, 0, 0, 0, 1, 0, 0, 0, 0, 1, 0, 0, 0, -2, 1], rfl⟩ := by decide +kernel
  obtain ⟨same, shape⟩ := transition_fold_invisible nestedLoops 3
  exact ⟨_, accepted, same ▸ accepted, shape true _ accepted⟩

end AffineLoops.Engine
