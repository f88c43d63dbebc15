import AffineLoops.IntMatrix.Basic

/-!
Row folding: powers of a transition matrix through a smaller one.

A transition matrix acts on row vectors whose last entry is the constant one, so its last row holds the
constant terms. A variable that neither reads nor is read by another one can leave the matrix before it
is raised to a power in two cases: each step overwrites it with a constant, or no step changes it. The
power of the reduced matrix is put back into an identity matrix, and a last factor repeats the
overwriting; that factor is right only after at least one step.
-/

namespace AffineLoops

/-- A reduced transition matrix with what is needed to put it back. -/
structure RowFolding where
  /-- The transition matrix of the kept indices. -/
  lite : IntMatrix
  /-- The indices that stay, in increasing order. -/
  kept : List Nat
  /-- Overwrites the variables that each step sets to a constant. -/
  fix : IntMatrix
  deriving DecidableEq

namespace RowFolding

variable (mat : IntMatrix)

/-- Index of the constant one in the row vectors. -/
def unitIndex : Nat := mat.rows - 1

/-- No other variable enters variable `index`, and it enters nothing else. -/
def isolated (index : Nat) : Bool :=
  ((List.range mat.rows).all fun j => j = index || mat.entry index j = 0) &&
    (List.range (unitIndex mat)).all fun i => i = index || mat.entry i index = 0

/-- Each step sets variable `index` to a constant. -/
def overwritten (index : Nat) : Bool := isolated mat index && mat.entry index index = 0

/-- No step changes variable `index`. -/
def untouched (index : Nat) : Bool :=
  isolated mat index && mat.entry index index = 1 && mat.entry (unitIndex mat) index = 0

/-- The variables that stay. -/
def keptVariables : List Nat :=
  (List.range (unitIndex mat)).filter fun index => !(overwritten mat index) && !(untouched mat index)

/-- The constant one stays too when a variable that stays has a constant term. -/
def keptIndices : List Nat :=
  let kept := keptVariables mat
  if kept.any fun index => mat.entry (unitIndex mat) index ≠ 0 then
    kept ++ [unitIndex mat]
  else kept

/-- The last factor: identity, except that an overwritten variable takes its constant. -/
def fixMatrix : IntMatrix :=
  IntMatrix.ofFn mat.rows mat.rows fun i j =>
    if j < unitIndex mat ∧ overwritten mat j then
      if i = unitIndex mat then mat.entry i j else 0
    else IntMatrix.delta i j

def analyze : Except MatrixError RowFolding :=
  if mat.isSquare then
    let kept := keptIndices mat
    .ok
      { lite := IntMatrix.ofFn kept.length kept.length fun y x =>
          mat.entry (kept.getD y 0) (kept.getD x 0)
        kept := kept
        fix := fixMatrix mat }
  else .error (.notSquare mat.size)

/-- Puts a power of the reduced matrix back: kept indices take its cells, all others stand still until the
last factor. -/
def expand (folding : RowFolding) (litePower : IntMatrix) : IntMatrix :=
  IntMatrix.ofFn folding.fix.rows folding.fix.rows fun i j =>
    match folding.kept.idxOf? i, folding.kept.idxOf? j with
    | some y, some x => litePower.cell y x
    | _, _ => IntMatrix.delta i j

def restore (folding : RowFolding) (litePower : IntMatrix) : Except MatrixError IntMatrix :=
  (folding.expand litePower).multiply folding.fix

/-- The power of a transition matrix through its reduced matrix. -/
def power (n : Nat) : Except MatrixError IntMatrix :=
  if n = 0 then
    if mat.isSquare then .ok (IntMatrix.identity mat.rows) else .error (.notSquare mat.size)
  else do
    let folding ← analyze mat
    let litePower ← folding.lite.power n
    folding.restore litePower

end RowFolding

end AffineLoops
