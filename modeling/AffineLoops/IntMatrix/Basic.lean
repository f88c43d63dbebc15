/-!
Matrices of unbounded integers, stored row by row. Everything is said through `entry`, which is zero
outside the matrix: a matrix is its size and its entries (`ext_entry`), and a matrix given by a function
has that function's values as entries (`entry_ofFn`).

Products and powers check the sizes they are given and name the sizes in their errors.
-/

namespace AffineLoops

/-- The integer matrices. -/
structure IntMatrix where
  rows : Nat
  cols : Nat
  data : Array Int
  size_eq : data.size = rows * cols
  deriving DecidableEq

/-- Number of rows and columns. -/
structure MatrixSize where
  rows : Nat
  cols : Nat
  deriving DecidableEq, Repr

def MatrixSize.text (size : MatrixSize) : String := s!"{size.rows}x{size.cols}"

/-- Why a matrix cannot be built. -/
inductive MatrixError where
  | dimensionMismatch (left right : MatrixSize)
  | notSquare (size : MatrixSize)
  | ragged (row found expected : Nat)
  deriving DecidableEq, Repr

def MatrixError.message : MatrixError → String
  | .dimensionMismatch left right =>
    "First " ++ left.text ++ " matrix doesn't match second " ++ right.text
      ++ " matrix by sizes in multiplication"
  | .notSquare size => "Can't construct power of non-square " ++ size.text ++ " matrix"
  | .ragged row found expected =>
    s!"Ragged matrix rows: row {row} has {found} elements, expected {expected}"

namespace IntMatrix

/-- The entry in row `i` and column `j`, zero outside the matrix. -/
def entry (A : IntMatrix) (i j : Nat) : Int :=
  if i < A.rows ∧ j < A.cols then A.data.getD (i * A.cols + j) 0 else 0

/-- The number in row `i` and column `j` by its place in the row-by-row data: past the end of its row it is
found in the next one. -/
def cell (A : IntMatrix) (i j : Nat) : Int := A.data.getD (i * A.cols + j) 0

theorem cell_eq_entry {A : IntMatrix} {i j : Nat} (hi : i < A.rows) (hj : j < A.cols) :
    A.cell i j = A.entry i j := by
  simp [cell, entry, hi, hj]

/-- The matrix with the values of `f` as entries. -/
def ofFn (rows cols : Nat) (f : Nat → Nat → Int) : IntMatrix where
  rows := rows
  cols := cols
  data := Array.ofFn fun k : Fin (rows * cols) => f (k.val / cols) (k.val % cols)
  size_eq := Array.size_ofFn

@[simp] theorem rows_ofFn (rows cols : Nat) (f : Nat → Nat → Int) : (ofFn rows cols f).rows = rows := rfl

@[simp] theorem cols_ofFn (rows cols : Nat) (f : Nat → Nat → Int) : (ofFn rows cols f).cols = cols := rfl

/-- A position inside the matrix is a position inside its data. -/
theorem index_lt {rows cols i j : Nat} (hi : i < rows) (hj : j < cols) : i * cols + j < rows * cols := by
  have step : (i + 1) * cols ≤ rows * cols := Nat.mul_le_mul_right cols hi
  rw [Nat.add_mul, Nat.one_mul] at step
  omega

theorem entry_ofFn (rows cols : Nat) (f : Nat → Nat → Int) (i j : Nat) :
    (ofFn rows cols f).entry i j = if i < rows ∧ j < cols then f i j else 0 := by
  unfold entry
  by_cases inside : i < rows ∧ j < cols
  · have hlt := index_lt inside.1 inside.2
    have hpos : 0 < cols := Nat.lt_of_le_of_lt (Nat.zero_le j) inside.2
    have hdiv : (i * cols + j) / cols = i := by
      rw [Nat.add_comm, Nat.add_mul_div_right _ _ hpos, Nat.div_eq_of_lt inside.2, Nat.zero_add]
    have hmod : (i * cols + j) % cols = j := by
      rw [Nat.add_comm, Nat.add_mul_mod_self_right, Nat.mod_eq_of_lt inside.2]
    simp [ofFn, inside, Array.getD_eq_getD_getElem?, hlt, hdiv, hmod]
  · simp [ofFn, inside]

/-- Two matrices of one size with the same entries are equal. -/
theorem ext_entry {A B : IntMatrix} (hrows : A.rows = B.rows) (hcols : A.cols = B.cols)
    (hentry : ∀ i j, i < A.rows → j < A.cols → A.entry i j = B.entry i j) : A = B := by
  obtain ⟨r, c, a, ha⟩ := A
  obtain ⟨r', c', b, hb⟩ := B
  simp only at hrows hcols
  subst hrows
  subst hcols
  have hdata : a = b := by
    apply Array.ext
    · rw [ha, hb]
    · intro k hk hk'
      have hlt : k < r * c := by rw [← ha]; exact hk
      have hc : 0 < c := Nat.pos_of_ne_zero fun h => by simp [h] at hlt
      have hrow : k / c < r := Nat.div_lt_of_lt_mul (by rw [Nat.mul_comm]; exact hlt)
      have hcol : k % c < c := Nat.mod_lt _ hc
      have heq : k / c * c + k % c = k := by rw [Nat.mul_comm]; exact Nat.div_add_mod k c
      have h := hentry (k / c) (k % c) hrow hcol
      simpa [entry, hrow, hcol, heq, Array.getD_eq_getD_getElem?, hk, hk'] using h
  subst hdata
  rfl

def size (A : IntMatrix) : MatrixSize := ⟨A.rows, A.cols⟩

def isSquare (A : IntMatrix) : Bool := A.rows == A.cols

def zeros (rows cols : Nat) : IntMatrix := ofFn rows cols fun _ _ => 0

/-- The entries of the identity matrix. -/
def delta (i j : Nat) : Int := if i = j then 1 else 0

def identity (side : Nat) : IntMatrix := ofFn side side delta

def rowVector (values : List Int) : IntMatrix := ofFn 1 values.length fun _ j => values.getD j 0

def transpose (A : IntMatrix) : IntMatrix := ofFn A.cols A.rows fun i j => A.entry j i

/-- A copy with one cell changed. -/
def set (A : IntMatrix) (row col : Nat) (value : Int) : IntMatrix where
  rows := A.rows
  cols := A.cols
  data := A.data.setIfInBounds (row * A.cols + col) value
  size_eq := by rw [Array.size_setIfInBounds, A.size_eq]

def isIdentity (A : IntMatrix) : Bool := A = identity A.rows

/-- Row `i` from left to right. -/
def row (A : IntMatrix) (i : Nat) : List Int := (List.range A.cols).map (A.entry i)

/-- Column `j` from top to bottom. -/
def column (A : IntMatrix) (j : Nat) : List Int := (List.range A.rows).map (A.entry · j)

def toRows (A : IntMatrix) : List (List Int) := (List.range A.rows).map A.row

/-- The first row sets the width; a row of another width is refused. -/
def ofRows (rows : List (List Int)) : Except MatrixError IntMatrix :=
  let width := (rows.headD []).length
  match rows.findIdx? fun row => row.length ≠ width with
  | some bad => .error (.ragged bad (rows.getD bad []).length width)
  | none => .ok (ofFn rows.length width fun i j => (rows.getD i []).getD j 0)

/-! ### Products and powers -/

/-- The sum of `f 0`, …, `f (n - 1)`. -/
def sumBelow : Nat → (Nat → Int) → Int
  | 0, _ => 0
  | n + 1, f => sumBelow n f + f n

/-- Multiplication of matrices whose sizes fit. Transition matrices are mostly zeros, so a zero on the
left costs no multiplication. -/
def mul (A B : IntMatrix) : IntMatrix :=
  ofFn A.rows B.cols fun i j => sumBelow A.cols fun k =>
    let weight := A.entry i k
    if weight = 0 then 0 else weight * B.entry k j

def multiply (A B : IntMatrix) : Except MatrixError IntMatrix :=
  if A.cols = B.rows then .ok (A.mul B) else .error (.dimensionMismatch A.size B.size)

/-- Powers of a square matrix by repeated squaring. -/
def raise (A : IntMatrix) (n : Nat) : IntMatrix :=
  if n = 0 then identity A.rows
  else
    let half := A.raise (n / 2)
    let square := half.mul half
    if n % 2 = 0 then square else square.mul A
termination_by n
decreasing_by omega

def power (A : IntMatrix) (n : Nat) : Except MatrixError IntMatrix :=
  if A.isSquare then .ok (A.raise n) else .error (.notSquare A.size)

/-! ### Text -/

/-- Blanks before `text` up to the given width. -/
def padLeft (width : Nat) (text : String) : String := "".pushn ' ' (width - text.length) ++ text

/-- One line a row, entries aligned to the right at the width of the widest. -/
def text (A : IntMatrix) : String :=
  let cells := A.toRows.map fun row => row.map toString
  let width := (cells.flatten.map String.length).foldl max 0
  "\n".intercalate (cells.map fun row => " ".intercalate (row.map (padLeft width)))

end IntMatrix

end AffineLoops
