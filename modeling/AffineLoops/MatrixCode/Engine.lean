import AffineLoops.IntMatrix.RowFolding
import AffineLoops.MatrixCode.Basic

/-!
The engine turns a program of matrix code into one transition matrix and applies it.

The state of `n` variables is the row vector of their values followed by the constant one, and a step
multiplies it on the right: the entry in row `src` and column `dest` is the weight of `src` in the new
`dest`. One scan from left to right builds the matrix. It keeps the product of the steps of the block it
is in and, for each loop still open, where the loop began, its count and the product before it; at the
end of a loop the product of the block is raised to the count.
-/

namespace AffineLoops

/-- Why a program has no transition matrix. -/
inductive EngineError where
  | invalidInstruction (instr : Instr Resolved)
  | unterminatedLoop (start : Nat)
  | unexpectedEnd (index : Nat)
  | slotOutOfRange (slot size : Nat)
  | matrix (cause : MatrixError)
  deriving DecidableEq

def EngineError.message : EngineError → String
  | .invalidInstruction instr => "Invalid matrix code instruction: " ++ instr.text
  | .unterminatedLoop start => s!"LOOP block at instruction {start} is never terminated by END"
  | .unexpectedEnd index => s!"Unexpected END at instruction {index} outside of any LOOP block"
  | .slotOutOfRange slot size =>
    s!"Variable slot {slot} is out of range for a state vector of {size} slots"
  | .matrix cause => cause.message

/-- The engine and its one choice: whether loops are raised to their count through row folding. -/
structure Engine where
  foldConstantRows : Bool
  deriving DecidableEq, Repr

namespace Engine

instance : Inhabited Engine := ⟨⟨true⟩⟩

/-- The variable that an operand names. -/
def slotOf (instr : Instr Resolved) (vars : Nat) : Resolved → Except EngineError Nat
  | .var slot => if slot < vars then .ok slot else .error (.slotOutOfRange slot vars)
  | .value _ => .error (.invalidInstruction instr)

/-- The row that holds an operand's weight, and the weight: a variable counts once, a number weighs in
the constant row. -/
def term (instr : Instr Resolved) (vars : Nat) : Resolved → Except EngineError (Nat × Int)
  | .value n => .ok (vars, n)
  | .var slot => (slotOf instr vars (.var slot)).map fun row => (row, 1)

/-- The number of rounds of a loop. -/
def loopCount : Resolved → Except EngineError Nat
  | .value n => if n < 0 then .error (.invalidInstruction (.loop (.value n))) else .ok n.toNat
  | count => .error (.invalidInstruction (.loop count))

/-- The step that gives variable `dest` the weights `weights` and leaves all others alone. -/
def update (vars dest : Nat) (weights : Nat → Int) : IntMatrix :=
  IntMatrix.ofFn (vars + 1) (vars + 1) fun i j =>
    if j = dest then weights i else IntMatrix.delta i j

/-- The transition matrix of a single update. -/
def stepMatrix (vars : Nat) (instr : Instr Resolved) : Except EngineError IntMatrix :=
  match instr with
  | .mov dest src => do
    let dest ← slotOf instr vars dest
    let (row, weight) ← term instr vars src
    return update vars dest fun i => if i = row then weight else 0
  | .add dest src => do
    let dest ← slotOf instr vars dest
    let (row, weight) ← term instr vars src
    return update vars dest fun i => IntMatrix.delta i dest + if i = row then weight else 0
  | .sub dest src => do
    let dest ← slotOf instr vars dest
    let (row, weight) ← term instr vars src
    return update vars dest fun i => IntMatrix.delta i dest - if i = row then weight else 0
  | .mul dest (.value n) => do
    let dest ← slotOf instr vars dest
    return update vars dest fun i => if i = dest then n else 0
  | .mul dest (.var _) => do
    let _ ← slotOf instr vars dest
    .error (.invalidInstruction instr)
  | .loop _ | .endLoop => .error (.invalidInstruction instr)

/-- A loop whose end has not been reached. -/
structure OpenLoop where
  start : Nat
  count : Nat
  /-- Product of the steps before the loop in its block. -/
  before : IntMatrix
  deriving DecidableEq

/-- The scan so far. -/
structure Progress where
  /-- Product of the steps of the innermost block. -/
  product : IntMatrix
  /-- The open loops, innermost first. -/
  enclosing : List OpenLoop
  deriving DecidableEq

/-- A matrix product inside the engine. -/
def compose (A B : IntMatrix) : Except EngineError IntMatrix := (A.multiply B).mapError .matrix

/-- The transition matrix of `count` rounds of a block. -/
def loopPower (engine : Engine) (block : IntMatrix) (count : Nat) : Except EngineError IntMatrix :=
  (if engine.foldConstantRows then RowFolding.power block count else block.power count).mapError .matrix

/-- One instruction of the scan. -/
def step (engine : Engine) (vars index : Nat) (instr : Instr Resolved) (progress : Progress) :
    Except EngineError Progress :=
  match instr with
  | .loop count => do
    let count ← loopCount count
    return ⟨IntMatrix.identity (vars + 1), ⟨index, count, progress.product⟩ :: progress.enclosing⟩
  | .endLoop =>
    match progress.enclosing with
    | [] => .error (.unexpectedEnd index)
    | block :: outer => do
      let rounds ← engine.loopPower progress.product block.count
      return ⟨← compose block.before rounds, outer⟩
  | instr => do
    let matrix ← stepMatrix vars instr
    return { progress with product := ← compose progress.product matrix }

/-- The scan of a program whose first instruction has number `index`. -/
def scan (engine : Engine) (vars : Nat) :
    Nat → List (Instr Resolved) → Progress → Except EngineError Progress
  | _, [], progress => .ok progress
  | index, instr :: rest, progress => do
    let progress ← engine.step vars index instr progress
    engine.scan vars (index + 1) rest progress

/-- The transition matrix of a program over `vars` variables. -/
def transition (engine : Engine) (code : List (Instr Resolved)) (vars : Nat) :
    Except EngineError IntMatrix := do
  let progress ← engine.scan vars 0 code ⟨IntMatrix.identity (vars + 1), []⟩
  match progress.enclosing with
  | [] => return progress.product
  | block :: _ => .error (.unterminatedLoop block.start)

/-- Applies a program to the values of the variables. -/
def run (engine : Engine) (code : List (Instr Resolved)) (state : List Int) :
    Except EngineError (List Int) := do
  let matrix ← engine.transition code state.length
  let result ← compose (IntMatrix.rowVector (state ++ [1])) matrix
  return (result.row 0).dropLast

end Engine

end AffineLoops
