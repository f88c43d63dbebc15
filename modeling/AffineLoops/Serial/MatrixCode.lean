import AffineLoops.MatrixCode.Basic
import AffineLoops.Serial.Values

/-!
Stored forms of matrices and of matrix code.
-/

namespace AffineLoops

/-- The stored form of a matrix: its size and its entries row by row. Nothing here says that there are as
many entries as the size asks for. -/
structure MatrixRecord where
  rows : Nat
  cols : Nat
  data : List Int
  deriving DecidableEq, Repr

instance : Stored MatrixRecord where
  encode m := .record [("rows", .ofNat m.rows), ("cols", .ofNat m.cols), ("data", encode m.data)]
  decode tree := do
    match ← tree.fields? ["rows", "cols", "data"] with
    | [rows, cols, data] =>
      return ⟨← rows.nat? Tree.wordBound, ← cols.nat? Tree.wordBound, ← decode data⟩
    | _ => none

def Param.tag : Param → String
  | .start => "Start"
  | .step => "Step"
  | .itersCount => "ItersCount"

instance : Stored Param where
  encode p := .text p.tag
  decode := Tree.oneOf? [.start, .step, .itersCount] Param.tag

instance : Stored Operand where
  encode
    | .value n => .alternative "Value" (encode n)
    | .const index => .alternative "Const" (.ofNat index)
    | .param p => .alternative "Param" (encode p)
    | .var slot => .alternative "Var" (.ofNat slot)
  decode tree :=
    match tree.alternative? with
    | some ("Value", some data) => (decode data).map .value
    | some ("Const", some data) => (data.nat? Tree.wordBound).map .const
    | some ("Param", some data) => (decode data).map .param
    | some ("Var", some data) => (data.nat? Tree.wordBound).map .var
    | _ => none

instance : Stored Resolved where
  encode
    | .value n => .alternative "Value" (encode n)
    | .var slot => .alternative "Var" (.ofNat slot)
  decode tree :=
    match tree.alternative? with
    | some ("Value", some data) => (decode data).map .value
    | some ("Var", some data) => (data.nat? Tree.wordBound).map .var
    | _ => none

/-- An update with its two operands. -/
def decodeUpdate {α : Type} [Stored α] (update : α → α → Instr α) : Tree → Option (Instr α)
  | .list [dest, src] => do return update (← decode dest) (← decode src)
  | _ => none

instance {α : Type} [Stored α] : Stored (Instr α) where
  encode
    | .mov dest src => .alternative "Mov" (.list [encode dest, encode src])
    | .add dest src => .alternative "Add" (.list [encode dest, encode src])
    | .sub dest src => .alternative "Sub" (.list [encode dest, encode src])
    | .mul dest src => .alternative "Mul" (.list [encode dest, encode src])
    | .loop count => .alternative "Loop" (encode count)
    | .endLoop => .text "End"
  decode tree :=
    match tree.alternative? with
    | some ("Mov", some data) => decodeUpdate .mov data
    | some ("Add", some data) => decodeUpdate .add data
    | some ("Sub", some data) => decodeUpdate .sub data
    | some ("Mul", some data) => decodeUpdate .mul data
    | some ("Loop", some data) => (decode data).map .loop
    | some ("End", none) | some ("End", some .null) => some .endLoop
    | _ => none

end AffineLoops
