import AffineLoops.Serial.Tree
import AffineLoops.Value.Arithmetic

/-!
Stored forms of integers, values and operations.

An integer is its sign, -1, 0 or 1, with the digits of its magnitude to the base `2 ^ 32`, least
significant first and without leading zeros. Reading drops leading zeros and takes a magnitude of sign 0
for zero. What is written is read back as it was (`decode_encode_int`), however large.
-/

namespace AffineLoops

/-! ### Integers -/

/-- Digits to the base `2 ^ 32`, least significant first. -/
def wordDigits (n : Nat) : List Nat :=
  if n = 0 then [] else n % Tree.narrowBound :: wordDigits (n / Tree.narrowBound)
termination_by n
decreasing_by exact Nat.div_lt_self (by omega) (by decide)

def ofWordDigits : List Nat → Nat
  | [] => 0
  | digit :: rest => digit + Tree.narrowBound * ofWordDigits rest

theorem ofWordDigits_wordDigits (n : Nat) : ofWordDigits (wordDigits n) = n := by
  fun_induction wordDigits n with
  | case1 => rfl
  | case2 n nonzero ih =>
    rw [ofWordDigits, ih]
    exact Nat.mod_add_div n Tree.narrowBound

theorem lt_of_mem_wordDigits {n digit : Nat} (member : digit ∈ wordDigits n) : digit < Tree.narrowBound := by
  fun_induction wordDigits n with
  | case1 => cases member
  | case2 n nonzero ih =>
    cases member with
    | head => exact Nat.mod_lt n (by decide)
    | tail _ later => exact ih later

instance : Stored Int where
  encode n := .list [.int n.sign, .list ((wordDigits n.natAbs).map Tree.ofNat)]
  decode
    | .list [.int sign, .list digits] =>
      if -1 ≤ sign ∧ sign ≤ 1 then
        (digits.mapM (Tree.nat? Tree.narrowBound)).map fun digits => sign * ofWordDigits digits
      else none
    | _ => none

theorem decode_encode_int (n : Int) : decode (encode n) = some n := by
  have sign : -1 ≤ n.sign ∧ n.sign ≤ 1 := by
    rcases Int.sign_trichotomy n with one | zero | minus <;> omega
  have digits : ((wordDigits n.natAbs).map Tree.ofNat).mapM (Tree.nat? Tree.narrowBound) = some (wordDigits n.natAbs) :=
    Tree.mapM_nat?_ofNat fun _ member => lt_of_mem_wordDigits member
  simp only [encode, decode]
  rw [if_pos sign, digits, Option.map_some, ofWordDigits_wordDigits, Int.sign_mul_natAbs]

/-! ### Values -/

/-- A double that is no number, or infinite, is stored as nothing and cannot be read back. -/
def encodeFloat (x : Float) : Tree := if x.isFinite then .float x else .null

def decodeFloat : Tree → Option Float
  | .float x => some x
  | .int n => some (Binary64.ofInt n)
  | _ => none

instance : Stored Value where
  encode
    | .int n => .alternative "Int" (encode n)
    | .bool b => .alternative "Bool" (encode b)
    | .float x => .alternative "Float" (encodeFloat x)
  decode tree :=
    match tree.alternative? with
    | some ("Int", some data) => (decode data).map .int
    | some ("Bool", some data) => (decode data).map .bool
    | some ("Float", some data) => (decodeFloat data).map .float
    | _ => none

instance : Stored Kind where
  encode kind := .text kind.name
  decode := Tree.oneOf? Kind.all Kind.name

instance : Stored KindSet where
  encode set := encode set.toList
  decode tree := (decode tree).map KindSet.ofList

/-! ### Operations -/

def UnaryOp.tag : UnaryOp → String
  | .positive => "Positive"
  | .negative => "Negative"
  | .logicalNot => "Not"
  | .invert => "Invert"

def BinaryOp.tag : BinaryOp → String
  | .power => "Power"
  | .multiply => "Multiply"
  | .divide => "Divide"
  | .floorDivide => "FloorDivide"
  | .trueDivide => "TrueDivide"
  | .modulo => "Modulo"
  | .add => "Add"
  | .subtract => "Subtract"
  | .shiftLeft => "LShift"
  | .shiftRight => "RShift"
  | .bitAnd => "And"
  | .bitXor => "Xor"
  | .bitOr => "Or"

instance : Stored UnaryOp where
  encode op := .text op.tag
  decode := Tree.oneOf? UnaryOp.all UnaryOp.tag

instance : Stored BinaryOp where
  encode op := .text op.tag
  decode := Tree.oneOf? BinaryOp.all BinaryOp.tag

end AffineLoops
