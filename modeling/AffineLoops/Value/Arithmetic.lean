import AffineLoops.Number.TwosComplement
import AffineLoops.Value.Basic

/-!
Arithmetic on values. Integers and truth values are computed exactly, with division and remainder
rounding toward minus infinity and bit operations on the infinite two's complement; as soon as one
operand is a double the operation is carried out on doubles, where only the field operations and powers
exist. The literal run of a loop and the constants of a compiled loop both compute with these functions.
-/

namespace AffineLoops

inductive UnaryOp where
  | positive
  | negative
  | logicalNot
  | invert
  deriving DecidableEq, Repr

namespace UnaryOp

def symbol : UnaryOp → String
  | .positive => "+"
  | .negative => "-"
  | .logicalNot => "not"
  | .invert => "~"

def all : List UnaryOp := [.positive, .negative, .logicalNot, .invert]

end UnaryOp

inductive BinaryOp where
  | power
  | multiply
  | divide
  | floorDivide
  | trueDivide
  | modulo
  | add
  | subtract
  | shiftLeft
  | shiftRight
  | bitAnd
  | bitXor
  | bitOr
  deriving DecidableEq, Repr

namespace BinaryOp

def symbol : BinaryOp → String
  | .power => "**"
  | .multiply => "*"
  | .divide => "/"
  | .floorDivide => "//"
  | .trueDivide => "/."
  | .modulo => "%"
  | .add => "+"
  | .subtract => "-"
  | .shiftLeft => "<<"
  | .shiftRight => ">>"
  | .bitAnd => "&"
  | .bitXor => "^"
  | .bitOr => "|"

def all : List BinaryOp :=
  [.power, .multiply, .divide, .floorDivide, .trueDivide, .modulo, .add, .subtract, .shiftLeft,
    .shiftRight, .bitAnd, .bitXor, .bitOr]

end BinaryOp

/-- The operations that a transition matrix can carry out on a variable. -/
inductive AffineOp where
  | multiply
  | add
  | subtract
  deriving DecidableEq, Repr

/-- The affine operation that a binary operation is, if it is one. -/
def BinaryOp.affine? : BinaryOp → Option AffineOp
  | .multiply => some .multiply
  | .add => some .add
  | .subtract => some .subtract
  | _ => none

/-- Why an operation on values has no result. -/
inductive ArithmeticError where
  | divisionByZero
  | negativeExponent (exponent : Int)
  | exponentTooLarge (exponent : Int)
  | negativeShift (count : Int)
  | shiftTooLarge (count : Int)
  | unsupported (symbol : String) (kind : Kind)
  | notAnInteger (x : Float)
  deriving DecidableEq

namespace ArithmeticError

def message : ArithmeticError → String
  | .divisionByZero => "integer division or modulo by zero"
  | .negativeExponent n => s!"negative exponent {n} in integer power"
  | .exponentTooLarge n => s!"exponent {n} is too large"
  | .negativeShift n => s!"negative shift count {n}"
  | .shiftTooLarge n => s!"shift count {n} is too large"
  | .unsupported symbol kind =>
    "operator '" ++ symbol ++ "' is not supported for " ++ kind.name ++ " operands"
  | .notAnInteger x => "value " ++ FloatLayout.plain.text x ++ " is not an integer"

end ArithmeticError

namespace Value

/-- The integer a value reads as, refusing doubles. -/
def toInt : Value → Except ArithmeticError Int
  | .int n => .ok n
  | .bool b => .ok (ofBool b)
  | .float x => .error (.notAnInteger x)

/-! ### Integers -/

/-- Exponents from here on are refused, whatever the base. -/
def exponentLimit : Int := Int.pow 2 32

/-- Shift counts from here on are refused, whatever is shifted. -/
def shiftLimit : Int := Int.pow 2 64

def intUnary : UnaryOp → Int → Value
  | .positive, n => .int n
  | .negative, n => .int (-n)
  | .logicalNot, n => .bool (n == 0)
  | .invert, n => .int (TwosComplement.complement n)

/-- A shift count as a natural number. -/
def shiftCount (n : Int) : Except ArithmeticError Nat :=
  if n < 0 then .error (.negativeShift n)
  else if shiftLimit ≤ n then .error (.shiftTooLarge n)
  else .ok n.toNat

/-- A power's exponent as a natural number. -/
def exponent (n : Int) : Except ArithmeticError Nat :=
  if n < 0 then .error (.negativeExponent n)
  else if exponentLimit ≤ n then .error (.exponentTooLarge n)
  else .ok n.toNat

/-- A divisor other than zero. -/
def divisor (n : Int) : Except ArithmeticError Int :=
  if n = 0 then .error .divisionByZero else .ok n

/-- Division of doubles, refused for either zero. -/
def floatDivide (x y : Float) : Except ArithmeticError Value :=
  if y == 0.0 then .error .divisionByZero else .ok (.float (x / y))

def intBinary : BinaryOp → Int → Int → Except ArithmeticError Value
  | .power, a, b => (exponent b).map fun n => .int (Int.pow a n)
  | .multiply, a, b => .ok (.int (a * b))
  | .divide, a, b => (divisor b).map fun d => .int (a.fdiv d)
  | .floorDivide, a, b => (divisor b).map fun d => .int (a.fdiv d)
  | .trueDivide, a, b => floatDivide (Binary64.ofInt a) (Binary64.ofInt b)
  | .modulo, a, b => (divisor b).map fun d => .int (a.fmod d)
  | .add, a, b => .ok (.int (a + b))
  | .subtract, a, b => .ok (.int (a - b))
  | .shiftLeft, a, b => (shiftCount b).map fun n => .int (TwosComplement.shiftLeft a n)
  | .shiftRight, a, b => (shiftCount b).map fun n => .int (TwosComplement.shiftRight a n)
  | .bitAnd, a, b => .ok (.int (TwosComplement.conj a b))
  | .bitXor, a, b => .ok (.int (TwosComplement.exclusive a b))
  | .bitOr, a, b => .ok (.int (TwosComplement.disj a b))

/-! ### Doubles -/

def floatUnary : UnaryOp → Float → Except ArithmeticError Value
  | .positive, x => .ok (.float x)
  | .negative, x => .ok (.float (-x))
  | .logicalNot, x => .ok (.bool (!truthy (.float x)))
  | .invert, _ => .error (.unsupported UnaryOp.invert.symbol .float)

def floatBinary : BinaryOp → Float → Float → Except ArithmeticError Value
  | .power, x, y => .ok (.float (x.pow y))
  | .multiply, x, y => .ok (.float (x * y))
  | .trueDivide, x, y => floatDivide x y
  | .add, x, y => .ok (.float (x + y))
  | .subtract, x, y => .ok (.float (x - y))
  | op, _, _ => .error (.unsupported op.symbol .float)

/-! ### Values -/

def unary (op : UnaryOp) (a : Value) : Except ArithmeticError Value :=
  match a with
  | .int n => .ok (intUnary op n)
  | .bool b => .ok (intUnary op (ofBool b))
  | .float x => floatUnary op x

def binary (op : BinaryOp) (a b : Value) : Except ArithmeticError Value :=
  match a.asInt?, b.asInt? with
  | some m, some n => intBinary op m n
  | _, _ => floatBinary op a.asFloat b.asFloat

end Value

end AffineLoops
