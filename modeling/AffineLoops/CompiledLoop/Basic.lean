import AffineLoops.LoopBody.Instruction
import AffineLoops.MatrixCode.Basic

/-!
Compiled loops: the matrix code of a loop, the slots its variables live in, and the constants that are
computed once before each run.

A constant is a small stack program over values that the loop does not change. It may read the constants
before it.
-/

namespace AffineLoops

/-- One step of a constant's program. -/
inductive ConstOp where
  | push (value : Value)
  /-- The value of a variable before the loop. -/
  | load (v : Variable)
  /-- The value of an earlier constant. -/
  | folded (index : Nat)
  | unary (op : UnaryOp)
  | binary (op : BinaryOp)
  deriving DecidableEq

def ConstOp.text : ConstOp → String
  | .push value => "push " ++ value.text
  | .load v => "load " ++ v.text
  | .folded index => "load const" ++ toString index
  | .unary op => "unary " ++ op.symbol
  | .binary op => "binary " ++ op.symbol

abbrev ConstProgram := List ConstOp

/-- The constant that a program does nothing but read again. -/
def ConstProgram.alias? : ConstProgram → Option Nat
  | [.folded index] => some index
  | _ => none

/-- What a slot of the state vector holds. -/
inductive SlotKey where
  /-- A variable of the host program. -/
  | host (v : Variable)
  /-- The progression itself, beside a counter that the body overwrites. -/
  | counter
  /-- The entry at this height of the body's stack. -/
  | stack (depth : Nat)
  deriving DecidableEq, Repr

def SlotKey.isHost : SlotKey → Bool
  | .host _ => true
  | _ => false

structure Slot where
  key : SlotKey
  /-- Whether the slot's value goes back to the frame after a run. -/
  writeBack : Bool
  deriving DecidableEq, Repr

/-- How a body is compiled. -/
structure CompileOptions where
  /-- The kinds that a constant in the body may have. -/
  types : KindSet
  /-- Whether the counter's use is told apart, so that rows can be folded. -/
  foldConstantRows : Bool
  /-- Whether a stack slot is set to zero when its entry goes. -/
  clearFreedStackSlots : Bool
  deriving DecidableEq, Repr

instance : Inhabited CompileOptions := ⟨⟨default, true, true⟩⟩

/-- A compiled loop. -/
structure CompiledLoop where
  code : List (Instr Operand)
  slots : List Slot
  consts : List ConstProgram
  /-- The loop target; a loop without a body has none. -/
  counter : Option Variable
  counterUse : CounterUse
  /-- Whether the target is set after the run, outside the state vector. -/
  storeCounter : Bool
  deriving DecidableEq

namespace CompiledLoop

/-- The slots whose values go back to the frame, with their variables. -/
def writeBackSlots (loop : CompiledLoop) : List (Nat × Variable) :=
  loop.slots.zipIdx.filterMap fun (slot, index) =>
    match slot.key with
    | .host v => if slot.writeBack then some (index, v) else none
    | _ => none

end CompiledLoop

/-- Why an instruction cannot be compiled. -/
inductive CompileFault where
  | unsupportedInstruction (instr : Instruction)
  /-- An operation that is not affine meets a value that the loop changes. -/
  | unpredictableOperands (opcode : Opcode)
  | unpredictableMultiplication
  | disallowedConstant (value : Value) (allowed : KindSet)
  | unsupportedIterator (instr : Instruction)
  | invalidStack
  deriving DecidableEq

def CompileFault.message : CompileFault → String
  | .unsupportedInstruction instr => "Unsupported instruction " ++ instr.text
  | .unpredictableOperands opcode =>
    "All operands of instruction " ++ opcode.name
      ++ " must be a constant or must have a predictable value"
  | .unpredictableMultiplication => "Multiplication of two unpredictable values is unsupported"
  | .disallowedConstant value allowed =>
    "Constant " ++ value.text ++ " has an unallowed type " ++ value.kind.name
      ++ " instead of one of allowed types: " ++ allowed.text
  | .unsupportedIterator instr => "Unsupported iterator usage in instruction " ++ instr.text
  | .invalidStack => "Unsupported loop type or invalid stack usage in bytecode"

/-- A fault with the instruction it was found at and the last line marker before it. -/
structure CompileError where
  fault : CompileFault
  instruction : Option Instruction
  line : Option Nat
  deriving DecidableEq

def CompileError.message (e : CompileError) : String :=
  let place := match e.line with
    | some line => " at line " ++ toString line
    | none => ""
  let detail := match e.instruction with
    | some instr => " (in `" ++ instr.text ++ "`)"
    | none => ""
  "Can't optimize loop: " ++ e.fault.message ++ place ++ detail

end AffineLoops
