import AffineLoops.LoopBody.Variable
import AffineLoops.Value.Arithmetic

/-!
Loop bodies: the stack-machine instructions of one round of a loop. Any opcode may come with any
argument; whether the pair makes sense is decided where the instruction is used.
-/

namespace AffineLoops

/-- The opcodes of the host machine. -/
inductive Opcode where
  | nop
  | popTop
  | rotTwo
  | rotThree
  | rotFour
  | dupTop
  | dupTopX
  | unary (op : UnaryOp)
  | binary (op : BinaryOp)
  | inplace (op : BinaryOp)
  | loadConst
  | load (scope : Scope)
  | store (scope : Scope)
  | setLineno
  | compareOp
  | jumpAbsolute
  | popJumpIfFalse
  | callFunction
  | binarySubscr
  | buildList
  | returnValue
  deriving DecidableEq, Repr

namespace UnaryOp

/-- The part of an opcode's name that tells the operation. -/
def opcodeStem : UnaryOp → String
  | .positive => "POSITIVE"
  | .negative => "NEGATIVE"
  | .logicalNot => "NOT"
  | .invert => "INVERT"

end UnaryOp

namespace BinaryOp

/-- The part of an opcode's name that tells the operation. -/
def opcodeStem : BinaryOp → String
  | .power => "POWER"
  | .multiply => "MULTIPLY"
  | .divide => "DIVIDE"
  | .floorDivide => "FLOOR_DIVIDE"
  | .trueDivide => "TRUE_DIVIDE"
  | .modulo => "MODULO"
  | .add => "ADD"
  | .subtract => "SUBTRACT"
  | .shiftLeft => "LSHIFT"
  | .shiftRight => "RSHIFT"
  | .bitAnd => "AND"
  | .bitXor => "XOR"
  | .bitOr => "OR"

end BinaryOp

namespace Scope

/-- The part of an opcode's name that tells the scope. -/
def opcodeStem : Scope → String
  | .name => "NAME"
  | .global => "GLOBAL"
  | .fast => "FAST"
  | .deref => "DEREF"

end Scope

namespace Opcode

def name : Opcode → String
  | .nop => "NOP"
  | .popTop => "POP_TOP"
  | .rotTwo => "ROT_TWO"
  | .rotThree => "ROT_THREE"
  | .rotFour => "ROT_FOUR"
  | .dupTop => "DUP_TOP"
  | .dupTopX => "DUP_TOPX"
  | .unary op => "UNARY_" ++ op.opcodeStem
  | .binary op => "BINARY_" ++ op.opcodeStem
  | .inplace op => "INPLACE_" ++ op.opcodeStem
  | .loadConst => "LOAD_CONST"
  | .load scope => "LOAD_" ++ scope.opcodeStem
  | .store scope => "STORE_" ++ scope.opcodeStem
  | .setLineno => "SET_LINENO"
  | .compareOp => "COMPARE_OP"
  | .jumpAbsolute => "JUMP_ABSOLUTE"
  | .popJumpIfFalse => "POP_JUMP_IF_FALSE"
  | .callFunction => "CALL_FUNCTION"
  | .binarySubscr => "BINARY_SUBSCR"
  | .buildList => "BUILD_LIST"
  | .returnValue => "RETURN_VALUE"

/-- Every opcode, in the order of the host's table. -/
def all : List Opcode :=
  [.nop, .popTop, .rotTwo, .rotThree, .rotFour, .dupTop, .dupTopX]
    ++ UnaryOp.all.map .unary ++ BinaryOp.all.map .binary ++ BinaryOp.all.map .inplace
    ++ [.loadConst] ++ Scope.all.flatMap (fun scope => [.load scope, .store scope])
    ++ [.setLineno, .compareOp, .jumpAbsolute, .popJumpIfFalse, .callFunction, .binarySubscr,
      .buildList, .returnValue]

def ofName? (text : String) : Option Opcode := all.find? fun opcode => opcode.name = text

def unaryOp? : Opcode → Option UnaryOp
  | .unary op => some op
  | _ => none

/-- The operation of a binary opcode; the in-place forms compute the same. -/
def binaryOp? : Opcode → Option BinaryOp
  | .binary op | .inplace op => some op
  | _ => none

/-- The scope that an opcode loads from or stores to, `true` for a store. -/
def scope? : Opcode → Option (Scope × Bool)
  | .load scope => some (scope, false)
  | .store scope => some (scope, true)
  | _ => none

end Opcode

/-- The argument of an instruction. -/
inductive Arg where
  | none
  | const (value : Value)
  | name (text : String)
  | count (n : Nat)
  | line (n : Nat)
  deriving DecidableEq

structure Instruction where
  opcode : Opcode
  arg : Arg
  deriving DecidableEq

/-- What an instruction does to a variable. -/
inductive Access where
  | load (v : Variable)
  | store (v : Variable)
  deriving DecidableEq, Repr

namespace Access

def var : Access → Variable
  | .load v | .store v => v

def isStore : Access → Bool
  | .load _ => false
  | .store _ => true

/-- The instruction with this effect. -/
def instruction : Access → Instruction
  | .load v => ⟨.load v.scope, .name v.name⟩
  | .store v => ⟨.store v.scope, .name v.name⟩

end Access

namespace Instruction

def text (instr : Instruction) : String :=
  match instr.arg with
  | .none => instr.opcode.name
  | .const value => instr.opcode.name ++ " " ++ value.text
  | .name name => instr.opcode.name ++ " " ++ name
  | .count n | .line n => instr.opcode.name ++ " " ++ toString n

/-- The variable access of a load or store that names its variable. -/
def access? (instr : Instruction) : Option Access :=
  match instr.opcode, instr.arg with
  | .load scope, .name name => some (.load ⟨scope, name⟩)
  | .store scope, .name name => some (.store ⟨scope, name⟩)
  | _, _ => none

/-- Line markers change nothing but the line that errors report. -/
def isMarker (instr : Instruction) : Bool := instr.opcode = .setLineno

/-- The line after a marker: a marker without a line keeps the line before it. -/
def markedLine (instr : Instruction) (line : Option Nat) : Option Nat :=
  match instr.arg with
  | .line n => some n
  | _ => line

end Instruction

/-- How a loop body uses the target of the loop after it has been set. -/
inductive CounterUse where
  | unused
  | readOnly
  | mutated
  deriving DecidableEq, Repr

namespace CounterUse

/-- A body that stores to the counter mutates it, whatever else it does; otherwise a load makes the
counter read-only. -/
def classify (counter : Variable) (body : List Instruction) : CounterUse :=
  let accesses := body.filterMap Instruction.access?
  if Access.store counter ∈ accesses then .mutated
  else if Access.load counter ∈ accesses then .readOnly
  else .unused

end CounterUse

end AffineLoops
