/-!
Matrix code: straight-line affine updates of a vector of integer variables, grouped into counted loops.

Code is written over symbolic operands, which may name constants and loop parameters that are known only
when the loop runs, and is carried out over resolved operands.
-/

namespace AffineLoops

/-- The numbers that describe one run of a loop. -/
inductive Param where
  | start
  | step
  | itersCount
  deriving DecidableEq, Repr

def Param.text : Param → String
  | .start => "start"
  | .step => "step"
  | .itersCount => "iters_count"

/-- An operand of compiled code. -/
inductive Operand where
  | value (n : Int)
  | const (index : Nat)
  | param (p : Param)
  | var (slot : Nat)
  deriving DecidableEq, Repr

instance : ToString Operand where
  toString
    | .value n => toString n
    | .const index => "const" ++ toString index
    | .param p => p.text
    | .var slot => "var" ++ toString slot

/-- An operand of code that is ready to run. -/
inductive Resolved where
  | value (n : Int)
  | var (slot : Nat)
  deriving DecidableEq, Repr

instance : ToString Resolved where
  toString
    | .value n => toString n
    | .var slot => "var" ++ toString slot

/-- One instruction. A loop runs up to the matching `endLoop`. -/
inductive Instr (α : Type) where
  | mov (dest src : α)
  | add (dest src : α)
  | sub (dest src : α)
  | mul (dest src : α)
  | loop (count : α)
  | endLoop
  deriving DecidableEq, Repr

namespace Instr

variable {α β ε : Type}

def mnemonic : Instr α → String
  | .mov _ _ => "MOV"
  | .add _ _ => "ADD"
  | .sub _ _ => "SUB"
  | .mul _ _ => "MUL"
  | .loop _ => "LOOP"
  | .endLoop => "END"

/-- The operands, destination first. -/
def operands : Instr α → List α
  | .mov dest src | .add dest src | .sub dest src | .mul dest src => [dest, src]
  | .loop count => [count]
  | .endLoop => []

def text [ToString α] (instr : Instr α) : String :=
  match instr.operands with
  | [] => instr.mnemonic
  | operands => instr.mnemonic ++ " " ++ ", ".intercalate (operands.map toString)

/-- Replaces the operands, destination first, stopping at the first failure. -/
def traverse (f : α → Except ε β) : Instr α → Except ε (Instr β)
  | .mov dest src => do return .mov (← f dest) (← f src)
  | .add dest src => do return .add (← f dest) (← f src)
  | .sub dest src => do return .sub (← f dest) (← f src)
  | .mul dest src => do return .mul (← f dest) (← f src)
  | .loop count => do return .loop (← f count)
  | .endLoop => return .endLoop

/-- The depth at which an instruction is listed when `depth` loops are open before it. -/
def listedAt (depth : Nat) : Instr α → Nat
  | .endLoop => depth - 1
  | _ => depth

/-- The number of loops open after an instruction. -/
def depthAfter (depth : Nat) : Instr α → Nat
  | .loop _ => depth + 1
  | .endLoop => depth - 1
  | _ => depth

end Instr

namespace MatrixCode

variable {α : Type} [ToString α]

/-- The lines of a listing, indented by four blanks for each open loop. -/
def lines (depth : Nat) : List (Instr α) → List String
  | [] => []
  | instr :: rest =>
    ("".pushn ' ' (4 * instr.listedAt depth) ++ instr.text) :: lines (instr.depthAfter depth) rest

/-- The listing of a program, each line ended by a line feed. -/
def disassemble (code : List (Instr α)) : String :=
  String.join ((lines 0 code).map (· ++ "\n"))

end MatrixCode

end AffineLoops
