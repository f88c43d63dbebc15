import AffineLoops.LoopBody.Instruction
import AffineLoops.MatrixCode.Engine

/-!
Failures of a run, literal or accelerated.
-/

namespace AffineLoops

/-- Why a loop could not be run. -/
inductive RunError where
  | notAProgression (typeName : String)
  | zeroStep
  | disallowedType (name : String) (kind : Kind) (allowed : KindSet)
  | undefinedVariable (name : String)
  | arithmetic (cause : ArithmeticError)
  | malformedConstant (index : Nat)
  | engine (cause : EngineError)
  /-- The literal machine has no meaning for the instruction. -/
  | notExecutable (instr : Instruction)
  | stackUnderflow (instr : Instruction)
  deriving DecidableEq

def RunError.message : RunError → String
  | .notAProgression typeName =>
    "Iterator has type " ++ typeName ++ " instead of a bounded integer progression"
  | .zeroStep => "Progression step must not be zero"
  | .disallowedType name kind allowed =>
    "Variable \"" ++ name ++ "\" has unallowed type " ++ kind.name
      ++ " instead of one of allowed types: " ++ allowed.text
  | .undefinedVariable name => "Name '" ++ name ++ "' is not defined"
  | .arithmetic cause => "Arithmetic error: " ++ cause.message
  | .malformedConstant index => s!"Malformed folded constant #{index}"
  | .engine cause => cause.message
  | .notExecutable instr => "Can't execute instruction literally: " ++ instr.text
  | .stackUnderflow instr =>
    "Can't execute instruction literally: stack underflow in " ++ instr.text

end AffineLoops
