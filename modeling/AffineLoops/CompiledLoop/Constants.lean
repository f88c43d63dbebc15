import AffineLoops.CompiledLoop.Basic
import AffineLoops.Frame
import AffineLoops.RunError

/-!
The values of a compiled loop's constants. Each program runs on an empty stack, sees the frame before the
loop and the constants before its own, and has to leave exactly one value.
-/

namespace AffineLoops.ConstProgram

/-- One step of the program of constant `index`. -/
def step (index : Nat) (frame : Frame) (folded : List Value) (op : ConstOp) (stack : List Value) :
    Except RunError (List Value) :=
  match op, stack with
  | .push value, stack => .ok (value :: stack)
  | .load v, stack =>
    match frame.load? v with
    | some value => .ok (value :: stack)
    | none => .error (.undefinedVariable v.name)
  | .folded i, stack =>
    match if i < index then folded[i]? else none with
    | some value => .ok (value :: stack)
    | none => .error (.malformedConstant index)
  | .unary op, a :: rest => (a.unary op).mapError .arithmetic |>.map (· :: rest)
  | .binary op, b :: a :: rest => (a.binary op b).mapError .arithmetic |>.map (· :: rest)
  | _, _ => .error (.malformedConstant index)

/-- Runs a program from a given stack. -/
def run (index : Nat) (frame : Frame) (folded : List Value) :
    ConstProgram → List Value → Except RunError (List Value)
  | [], stack => .ok stack
  | op :: rest, stack => do
    let stack ← step index frame folded op stack
    run index frame folded rest stack

/-- The value of constant `index`, given the values of the constants before it. -/
def evaluate (index : Nat) (program : ConstProgram) (frame : Frame) (folded : List Value) :
    Except RunError Value := do
  match ← run index frame folded program [] with
  | [value] => return value
  | _ => .error (.malformedConstant index)

/-- How an error names a constant: a plain read of a variable goes by the variable's name. -/
def label (index : Nat) : ConstProgram → String
  | [.load v] => v.name
  | _ => "const" ++ toString index

/-- The values of the remaining programs, after those of the constants already done. -/
def evaluateFrom (frame : Frame) (types : KindSet) :
    List Value → List ConstProgram → Except RunError (List Value)
  | done, [] => .ok done
  | done, program :: rest => do
    let value ← evaluate done.length program frame done
    if types.allows value then evaluateFrom frame types (done ++ [value]) rest
    else .error (.disallowedType (program.label done.length) value.kind types)

/-- The values of all constants in order, each of an allowed kind. -/
def evaluateAll (programs : List ConstProgram) (frame : Frame) (types : KindSet) :
    Except RunError (List Value) :=
  evaluateFrom frame types [] programs

end AffineLoops.ConstProgram
