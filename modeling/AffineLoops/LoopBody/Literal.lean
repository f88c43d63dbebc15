import AffineLoops.Frame
import AffineLoops.LoopBody.Stack
import AffineLoops.Progression

/-!
The literal run of a loop: the body is carried out once for each element, on a stack that starts with the
element alone. What the body stored before a failure stays stored.
-/

namespace AffineLoops.Literal

/-- A stack of values, top first, and the variables. -/
structure Machine where
  stack : List Value
  frame : Frame

/-- A run that stopped, with the frame it left. -/
structure Interrupted where
  cause : RunError
  frame : Frame

namespace Machine

def push (m : Machine) (value : Value) : Machine := { m with stack := value :: m.stack }

/-- Moves the top entry down past `count - 1` others. -/
def rotate (m : Machine) (instr : Instruction) (count : Nat) : Except RunError Machine :=
  if m.stack.length < count then .error (.stackUnderflow instr)
  else .ok { m with stack := Stack.rotate count m.stack }

/-- Copies the `count` top entries. -/
def duplicate (m : Machine) (instr : Instruction) (count : Nat) : Except RunError Machine :=
  if m.stack.length < count then .error (.stackUnderflow instr)
  else .ok { m with stack := Stack.duplicate count m.stack }

/-- Carries out one instruction. -/
def step (instr : Instruction) (m : Machine) : Except RunError Machine :=
  match instr.opcode, instr.arg with
  | .unary op, _ =>
    match m.stack with
    | a :: rest => (a.unary op).mapError .arithmetic |>.map fun value => { m with stack := value :: rest }
    | [] => .error (.stackUnderflow instr)
  | .binary op, _ | .inplace op, _ =>
    match m.stack with
    | b :: a :: rest =>
      (a.binary op b).mapError .arithmetic |>.map fun value => { m with stack := value :: rest }
    | _ => .error (.stackUnderflow instr)
  | .load scope, .name name =>
    match m.frame.load? ⟨scope, name⟩ with
    | some value => .ok (m.push value)
    | none => .error (.undefinedVariable name)
  | .store scope, .name name =>
    match m.stack with
    | value :: rest => .ok ⟨rest, m.frame.store ⟨scope, name⟩ value⟩
    | [] => .error (.stackUnderflow instr)
  | .nop, _ | .setLineno, _ => .ok m
  | .popTop, _ =>
    match m.stack with
    | _ :: rest => .ok { m with stack := rest }
    | [] => .error (.stackUnderflow instr)
  | .rotTwo, _ => m.rotate instr 2
  | .rotThree, _ => m.rotate instr 3
  | .rotFour, _ => m.rotate instr 4
  | .dupTop, _ => m.duplicate instr 1
  | .dupTopX, .count n => m.duplicate instr n
  | .loadConst, .const value => .ok (m.push value)
  | _, _ => .error (.notExecutable instr)

/-- Carries out instructions in order. -/
def run : List Instruction → Machine → Except Interrupted Machine
  | [], m => .ok m
  | instr :: rest, m =>
    match m.step instr with
    | .ok m => run rest m
    | .error cause => .error ⟨cause, m.frame⟩

end Machine

/-- One round of the loop. -/
def round (body : List Instruction) (element : Value) (frame : Frame) : Except Interrupted Frame :=
  (Machine.run body ⟨[element], frame⟩).map Machine.frame

/-- A round for each of the given elements. -/
def runItems (body : List Instruction) : List Value → Frame → Except Interrupted Frame
  | [], frame => .ok frame
  | element :: rest, frame => do
    let frame ← round body element frame
    runItems body rest frame

/-- A round for each of `count` elements of a progression, from its element number `index` on. The elements
are made as they are needed, so that a failure in an early round ends even the longest run. -/
def runRange (body : List Instruction) (p : Progression) : Nat → Nat → Frame → Except Interrupted Frame
  | 0, _, frame => .ok frame
  | count + 1, index, frame => do
    let frame ← round body (.int (p.element index)) frame
    runRange body p count (index + 1) frame

/-- Runs a loop literally. -/
def run (body : List Instruction) (iterable : Iterable) (frame : Frame) : Except Interrupted Frame :=
  match iterable with
  | .range p => runRange body p p.length.toNat 0 frame
  | .items values => runItems body values frame

theorem runRange_eq_runItems (body : List Instruction) (p : Progression) (count index : Nat)
    (frame : Frame) :
    runRange body p count index frame =
      runItems body ((List.range' index count).map fun i => .int (p.element i)) frame := by
  induction count generalizing index frame with
  | zero => rfl
  | succ count ih =>
    simp only [runRange, List.range'_succ, List.map_cons, runItems]
    congr 1
    funext frame'
    exact ih (index + 1) frame'

/-- A run goes through the elements of what it runs over, in order. -/
theorem run_eq_runItems (body : List Instruction) (iterable : Iterable) (frame : Frame) :
    run body iterable frame = runItems body iterable.toList frame := by
  cases iterable with
  | items values => rfl
  | range p =>
    simp only [run, runRange_eq_runItems, Iterable.toList, Progression.toList, List.map_map,
      List.range_eq_range']
    rfl

end AffineLoops.Literal
