import AffineLoops.CompiledLoop.Draft
import AffineLoops.LoopBody.Stack

/-!
The effect of each instruction of a body on a draft. Work on foldable entries grows their programs; work
that touches a live entry is emitted as matrix code on the stack slots.
-/

namespace AffineLoops.Draft

variable (options : CompileOptions)

/-! ### Stack shape -/

/-- Drops the top entry. -/
def popTop (d : Draft) : Except CompileFault Draft :=
  match d.stack with
  | [] => .error .invalidStack
  | .foldable _ :: rest => .ok { d with stack := rest }
  | .live :: rest => .ok { d.clear options rest.length with stack := rest }

/-- Moves the live entries among the `count - 1` below the top up by one slot, nearest first. -/
def liftBelow (d : Draft) (count : Nat) : Draft :=
  (List.range (count - 1)).foldl (fun d' offset =>
    if (d.stack.getD (offset + 1) .live).isLive then
      d'.move (d.height - 1 - offset) (d.height - 2 - offset)
    else d') d

/-- Moves the top entry down past `count - 1` others. A live top waits in the free slot above the stack
while the others move up. -/
def rotate (d : Draft) (count : Nat) : Except CompileFault Draft :=
  if d.height < count then .error .invalidStack
  else
    let moved :=
      if (d.stack.headD .live).isLive then
        let lifted := (d.move d.height (d.height - 1)).liftBelow count
        (lifted.move (d.height - count) d.height).clear options d.height
      else d.liftBelow count
    .ok { moved with stack := Stack.rotate count d.stack }

/-- Copies the `count` top entries, lowest first. -/
def duplicate (d : Draft) (count : Nat) : Except CompileFault Draft :=
  if d.height < count then .error .invalidStack
  else
    let copied := (List.range count).foldl (fun d' index =>
      if (d.stack.getD (count - 1 - index) .live).isLive then
        d'.move (d.height + index) (d.height - count + index)
      else d') d
    .ok { copied with stack := Stack.duplicate count d.stack }

/-! ### Unary operations -/

/-- The sign of a live entry changes in its slot. -/
def negate (d : Draft) : Except CompileFault Draft :=
  match d.stack with
  | [] => .error .invalidStack
  | .foldable program :: rest =>
    .ok { d with stack := .foldable (program ++ [.unary .negative]) :: rest }
  | .live :: rest => .ok (d.emit .mul (entrySlot rest.length) (.value (-1)))

/-- Unary operations that no matrix can carry out need a foldable entry. -/
def foldUnary (d : Draft) (opcode : Opcode) (op : UnaryOp) : Except CompileFault Draft :=
  match d.stack with
  | [] => .error .invalidStack
  | .foldable program :: rest => .ok { d with stack := .foldable (program ++ [.unary op]) :: rest }
  | .live :: _ => .error (.unpredictableOperands opcode)

def lowerUnary (d : Draft) (opcode : Opcode) : UnaryOp → Except CompileFault Draft
  | .positive => if d.stack.isEmpty then .error .invalidStack else .ok d
  | .negative => d.negate
  | op => d.foldUnary opcode op

/-! ### Binary operations -/

/-- Moves a result from the top slot to the slot below, whose foldable entry it replaces. -/
def sink (d : Draft) (depth : Nat) : Draft := (d.move depth (depth + 1)).clear options (depth + 1)

/-- A live left operand, at height `depth`, is updated by a foldable right one. -/
def updateLeft (d : Draft) (depth : Nat) (right : ConstProgram) (op : AffineOp) : Draft :=
  d.emitFolded op.instr depth right

/-- A live right operand, at height `depth + 1`, is updated by a foldable left one, and the result sinks
to `depth`. A difference is the left operand added to the negated right one. -/
def updateRight (d : Draft) (depth : Nat) (left : ConstProgram) : AffineOp → Draft
  | .multiply => (d.emitFolded .mul (depth + 1) left).sink options depth
  | .add => (d.emitFolded .add (depth + 1) left).sink options depth
  | .subtract =>
    let negated := d.emit .mul (entrySlot (depth + 1)) (.value (-1))
    (negated.emitFolded .add (depth + 1) left).sink options depth

/-- A live left operand is updated by a live right one. A product of the two is not affine. -/
def updateBoth (d : Draft) (depth : Nat) : AffineOp → Except CompileFault Draft
  | .multiply => .error .unpredictableMultiplication
  | .add => .ok ((d.emit .add (entrySlot depth) (entrySlot (depth + 1))).clear options (depth + 1))
  | .subtract => .ok ((d.emit .sub (entrySlot depth) (entrySlot (depth + 1))).clear options (depth + 1))

/-- An affine operation on the entries at heights `depth` and `depth + 1`, at least one of them live. -/
def joinLive (d : Draft) (depth : Nat) (left right : Entry) (op : AffineOp) : Except CompileFault Draft :=
  match left, right with
  | .foldable program, _ => .ok (d.updateRight options depth program op)
  | .live, .foldable program => .ok (d.updateLeft depth program op)
  | .live, .live => d.updateBoth options depth op

/-- A binary operation joins the two top entries into one. -/
def lowerBinary (d : Draft) (opcode : Opcode) (op : BinaryOp) : Except CompileFault Draft :=
  match d.stack with
  | .foldable right :: .foldable left :: rest =>
    .ok { d with stack := .foldable (left ++ right ++ [.binary op]) :: rest }
  | right :: left :: rest =>
    match op.affine? with
    | none => .error (.unpredictableOperands opcode)
    | some op => (d.joinLive options rest.length left right op).map fun d =>
        { d with stack := .live :: rest }
  | _ => .error .invalidStack

/-! ### Constants and variables -/

/-- A constant of the body, if its kind is allowed. -/
def loadConst (d : Draft) (value : Value) : Except CompileFault Draft :=
  if options.types.allows value then .ok { d with stack := .foldable [.push value] :: d.stack }
  else .error (.disallowedConstant value options.types)

/-- A variable in a slot is copied to the stack; a constant one is foldable. -/
def loadVariable (d : Draft) (v : Variable) : Draft :=
  let d := d.register v false
  match d.binding? v with
  | some (.const index) => { d with stack := .foldable [.folded index] :: d.stack }
  | _ =>
    { d.emit .mov (entrySlot d.height) (.slot (.host v)) with stack := .live :: d.stack }

/-- The variable takes the top entry and is, from here on, constant or live as the entry was. -/
def storeVariable (d : Draft) (v : Variable) : Except CompileFault Draft :=
  match d.stack with
  | [] => .error .invalidStack
  | .foldable program :: rest =>
    let (index, d) := d.constant program
    let d := (d.emit .mov (.slot (.host v)) (.const index)).bind v (.const index)
    .ok { d with stack := rest }
  | .live :: rest =>
    let d := d.emit .mov (.slot (.host v)) (entrySlot rest.length)
    let d := (d.clear options rest.length).bind v .slot
    .ok { d with stack := rest }

/-! ### Instructions -/

/-- The effect of one instruction. An argument that the opcode needs is checked before the stack. -/
def lower (instr : Instruction) (d : Draft) : Except CompileFault Draft :=
  match instr.opcode, instr.arg with
  | .nop, _ => .ok d
  | .popTop, _ => d.popTop options
  | .rotTwo, _ => d.rotate options 2
  | .rotThree, _ => d.rotate options 3
  | .rotFour, _ => d.rotate options 4
  | .dupTop, _ => d.duplicate 1
  | .dupTopX, .count n => d.duplicate n
  | .unary op, _ => d.lowerUnary instr.opcode op
  | .binary op, _ | .inplace op, _ => d.lowerBinary options instr.opcode op
  | .loadConst, .const value => d.loadConst options value
  | .load scope, .name name => .ok (d.loadVariable ⟨scope, name⟩)
  | .store scope, .name name => d.storeVariable options ⟨scope, name⟩
  | _, _ => .error (.unsupportedInstruction instr)

end AffineLoops.Draft
