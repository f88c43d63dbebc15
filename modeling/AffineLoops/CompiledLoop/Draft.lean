import AffineLoops.CompiledLoop.Basic

/-!
A compiled loop in the making.

The body's stack is replayed symbolically. An entry whose value is fixed before the loop is kept as the
program that computes it; any other entry is live, and its value is in the slot for its height. Slots and
constants are numbered when they are first needed, a destination before a source.
-/

namespace AffineLoops

/-- An entry of the symbolic stack. -/
inductive Entry where
  /-- The value is the same in every round, and this program computes it. -/
  | foldable (program : ConstProgram)
  /-- The value is in the stack slot at the entry's height. -/
  | live
  deriving DecidableEq

namespace Entry

def isLive : Entry → Bool
  | .live => true
  | .foldable _ => false

end Entry

/-- What a variable means at a point of the body. -/
inductive Binding where
  /-- Its value is in its host slot. -/
  | slot
  /-- Its value is that of a constant. -/
  | const (index : Nat)
  deriving DecidableEq, Repr

/-- The update that carries out an affine operation on its destination. -/
def AffineOp.instr : AffineOp → Operand → Operand → Instr Operand
  | .multiply => .mul
  | .add => .add
  | .subtract => .sub

/-- An operand before slots are numbered. -/
inductive Place where
  | value (n : Int)
  | const (index : Nat)
  | param (p : Param)
  | slot (key : SlotKey)
  deriving DecidableEq, Repr

structure Draft where
  /-- Top first. -/
  stack : List Entry
  code : List (Instr Operand)
  slots : List SlotKey
  /-- The latest binding of a variable stands before its older ones. -/
  bindings : List (Variable × Binding)
  consts : List ConstProgram
  deriving DecidableEq

namespace Draft

def empty : Draft := ⟨[], [], [], [], []⟩

/-- Number of entries on the stack, which is also the height of the next one. -/
def height (d : Draft) : Nat := d.stack.length

/-! ### Slots and constants -/

/-- The number of a slot, new if the key has none yet. -/
def slot (d : Draft) (key : SlotKey) : Nat × Draft :=
  match d.slots.idxOf? key with
  | some index => (index, d)
  | none => (d.slots.length, { d with slots := d.slots ++ [key] })

/-- The number of a constant. A program that only reads another constant again is that constant. -/
def constant (d : Draft) (program : ConstProgram) : Nat × Draft :=
  match program.alias? with
  | some index => (index, d)
  | none => (d.consts.length, { d with consts := d.consts ++ [program] })

def binding? (d : Draft) (v : Variable) : Option Binding := d.bindings.lookup v

def bind (d : Draft) (v : Variable) (binding : Binding) : Draft :=
  { d with bindings := (v, binding) :: d.bindings }

/-- Announces a variable of the body. One that is stored to somewhere lives in a slot from the start; one
that is only read is a constant. -/
def register (d : Draft) (v : Variable) (stored : Bool) : Draft :=
  match stored, d.binding? v with
  | true, some .slot => d
  | true, _ => (d.slot (.host v)).2.bind v .slot
  | false, some _ => d
  | false, none =>
    let (index, d) := d.constant [.load v]
    d.bind v (.const index)

/-! ### Code -/

def operand (d : Draft) : Place → Operand × Draft
  | .value n => (.value n, d)
  | .const index => (.const index, d)
  | .param p => (.param p, d)
  | .slot key =>
    let (index, d) := d.slot key
    (.var index, d)

def push (d : Draft) (instr : Instr Operand) : Draft := { d with code := d.code ++ [instr] }

/-- Emits an update, the destination numbered before the source. -/
def emit (d : Draft) (update : Operand → Operand → Instr Operand) (dest src : Place) : Draft :=
  let (dest, d) := d.operand dest
  let (src, d) := d.operand src
  d.push (update dest src)

def emitLoop (d : Draft) (count : Place) : Draft :=
  let (count, d) := d.operand count
  d.push (.loop count)

def emitEnd (d : Draft) : Draft := d.push .endLoop

/-- The slot of the stack entry at a height. -/
def entrySlot (depth : Nat) : Place := .slot (.stack depth)

/-- Copies one stack slot into another. -/
def move (d : Draft) (dest src : Nat) : Draft := d.emit .mov (entrySlot dest) (entrySlot src)

/-- Sets a freed stack slot to zero if the options ask for it. -/
def clear (d : Draft) (options : CompileOptions) (depth : Nat) : Draft :=
  if options.clearFreedStackSlots then d.emit .mov (entrySlot depth) (.value 0) else d

/-- Emits an update by a foldable entry, whose program becomes a constant. -/
def emitFolded (d : Draft) (update : Operand → Operand → Instr Operand) (depth : Nat)
    (program : ConstProgram) : Draft :=
  let (dest, d) := d.operand (entrySlot depth)
  let (index, d) := d.constant program
  d.push (update dest (.const index))

end Draft

end AffineLoops
