import AffineLoops.CompiledLoop.Lowering

/-!
Compilation of a loop body.

The first instruction of a body, line markers apart, stores the next element into the loop target. The
rest becomes the block of one counted loop. How the target is kept depends on the body's use of it: a
target that the body does not touch is set once after the run; one that is only read is advanced in its
own slot and taken back by one step at the end; one that is overwritten is copied, in every round, from a
slot that carries the progression.
-/

namespace AffineLoops

namespace CompiledLoop

/-- Skips the line markers at the head of a body, keeping the last line they give. -/
def skipMarkers : Option Nat → List Instruction → Option Nat × List Instruction
  | line, [] => (line, [])
  | line, instr :: rest =>
    if instr.isMarker then skipMarkers (instr.markedLine line) rest else (line, instr :: rest)

/-- Lowers the instructions after the loop target. An error carries its instruction and the line in
force there. -/
def lowerBody (options : CompileOptions) :
    Option Nat → List Instruction → Draft → Except CompileError (Option Nat × Draft)
  | line, [], d => .ok (line, d)
  | line, instr :: rest, d =>
    if instr.isMarker then lowerBody options (instr.markedLine line) rest d
    else
      match d.lower options instr with
      | .ok d => lowerBody options line rest d
      | .error fault => .error ⟨fault, some instr, line⟩

/-- Announces the variables of a body in the order of their first access; a variable is stored to if any
instruction of the body stores to it. -/
def registerAll (body : List Instruction) (d : Draft) : Draft :=
  let accesses := body.filterMap Instruction.access?
  accesses.foldl (fun d access => d.register access.var (.store access.var ∈ accesses)) d

/-- The slot that carries the progression, if one does. -/
def serviceSlot (counter : Variable) : CounterUse → Option SlotKey
  | .unused => none
  | .readOnly => some (.host counter)
  | .mutated => some .counter

/-- The code before the body: the progression's start, the loop, and the copy of the progression into a
target that the body overwrites. -/
def prologue (counter : Variable) (use : CounterUse) (d : Draft) : Draft :=
  let d := match serviceSlot counter use with
    | some key => d.emit .mov (.slot key) (.param .start)
    | none => d
  let d := d.emitLoop (.param .itersCount)
  match use with
  | .mutated => d.emit .mov (.slot (.host counter)) (.slot .counter)
  | _ => d

/-- The code after the body: the step to the next element, the end of the loop, and the step back from
one past the last element. -/
def epilogue (counter : Variable) (use : CounterUse) (d : Draft) : Draft :=
  let d := match serviceSlot counter use with
    | some key => d.emit .add (.slot key) (.param .step)
    | none => d
  let d := d.emitEnd
  match use with
  | .readOnly => d.emit .sub (.slot (.host counter)) (.param .step)
  | _ => d

/-- The loop of a finished draft. Host slots, and only they, go back to the frame. -/
def ofDraft (d : Draft) (counter : Option Variable) (use : CounterUse) : CompiledLoop where
  code := d.code
  slots := d.slots.map fun key => ⟨key, key.isHost⟩
  consts := d.consts
  counter := counter
  counterUse := use
  storeCounter := use = .unused && counter.isSome

/-- How the target is kept. Without row folding every target counts as overwritten. -/
def counterUseOf (options : CompileOptions) (counter : Variable) (body : List Instruction) : CounterUse :=
  if options.foldConstantRows then .classify counter body else .mutated

/-- Compiles what follows the store into the loop target. -/
def compileRest (options : CompileOptions) (line : Option Nat) (counter : Variable)
    (body : List Instruction) : Except CompileError CompiledLoop := do
  let use := counterUseOf options counter body
  let d := if use = .unused then Draft.empty else Draft.empty.register counter true
  let d := prologue counter use (registerAll body d)
  let (line, d) ← lowerBody options line body d
  if d.stack.isEmpty then return ofDraft (epilogue counter use d) (some counter) use
  else .error ⟨.invalidStack, none, line⟩

/-- Compiles a loop body. `headLine` is the line of the loop itself, for errors before the first line
marker. A body without instructions is a loop that does nothing. -/
def compile (body : List Instruction) (options : CompileOptions) (headLine : Option Nat) :
    Except CompileError CompiledLoop :=
  match skipMarkers headLine body with
  | (_, []) => .ok (ofDraft (Draft.empty.emitLoop (.param .itersCount)).emitEnd none .unused)
  | (line, target :: rest) =>
    match target.access? with
    | some (.store counter) => compileRest options line counter rest
    | _ => .error ⟨.unsupportedIterator target, some target, line⟩

end CompiledLoop

end AffineLoops
