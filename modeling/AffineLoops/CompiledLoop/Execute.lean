import AffineLoops.CompiledLoop.Constants
import AffineLoops.MatrixCode.Engine
import AffineLoops.Progression
import AffineLoops.Settings.Basic

/-!
Accelerated runs of compiled loops: the state vector is loaded from the frame, the constants are
computed, the code is resolved and handed to the engine. The frame itself is not changed; the values to
store are returned.
-/

namespace AffineLoops

/-- The numbers of one run. -/
structure LoopShape where
  start : Int
  step : Int
  itersCount : Int
  /-- The last element, if there is one. -/
  last : Option Int
  deriving DecidableEq, Repr

def LoopShape.param (shape : LoopShape) : Param → Int
  | .start => shape.start
  | .step => shape.step
  | .itersCount => shape.itersCount

/-- The shape of a run over `iterable`, or none when at most `limit` rounds are to be run. -/
def Iterable.shape? (iterable : Iterable) (limit : Nat) : Except RunError (Option LoopShape) :=
  match iterable with
  | .items _ => .error (.notAProgression iterable.typeName)
  | .range p =>
    if p.length ≤ limit then .ok none else .ok (some ⟨p.start, p.step, p.length, p.last?⟩)

/-- The values to store after a run. -/
structure WriteBack where
  values : List (Variable × Value)
  /-- The target of a loop that keeps it outside the state vector. -/
  counter : Option (Variable × Value)
  deriving DecidableEq

namespace WriteBack

def empty : WriteBack := ⟨[], none⟩

def isEmpty (w : WriteBack) : Bool := w.values.isEmpty && w.counter.isNone

/-- The stores in order, the target last. -/
def stores (w : WriteBack) : List (Variable × Value) := w.values ++ w.counter.toList

def apply (w : WriteBack) (frame : Frame) : Frame :=
  w.stores.foldl (fun frame (v, value) => frame.store v value) frame

end WriteBack

namespace CompiledLoop

/-- The value of a slot before the loop. A variable that is not set counts as zero. -/
def slotValue (frame : Frame) (types : KindSet) : SlotKey → Except RunError Int
  | .host v =>
    match frame.load? v with
    | some value =>
      if types.allows value then value.toInt.mapError .arithmetic
      else .error (.disallowedType v.name value.kind types)
    | none => .ok 0
  | .counter | .stack _ => .ok 0

/-- The state vector before the loop. -/
def loadState (loop : CompiledLoop) (frame : Frame) (types : KindSet) : Except RunError (List Int) :=
  loop.slots.mapM fun slot => slotValue frame types slot.key

def resolveOperand (folded : List Int) (shape : LoopShape) : Operand → Except RunError Resolved
  | .value n => .ok (.value n)
  | .const index =>
    match folded[index]? with
    | some n => .ok (.value n)
    | none => .error (.malformedConstant index)
  | .param p => .ok (.value (shape.param p))
  | .var slot => .ok (.var slot)

/-- Replaces constants and parameters by their values. -/
def resolve (code : List (Instr Operand)) (folded : List Int) (shape : LoopShape) :
    Except RunError (List (Instr Resolved)) :=
  code.mapM fun instr => instr.traverse (resolveOperand folded shape)

/-- The values of the loop's constants as integers. -/
def foldedInts (loop : CompiledLoop) (frame : Frame) (types : KindSet) : Except RunError (List Int) := do
  let values ← ConstProgram.evaluateAll loop.consts frame types
  values.mapM fun value => value.toInt.mapError .arithmetic

/-- The target's last value, when it is kept outside the state vector. -/
def finalCounter (loop : CompiledLoop) (shape : LoopShape) : Option (Variable × Value) :=
  match loop.counter, shape.last with
  | some v, some last => if loop.storeCounter then some (v, .int last) else none
  | _, _ => none

/-- Runs a compiled loop of a known shape against a frame. No round at all stores nothing. -/
def execute (loop : CompiledLoop) (shape : LoopShape) (frame : Frame) (settings : Settings) :
    Except RunError WriteBack :=
  if shape.itersCount ≤ 0 then .ok .empty
  else do
    let state ← loop.loadState frame settings.types
    let folded ← loop.foldedInts frame settings.types
    let code ← resolve loop.code folded shape
    let result ← ((⟨settings.foldConstantRows⟩ : Engine).run code state).mapError .engine
    return {
      values := loop.writeBackSlots.map fun (slot, v) => (v, .int (result.getD slot 0))
      counter := loop.finalCounter shape }

/-- Runs a compiled loop over an iterable, unless the loop is too short to be worth it. -/
def executeOver (loop : CompiledLoop) (iterable : Iterable) (frame : Frame) (settings : Settings) :
    Except RunError (Option WriteBack) := do
  match ← iterable.shape? settings.itersLimit with
  | some shape => some <$> loop.execute shape frame settings
  | none => return none

end CompiledLoop

end AffineLoops
