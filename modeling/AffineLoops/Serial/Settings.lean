import AffineLoops.Progression
import AffineLoops.Serial.Values
import AffineLoops.Settings.Basic

/-!
Stored forms of settings, compile options and progressions. Settings and options may leave out fields,
which then have their usual values; nothing is validated.
-/

namespace AffineLoops

/-- The iteration limit is a machine word. -/
def decodeLimit (usual : Nat) : Option Tree → Option Nat
  | none => some usual
  | some tree => tree.nat? Tree.wordBound

instance : Stored CompileOptions where
  encode o := .record
    [("types", encode o.types), ("fold_constant_rows", encode o.foldConstantRows),
      ("clear_freed_stack_slots", encode o.clearFreedStackSlots)]
  decode tree := do
    let usual : CompileOptions := default
    match ← tree.optionalFields? ["types", "fold_constant_rows", "clear_freed_stack_slots"] with
    | [types, fold, clear] =>
      return ⟨← Tree.orElse usual.types types, ← Tree.orElse usual.foldConstantRows fold,
        ← Tree.orElse usual.clearFreedStackSlots clear⟩
    | _ => none

instance : Stored Settings where
  encode s := .record
    [("strict", encode s.strict), ("iters_limit", .ofNat s.itersLimit), ("types", encode s.types),
      ("fold_constant_rows", encode s.foldConstantRows),
      ("clear_freed_stack_slots", encode s.clearFreedStackSlots)]
  decode tree := do
    let usual : Settings := default
    match ← tree.optionalFields?
        ["strict", "iters_limit", "types", "fold_constant_rows", "clear_freed_stack_slots"] with
    | [strict, limit, types, fold, clear] =>
      return ⟨← Tree.orElse usual.strict strict, ← decodeLimit usual.itersLimit limit,
        ← Tree.orElse usual.types types, ← Tree.orElse usual.foldConstantRows fold,
        ← Tree.orElse usual.clearFreedStackSlots clear⟩
    | _ => none

instance : Stored Progression where
  encode p := .record [("start", encode p.start), ("stop", encode p.stop), ("step", encode p.step)]
  decode tree := do
    match ← tree.fields? ["start", "stop", "step"] with
    | [start, stop, step] => return ⟨← decode start, ← decode stop, ← decode step⟩
    | _ => none

end AffineLoops
