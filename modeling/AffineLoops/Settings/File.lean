import AffineLoops.Settings.Basic
import AffineLoops.Toml.Document

/-!
Settings from a configuration file. Keys that name no setting are ignored, and settings without a key have
their usual values.
-/

namespace AffineLoops

namespace Toml

namespace Node

def boolean? : Node → Option Bool
  | .boolean b => some b
  | _ => none

def natural? : Node → Option Nat
  | .integer n => if 0 ≤ n then some n.toNat else none
  | _ => none

/-- Nothing between brackets or braces, or under a header. -/
def isVoid : Node → Bool
  | .array items => items.isEmpty
  | .table _ entries => entries.isEmpty
  | .tables items => items.isEmpty
  | _ => false

/-- A kind as a table: its name is the only key, with nothing under it. -/
def kindOfEntries? : Entries → Option Kind
  | [(name, node)] => if node.isVoid then Kind.ofName? name else none
  | _ => none

/-- A kind by its name, as text or as a table. -/
def kind? : Node → Option Kind
  | .text name => Kind.ofName? name
  | .table _ entries => kindOfEntries? entries
  | _ => none

def kinds? : Node → Option KindSet
  | .array items => (items.mapM kind?).map KindSet.ofList
  | .tables items => (items.mapM kindOfEntries?).map KindSet.ofList
  | _ => none

end Node

/-- The setting under a key, if it has one. -/
def Entries.setting {α : Type} (entries : Entries) (key : String) (usual : α)
    (read : Node → Option α) : Option α :=
  match entries.lookup key with
  | none => some usual
  | some node => read node

end Toml

namespace Settings

open Toml in
/-- The settings of a document, not validated. -/
def ofEntries? (entries : Entries) : Option Settings := do
  let usual : Settings := default
  return {
    strict := ← entries.setting "strict" usual.strict Node.boolean?
    itersLimit := ← entries.setting "iters_limit" usual.itersLimit Node.natural?
    types := ← entries.setting "types" usual.types Node.kinds?
    foldConstantRows := ← entries.setting "fold_constant_rows" usual.foldConstantRows Node.boolean?
    clearFreedStackSlots :=
      ← entries.setting "clear_freed_stack_slots" usual.clearFreedStackSlots Node.boolean? }

/-- Settings from the text of a configuration file. -/
def ofToml (text : String) : Except ConfigError Settings :=
  match (Toml.parse? text).bind ofEntries? with
  | none => .error .malformedFile
  | some settings => settings.validate

/-- Settings from a file, given what it holds if it exists. -/
def ofFile (path : String) (content : Option String) : Except ConfigError Settings :=
  match content with
  | none => .error (.missingFile path)
  | some text => ofToml text

end Settings

end AffineLoops
