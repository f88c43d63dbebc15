import AffineLoops.LoopBody.Variable
import AffineLoops.Value.Basic
import Std.Data.ExtTreeMap

/-!
Frames: the variables of the function that owns a loop. Fast, captured and plain names are stored with
the locals; a plain name is looked up among the globals when no local has it.
-/

namespace AffineLoops

/-- Values by name. Two stores with the same values for the same names are equal. -/
abbrev Store := Std.ExtTreeMap String Value compare

structure Frame where
  locals : Store
  globals : Store

namespace Frame

def empty : Frame := ⟨∅, ∅⟩

def local? (frame : Frame) (name : String) : Option Value := frame.locals[name]?

def global? (frame : Frame) (name : String) : Option Value := frame.globals[name]?

def load? (frame : Frame) (v : Variable) : Option Value :=
  match v.scope with
  | .name => (frame.local? v.name).or (frame.global? v.name)
  | .global => frame.global? v.name
  | .fast | .deref => frame.local? v.name

def store (frame : Frame) (v : Variable) (value : Value) : Frame :=
  match v.scope with
  | .global => { frame with globals := frame.globals.insert v.name value }
  | .name | .fast | .deref => { frame with locals := frame.locals.insert v.name value }

end Frame

end AffineLoops
