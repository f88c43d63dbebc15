import AffineLoops.CompiledLoop.Basic

/-!
The user's settings and what makes them valid.
-/

namespace AffineLoops

structure Settings where
  /-- Whether failures are reported rather than answered by a literal run. -/
  strict : Bool
  /-- Loops of at most this many rounds are run literally. -/
  itersLimit : Nat
  /-- The kinds that constants and variables may have. -/
  types : KindSet
  foldConstantRows : Bool
  clearFreedStackSlots : Bool
  deriving DecidableEq, Repr

/-- Why settings cannot be used. -/
inductive ConfigError where
  | malformedFile
  | missingFile (path : String)
  | floatAllowed
  | noTypes
  deriving DecidableEq, Repr

def ConfigError.message : ConfigError → String
  | .malformedFile => "Failed to parse cpm.toml"
  | .missingFile path => "Failed to read " ++ path ++ ": No such file or directory (os error 2)"
  | .floatAllowed => "float values can't be accelerated and must not be allowed"
  | .noTypes => "at least one allowed type is required"

namespace Settings

instance : Inhabited Settings := ⟨⟨false, 5000, default, true, true⟩⟩

/-- No smaller limit is worth anything. -/
def minItersLimit : Nat := 2

/-- Raises the limit to the least one, and refuses sets of kinds that no matrix can hold. -/
def validate (settings : Settings) : Except ConfigError Settings :=
  if settings.types.contains .float then .error .floatAllowed
  else if settings.types.isEmpty then .error .noTypes
  else .ok { settings with itersLimit := max settings.itersLimit minItersLimit }

def compileOptions (settings : Settings) : CompileOptions :=
  ⟨settings.types, settings.foldConstantRows, settings.clearFreedStackSlots⟩

end Settings

end AffineLoops
