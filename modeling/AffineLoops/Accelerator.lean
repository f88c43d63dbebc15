import AffineLoops.CompiledLoop.Compile
import AffineLoops.CompiledLoop.Execute
import AffineLoops.LoopBody.Literal

/-!
The accelerator compiles a loop once, for its place in the host program, and runs it as often as the host
comes by. It tries the compiled loop first; short loops, and unless the user is strict also loops that
cannot be accelerated, are run literally.
-/

namespace AffineLoops

/-- What the host is told when something fails. -/
inductive HostError where
  | compile (cause : CompileError)
  | run (cause : RunError)
  | config (cause : ConfigError)
  deriving DecidableEq

def HostError.message : HostError → String
  | .compile cause => cause.message
  | .run cause => "Can't run optimized loop: " ++ cause.message
  | .config cause => "Configuration error: " ++ cause.message

/-- How a loop was run. -/
inductive RunPath where
  | accelerated
  /-- Too few rounds. -/
  | skipped
  /-- The loop could not be compiled, or the accelerated run failed. -/
  | fallback
  deriving DecidableEq, Repr

/-- A place in the host program with a loop. Without a compiled loop it is always run literally. -/
structure LoopSite where
  body : List Instruction
  headLine : Option Nat
  compiled : Option CompiledLoop
  deriving DecidableEq

structure RunReport where
  path : RunPath
  iterations : Int
  deriving DecidableEq, Repr

/-- A run that failed, with the frame it left. -/
structure FailedRun where
  cause : HostError
  frame : Frame

structure Accelerator where
  settings : Settings
  deriving DecidableEq, Repr

namespace Accelerator

/-- An accelerator with valid settings. -/
def ofSettings (settings : Settings) : Except HostError Accelerator :=
  (settings.validate.mapError .config).map fun valid => ⟨valid⟩

/-- Compiles a loop. A loop that does not compile becomes a site without compiled code, unless the user is
strict. -/
def compile (a : Accelerator) (body : List Instruction) (headLine : Option Nat) :
    Except HostError LoopSite :=
  match CompiledLoop.compile body a.settings.compileOptions headLine with
  | .ok loop => .ok ⟨body, headLine, some loop⟩
  | .error cause =>
    if a.settings.strict then .error (.compile cause) else .ok ⟨body, headLine, none⟩

/-- Runs a site literally. -/
def runLiterally (site : LoopSite) (iterable : Iterable) (frame : Frame) (path : RunPath) :
    Except FailedRun (RunReport × Frame) :=
  match Literal.run site.body iterable frame with
  | .ok frame => .ok (⟨path, iterable.length⟩, frame)
  | .error stopped => .error ⟨.run stopped.cause, stopped.frame⟩

/-- Runs a site. The frame is touched only once an accelerated run has fully succeeded, or by a literal
run. -/
def run (a : Accelerator) (site : LoopSite) (iterable : Iterable) (frame : Frame) :
    Except FailedRun (RunReport × Frame) :=
  match site.compiled with
  | none => runLiterally site iterable frame .fallback
  | some loop =>
    match loop.executeOver iterable frame a.settings with
    | .ok (some writeBack) => .ok (⟨.accelerated, iterable.length⟩, writeBack.apply frame)
    | .ok none => runLiterally site iterable frame .skipped
    | .error cause =>
      if a.settings.strict then .error ⟨.run cause, frame⟩
      else runLiterally site iterable frame .fallback

end Accelerator

end AffineLoops
