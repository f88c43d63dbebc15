import AffineLoops.Settings.Basic

/-!
Settings from the environment. A variable that is unset, or whose text means nothing, leaves its setting
as it was.
-/

namespace AffineLoops

/-- The characters with the Unicode property of white space, as ranges of code points, ends included. -/
def blankRanges : List (Nat × Nat) :=
  [(0x09, 0x0D), (0x20, 0x20), (0x85, 0x85), (0xA0, 0xA0), (0x1680, 0x1680), (0x2000, 0x200A),
    (0x2028, 0x2029), (0x202F, 0x202F), (0x205F, 0x205F), (0x3000, 0x3000)]

def isBlank (c : Char) : Bool :=
  blankRanges.any fun (low, high) => low ≤ c.toNat && c.toNat ≤ high

/-- What is left of a text when blanks are taken off both ends. -/
def trimBlanks (text : List Char) : List Char :=
  ((text.dropWhile isBlank).reverse.dropWhile isBlank).reverse

/-- The texts of the environment's variables, if set. There is none for the kinds of values. -/
structure Environment where
  strict : Option String
  itersLimit : Option String
  foldConstantRows : Option String
  clearFreedStackSlots : Option String
  deriving DecidableEq, Repr

namespace Environment

def onWords : List String := ["1", "true", "yes", "on"]

def offWords : List String := ["0", "false", "no", "off"]

/-- A flag in one of its usual words, in any case of letters and between blanks. -/
def flag? (text : String) : Option Bool :=
  let word := String.ofList ((trimBlanks text.toList).map Char.toLower)
  if word ∈ onWords then some true
  else if word ∈ offWords then some false
  else none

/-- The number that decimal digits spell, if there is a digit and nothing else. -/
def decimal? (digits : List Char) : Option Nat :=
  if !digits.isEmpty && digits.all Char.isDigit then
    some (digits.foldl (fun n c => 10 * n + (c.toNat - '0'.toNat)) 0)
  else none

/-- Limits are below this bound. -/
def limitBound : Nat := Nat.pow 2 64

/-- A limit between blanks, with or without a plus sign. -/
def limit? (text : String) : Option Nat :=
  let digits := match trimBlanks text.toList with
    | '+' :: digits => digits
    | digits => digits
  (decimal? digits).filter (· < limitBound)

/-- The limit that the environment asks for. -/
def requestedLimit (env : Environment) : Option Nat := env.itersLimit.bind limit?

end Environment

namespace Settings

/-- Settings with those of the environment in their place. -/
def override (settings : Settings) (env : Environment) : Settings where
  strict := (env.strict.bind Environment.flag?).getD settings.strict
  itersLimit := env.requestedLimit.getD settings.itersLimit
  types := settings.types
  foldConstantRows := (env.foldConstantRows.bind Environment.flag?).getD settings.foldConstantRows
  clearFreedStackSlots :=
    (env.clearFreedStackSlots.bind Environment.flag?).getD settings.clearFreedStackSlots

/-- The usual settings, as far as the environment does not say otherwise. -/
def ofEnvironment (env : Environment) : Except ConfigError Settings :=
  ((default : Settings).override env).validate

end Settings

end AffineLoops
