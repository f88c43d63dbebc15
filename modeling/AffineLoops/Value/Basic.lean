import AffineLoops.Number.FloatText

/-!
Values of the host program: unbounded integers, truth values and doubles. A truth value reads as the
integer 0 or 1 wherever an integer is wanted, and a set of kinds that admits integers admits truth
values too.
-/

namespace AffineLoops

/-- The three kinds of value. -/
inductive Kind where
  | int
  | bool
  | float
  deriving DecidableEq, Repr

namespace Kind

def name : Kind → String
  | .int => "int"
  | .bool => "bool"
  | .float => "float"

/-- All kinds, in the order in which sets of kinds list them. -/
def all : List Kind := [.int, .bool, .float]

def ofName? (text : String) : Option Kind := all.find? fun kind => kind.name = text

end Kind

/-- A value of the host program. -/
inductive Value where
  | int (n : Int)
  | bool (b : Bool)
  | float (x : Float)
  deriving DecidableEq

namespace Value

def kind : Value → Kind
  | .int _ => .int
  | .bool _ => .bool
  | .float _ => .float

def text : Value → String
  | .int n => toString n
  | .bool b => if b then "True" else "False"
  | .float x => FloatLayout.value.text x

/-- The integer that a truth value reads as. -/
def ofBool (b : Bool) : Int := if b then 1 else 0

/-- The integer a value reads as; a double reads as none, even a whole one. -/
def asInt? : Value → Option Int
  | .int n => some n
  | .bool b => some (ofBool b)
  | .float _ => none

/-- The double a value reads as; integers are rounded to the nearest. -/
def asFloat : Value → Float
  | .int n => Binary64.ofInt n
  | .bool b => Binary64.ofInt (ofBool b)
  | .float x => x

/-- Zero is false and all else is true, NaN included. -/
def truthy : Value → Bool
  | .int n => n != 0
  | .bool b => b
  | .float x => x != 0.0

end Value

/-- A set of kinds. -/
structure KindSet where
  int : Bool
  bool : Bool
  float : Bool
  deriving DecidableEq, Repr

namespace KindSet

def empty : KindSet := ⟨false, false, false⟩

/-- Only integers, and with them truth values, are admitted unless the user says otherwise. -/
def integers : KindSet := ⟨true, false, false⟩

instance : Inhabited KindSet := ⟨integers⟩

def insert (set : KindSet) : Kind → KindSet
  | .int => { set with int := true }
  | .bool => { set with bool := true }
  | .float => { set with float := true }

def ofList (kinds : List Kind) : KindSet := kinds.foldl insert empty

def contains (set : KindSet) : Kind → Bool
  | .int => set.int
  | .bool => set.bool
  | .float => set.float

def toList (set : KindSet) : List Kind := Kind.all.filter set.contains

def isEmpty (set : KindSet) : Bool := set.toList.isEmpty

/-- A truth value passes where integers do; any other value needs its own kind. -/
def allows (set : KindSet) : Value → Bool
  | .bool _ => set.bool || set.int
  | value => set.contains value.kind

def text (set : KindSet) : String := ", ".intercalate (set.toList.map Kind.name)

end KindSet

end AffineLoops
