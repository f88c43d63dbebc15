import AffineLoops.RunError

/-!
Bounded integer progressions with a fixed step, and the other things that a loop may run over.

The stop of a progression is kept at the first value that is not produced, so that the step divides the
distance from the start, and the number of elements is their quotient. `element` gives the elements one
by one and `toList` all of them.
-/

namespace AffineLoops

/-- The integers `start`, `start + step`, … before `stop`. -/
structure Progression where
  start : Int
  stop : Int
  step : Int
  deriving DecidableEq, Repr

namespace Progression

/-- The first value from `stop` on, in the direction of `step`, that a progression from `start` meets. -/
def alignedStop (start stop step : Int) : Int :=
  let rest := (stop - start).fmod step
  if rest = 0 then stop else stop + (step - rest)

/-- The progression from `start` to before `stop`; one that leads away from `stop` is empty. -/
def ofBounds (start stop step : Int) : Except RunError Progression :=
  if step = 0 then .error .zeroStep
  else
    let aligned := alignedStop start stop step
    if (aligned - start).sign = step.sign then .ok ⟨start, aligned, step⟩ else .ok ⟨start, start, step⟩

/-- The progression `0`, `1`, …, `stop - 1`. -/
def upto (stop : Int) : Progression := ⟨0, max stop 0, 1⟩

variable (p : Progression)

/-- Number of elements. -/
def length : Int := (p.stop - p.start).tdiv p.step

def isEmpty : Bool := p.start == p.stop

/-- The element `index` steps after the start. -/
def element (index : Nat) : Int := p.start + p.step * index

/-- The element at an index; a negative index counts from the end. -/
def get? (index : Int) : Option Int :=
  let index := if index < 0 then p.length + index else index
  if index < 0 ∨ p.length ≤ index then none else some (p.start + p.step * index)

def first? : Option Int := if p.isEmpty then none else some p.start

def last? : Option Int := if p.isEmpty then none else some (p.stop - p.step)

/-- At most `count` elements from the start. -/
def take (count : Nat) : List Int := (List.range (min count p.length.toNat)).map p.element

def toList : List Int := (List.range p.length.toNat).map p.element

/-- Parts that have their usual value are left out. -/
def text : String :=
  if p.start = 0 ∧ p.step = 1 then s!"range({p.stop})"
  else if p.step = 1 then s!"range({p.start}, {p.stop})"
  else s!"range({p.start}, {p.stop}, {p.step})"

end Progression

/-- What a loop runs over. -/
inductive Iterable where
  | range (p : Progression)
  | items (values : List Value)
  deriving DecidableEq

namespace Iterable

def length : Iterable → Int
  | .range p => p.length
  | .items values => values.length

def isEmpty : Iterable → Bool
  | .range p => p.isEmpty
  | .items values => values.isEmpty

def typeName : Iterable → String
  | .range _ => "range"
  | .items _ => "list"

/-- At most `count` elements from the start, as values. -/
def take (count : Nat) : Iterable → List Value
  | .range p => (p.take count).map .int
  | .items values => values.take count

def toList : Iterable → List Value
  | .range p => p.toList.map .int
  | .items values => values

end Iterable

end AffineLoops
