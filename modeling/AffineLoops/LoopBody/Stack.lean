/-!
Rearrangements of a stack, top first. The literal machine applies them to values and the compiler to
symbolic entries.
-/

namespace AffineLoops.Stack

variable {α : Type}

/-- Puts the top entry below the `count - 1` entries under it. -/
def rotate (count : Nat) : List α → List α
  | [] => []
  | top :: rest => rest.take (count - 1) ++ top :: rest.drop (count - 1)

/-- Pushes copies of the `count` top entries in the same order. -/
def duplicate (count : Nat) (stack : List α) : List α := stack.take count ++ stack

end AffineLoops.Stack
