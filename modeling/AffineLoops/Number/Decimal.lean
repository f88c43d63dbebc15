import AffineLoops.Number.Binary64

/-!
The shortest decimal of a double: of all decimals that read back as the double, one with the fewest
digits, and of those the nearest, an exact tie going up. The search is done in exact integer arithmetic
on the interval of reals that round to the double.
-/

namespace AffineLoops

/-- A decimal number `digits · 10 ^ exponent`. -/
structure Decimal where
  digits : Nat
  exponent : Int
  deriving DecidableEq, Repr

namespace Decimal

/-- Number of decimal digits of `n`; zero has one. -/
def width (n : Nat) : Nat := (Nat.toDigits 10 n).length

/-- Drops trailing zeros from at most `count` places. -/
def trim : Nat → Decimal → Decimal
  | 0, d => d
  | count + 1, d => if d.digits % 10 = 0 then trim count ⟨d.digits / 10, d.exponent + 1⟩ else d

/-- Exponent of the leading digit: `d` lies between `10 ^ scale` and `10 ^ (scale + 1)`. -/
def scale (d : Decimal) : Int := d.exponent + width d.digits - 1

/-- The reals that round to a double `num / den`: from `num - below` to `num + above`, all over `den`,
ends included when `closed`. -/
structure Interval where
  num : Nat
  den : Nat
  below : Nat
  above : Nat
  closed : Bool

namespace Interval

/-- The interval of the double `mantissa · 2 ^ exponent`. The gap below the least mantissa of a binade is
half as wide as the gap above it, except in the lowest binade. -/
def ofParts (mantissa : Nat) (exponent : Int) : Interval :=
  let up := Nat.pow 2 exponent.toNat
  let narrow := mantissa = Nat.pow 2 Binary64.fractionBits ∧ exponent ≠ Binary64.minExponent
  { num := 4 * mantissa * up
    den := 4 * Nat.pow 2 (-exponent).toNat
    below := if narrow then up else 2 * up
    above := 2 * up
    closed := mantissa % 2 = 0 }

/-- The `k` with `10 ^ (k - 1) ≤ num / den < 10 ^ k`. -/
def magnitude (i : Interval) : Int :=
  if i.den ≤ i.num then width (i.num / i.den) else 1 - width ((i.den - 1) / i.num)

/-- Whether `digits · 10 ^ exponent` reads back as the double. -/
def holds (i : Interval) (d : Decimal) : Bool :=
  let point := d.digits * Nat.pow 10 d.exponent.toNat * i.den
  let unit := Nat.pow 10 (-d.exponent).toNat
  let low := (i.num - i.below) * unit
  let high := (i.num + i.above) * unit
  if i.closed then low ≤ point && point ≤ high else low < point && point < high

/-- The neighbours of the double on the grid of multiples of `10 ^ exponent`: the one below or at it,
and the next; `true` beside them when the upper one is at least as near. -/
def neighbours (i : Interval) (exponent : Int) : Decimal × Decimal × Bool :=
  let num := i.num * Nat.pow 10 (-exponent).toNat
  let den := i.den * Nat.pow 10 exponent.toNat
  let lower := num / den
  (⟨lower, exponent⟩, ⟨lower + 1, exponent⟩, den ≤ 2 * (num % den))

/-- The decimal with `count` digits that reads back as the double, if there is one. -/
def candidate (i : Interval) (count : Nat) : Option Decimal :=
  let (lower, upper, upperNearer) := i.neighbours (i.magnitude - count)
  match i.holds lower, i.holds upper with
  | true, true => some (if upperNearer then upper else lower)
  | true, false => some lower
  | false, true => some upper
  | false, false => none

end Interval

/-- Seventeen digits tell any two doubles apart. -/
def maxDigits : Nat := 17

/-- The shortest decimal of the nonzero double `mantissa · 2 ^ exponent`. -/
def shortest (mantissa : Nat) (exponent : Int) : Decimal :=
  let interval := Interval.ofParts mantissa exponent
  let found := (List.range maxDigits).findSome? fun n => interval.candidate (n + 1)
  trim (maxDigits + 1) (found.getD ⟨0, 0⟩)

end Decimal

end AffineLoops
