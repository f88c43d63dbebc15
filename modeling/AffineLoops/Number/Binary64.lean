/-!
Doubles through their bits: the sign, mantissa and exponent that the sixty-four bits of a double spell
out, and the double nearest to an integer. Integers are rounded to nearest with ties to even, and one
that is too large for the format becomes an infinity.
-/

namespace AffineLoops.Binary64

/-- What a double stands for. A finite one is `± mantissa · 2 ^ exponent`. -/
inductive Parts where
  | nan
  | infinite (negative : Bool)
  | finite (negative : Bool) (mantissa : Nat) (exponent : Int)
  deriving DecidableEq, Repr

/-- Width of the fraction field. -/
def fractionBits : Nat := 52

/-- The first exponent field that no finite double has. -/
def exponentLimit : Nat := 2047

/-- The least exponent of a finite double, shared by the subnormals and the first normals. -/
def minExponent : Int := -1074

/-- Reads sign, exponent field and fraction off the bits; a normal double has a hidden leading bit. -/
def decode (x : Float) : Parts :=
  let bits := x.toBits.toNat
  let negative := Nat.pow 2 63 ≤ bits
  let field := bits / Nat.pow 2 fractionBits % 2048
  let fraction := bits % Nat.pow 2 fractionBits
  if field = exponentLimit then
    if fraction = 0 then .infinite negative else .nan
  else if field = 0 then
    .finite negative fraction minExponent
  else
    .finite negative (fraction + Nat.pow 2 fractionBits) (minExponent + (field - 1 : Int))

/-- `n / 2 ^ shift` rounded to the nearest integer, ties to even. -/
def roundShift (n shift : Nat) : Nat :=
  let quotient := n / Nat.pow 2 shift
  let twice := 2 * (n % Nat.pow 2 shift)
  if twice < Nat.pow 2 shift then quotient
  else if Nat.pow 2 shift < twice then quotient + 1
  else quotient + quotient % 2

/-- Bits of positive infinity. -/
def infinityBits : Nat := exponentLimit * Nat.pow 2 fractionBits

/-- Bits of the double nearest to `n`. Rounding up to the next power of two carries into the exponent
field, which is exactly the double wanted; past the largest finite double the answer is infinity. -/
def bitsOfNat (n : Nat) : Nat :=
  if n = 0 then 0
  else
    let top := n.log2
    let mantissa :=
      if top ≤ fractionBits then n * Nat.pow 2 (fractionBits - top) else roundShift n (top - fractionBits)
    min infinityBits ((top + 1022) * Nat.pow 2 fractionBits + mantissa)

/-- The double nearest to an integer. -/
def ofInt (n : Int) : Float :=
  let magnitude := bitsOfNat n.natAbs
  Float.ofBits (if n < 0 then Nat.pow 2 63 + magnitude else magnitude).toUInt64

end AffineLoops.Binary64
