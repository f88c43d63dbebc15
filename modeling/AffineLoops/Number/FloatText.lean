import AffineLoops.Number.Decimal

/-!
Texts of doubles. Both texts show the shortest decimal of the double; a layout says where positional
notation ends and whether a whole number keeps a fraction digit.
-/

namespace AffineLoops

/-- How the shortest decimal of a double is laid out. -/
structure FloatLayout where
  /-- Whether a number whose leading digit has this exponent is written without an exponent. -/
  positional : Int → Bool
  /-- Whether a whole number written positionally ends in `.0`. -/
  fraction : Bool

namespace FloatLayout

/-- The text of a value: positional from `0.0001` up to below `10 ^ 16`, and always visibly a float. -/
def value : FloatLayout := ⟨fun scale => -4 ≤ scale && scale < 16, true⟩

/-- The text inside a message: always positional, whole numbers without a fraction. -/
def plain : FloatLayout := ⟨fun _ => true, false⟩

/-- Positional notation of a decimal. -/
def positionalText (layout : FloatLayout) (d : Decimal) : String :=
  let digits := toString d.digits
  if 0 ≤ d.exponent then
    let whole := digits ++ "".pushn '0' d.exponent.toNat
    if layout.fraction then whole ++ ".0" else whole
  else
    let places := (-d.exponent).toNat
    let padded := ("".pushn '0' (places + 1 - digits.length) ++ digits).toList
    let split := padded.length - places
    String.ofList (padded.take split) ++ "." ++ String.ofList (padded.drop split)

/-- Exponent notation: one digit, a point only before further digits, then `e` and the exponent. -/
def exponentText (d : Decimal) : String :=
  let mark := "e" ++ toString d.scale
  match (toString d.digits).toList with
  | lead :: next :: rest => String.ofList [lead, '.'] ++ String.ofList (next :: rest) ++ mark
  | digits => String.ofList digits ++ mark

/-- Text of a double of either sign. -/
def text (layout : FloatLayout) (x : Float) : String :=
  match Binary64.decode x with
  | .nan => "NaN"
  | .infinite negative => if negative then "-inf" else "inf"
  | .finite negative mantissa exponent =>
    let d := if mantissa = 0 then ⟨0, 0⟩ else Decimal.shortest mantissa exponent
    let body := if layout.positional d.scale then layout.positionalText d else exponentText d
    if negative then "-" ++ body else body

end FloatLayout

end AffineLoops
