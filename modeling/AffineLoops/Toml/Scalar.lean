import AffineLoops.Toml.Node
import AffineLoops.Toml.Reader

/-!
Nodes that are written as one word: truth values, integers, floats, dates and times.

The word is taken off the text first, as far as its characters go, and then has to be one of the known
forms as a whole. No form can be followed directly by a character that a word may hold.
-/

namespace AffineLoops

namespace Toml

/-! ### Integers -/

/-- Digits without the single underscores that may stand between two of them. -/
def digits? (isDigit : Char → Bool) : List Char → Option (List Char)
  | [] => none
  | [c] => if isDigit c then some [c] else none
  | c :: '_' :: rest => if isDigit c then (digits? isDigit rest).map (c :: ·) else none
  | c :: rest => if isDigit c then (digits? isDigit rest).map (c :: ·) else none

/-- The digits of a decimal number, where only zero itself begins with a zero. -/
def decimalDigits? : List Char → Option (List Char)
  | ['0'] => some ['0']
  | '0' :: _ => none
  | word => digits? Char.isDigit word

/-- Integers have 64 bits with a sign. -/
def integerInRange (n : Int) : Option Int :=
  if -Int.pow 2 63 ≤ n ∧ n < Int.pow 2 63 then some n else none

/-- An unsigned integer to another base than ten. -/
def basedInteger? (base : Nat) (isDigit : Char → Bool) (word : List Char) : Option Int := do
  integerInRange (numeral base (← digits? isDigit word))

def decimalInteger? (word : List Char) : Option Int :=
  (decimalDigits? word).map fun digits => (numeral 10 digits : Int)

def integer? : List Char → Option Int
  | '0' :: 'x' :: rest => basedInteger? 16 isHexDigit rest
  | '0' :: 'o' :: rest => basedInteger? 8 (fun c => '0' ≤ c && c ≤ '7') rest
  | '0' :: 'b' :: rest => basedInteger? 2 (fun c => c = '0' || c = '1') rest
  | '+' :: rest => (decimalInteger? rest).bind integerInRange
  | '-' :: rest => (decimalInteger? rest).bind fun n => integerInRange (-n)
  | word => (decimalInteger? word).bind integerInRange

/-! ### Floats -/

/-- The least number that is infinite as a double: half a unit above the greatest finite one. -/
def overflowLimit : Nat := (Nat.pow 2 54 - 1) * Nat.pow 2 970

/-- Whether `digits · 10 ^ exponent` is infinite as a double. Numbers far from the limit are told by their
number of digits. -/
def overflows (digits : List Char) (exponent : Int) : Bool :=
  let digits := digits.dropWhile (· = '0')
  let width : Int := digits.length + exponent
  if digits.isEmpty || width < 300 then false
  else if width > 320 then true
  else overflowLimit * Nat.pow 10 (-exponent).toNat ≤ numeral 10 digits * Nat.pow 10 exponent.toNat

/-- The exponent of a float, after its mark. -/
def exponent? : List Char → Option Int
  | '+' :: rest => (digits? Char.isDigit rest).map fun digits => (numeral 10 digits : Int)
  | '-' :: rest => (digits? Char.isDigit rest).map fun digits => -(numeral 10 digits : Int)
  | word => (digits? Char.isDigit word).map fun digits => (numeral 10 digits : Int)

/-- The digits and the exponent of a float without sign: a whole part with a fraction, an exponent or
both. -/
def unsignedFloat? (word : List Char) : Option (List Char × Int) := do
  let isMark (c : Char) : Bool := c = 'e' || c = 'E'
  let mantissa := word.takeWhile fun c => !isMark c
  let (whole, fraction) := (mantissa.takeWhile (· ≠ '.'), mantissa.dropWhile (· ≠ '.'))
  let wholeDigits ← decimalDigits? whole
  let fractionDigits ← match fraction with
    | [] => some []
    | _ :: digits => digits? Char.isDigit digits
  let exponent ← match word.dropWhile fun c => !isMark c with
    | [] => if fraction.isEmpty then none else some 0
    | _ :: rest => exponent? rest
  return (wholeDigits ++ fractionDigits, exponent - fractionDigits.length)

/-- Whether a word is a float. One that is too large is not, while one that is too small for its sign is
minus infinity. -/
def isFloat (word : List Char) : Bool :=
  let named (rest : List Char) : Bool := rest = ['i', 'n', 'f'] || rest = ['n', 'a', 'n']
  let fits (rest : List Char) : Bool := match unsignedFloat? rest with
    | some (digits, exponent) => !overflows digits exponent
    | none => false
  match word with
  | '-' :: rest => named rest || (unsignedFloat? rest).isSome
  | '+' :: rest => named rest || fits rest
  | _ => named word || fits word

/-! ### Dates and times -/

/-- A number of two digits in a range. -/
def isTwoDigits (low high : Nat) (a b : Char) : Bool :=
  a.isDigit && b.isDigit && low ≤ numeral 10 [a, b] && numeral 10 [a, b] ≤ high

def isLeapYear (year : Nat) : Bool :=
  (year % 4 = 0 && year % 100 ≠ 0) || year % 400 = 0

def daysInMonth (year month : Nat) : Nat :=
  if month = 2 then (if isLeapYear year then 29 else 28)
  else if month ∈ [4, 6, 9, 11] then 30
  else 31

def isDate : List Char → Bool
  | [y₁, y₂, y₃, y₄, '-', m₁, m₂, '-', d₁, d₂] =>
    [y₁, y₂, y₃, y₄].all Char.isDigit && isTwoDigits 1 12 m₁ m₂
      && isTwoDigits 1 (daysInMonth (numeral 10 [y₁, y₂, y₃, y₄]) (numeral 10 [m₁, m₂])) d₁ d₂
  | _ => false

/-- What follows a time of day, whose seconds may have a fraction. -/
def afterTime? : List Char → Option (List Char)
  | h₁ :: h₂ :: ':' :: m₁ :: m₂ :: ':' :: s₁ :: s₂ :: rest =>
    if isTwoDigits 0 23 h₁ h₂ && isTwoDigits 0 59 m₁ m₂ && isTwoDigits 0 60 s₁ s₂ then
      match rest with
      | '.' :: d :: rest => if d.isDigit then some (rest.dropWhile Char.isDigit) else none
      | _ => some rest
    else none
  | _ => none

/-- An offset from universal time, which may be missing. -/
def isOffset : List Char → Bool
  | [] => true
  | ['Z'] | ['z'] => true
  | [sign, h₁, h₂, ':', m₁, m₂] =>
    (sign = '+' || sign = '-') && isTwoDigits 0 23 h₁ h₂ && isTwoDigits 0 59 m₁ m₂
  | _ => false

/-- A time of day as it follows a date. -/
def isTimeOfDate (word : List Char) : Bool := (afterTime? word).any isOffset

/-- Whether a word is a date, a time, or both with a `T` between them. -/
def isMoment (word : List Char) : Bool :=
  isDate word || (afterTime? word).any List.isEmpty ||
    (isDate (word.take 10) &&
      match word.drop 10 with
      | 'T' :: time | 't' :: time => isTimeOfDate time
      | _ => false)

/-! ### Words -/

def isWordChar (c : Char) : Bool := c.isAlphanum || c ∈ ['_', '+', '-', '.', ':']

/-- The node that a word is. -/
def word? (word : List Char) : Option Node :=
  if word = ['t', 'r', 'u', 'e'] then some (.boolean true)
  else if word = ['f', 'a', 'l', 's', 'e'] then some (.boolean false)
  else match integer? word with
    | some n => some (.integer n)
    | none =>
      if isFloat word then some .float
      else if isMoment word then some .moment
      else none

/-- A node of one word. A date may also be divided by a space from its time, so a digit there has to begin
one. -/
def scalar : Reader Node := fun text =>
  let (word, rest) := text.span isWordChar
  match isDate word, rest with
  | true, ' ' :: c :: more =>
    if c.isDigit then
      let (time, rest) := (c :: more).span isWordChar
      if isTimeOfDate time then some (.moment, rest) else none
    else some (.moment, rest)
  | _, _ => (word? word).map fun node => (node, rest)

end Toml

end AffineLoops
