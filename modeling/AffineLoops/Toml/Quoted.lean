import AffineLoops.Toml.Reader

/-!
Quoted text: in double quotes with escapes, in single quotes without, and each of them over several lines
between three quotes.
-/

namespace AffineLoops

namespace Toml

/-! ### Escapes -/

/-- The character with a code point given by exactly so many hexadecimal digits. -/
def codePoint (width : Nat) : Reader Char := fun text =>
  let digits := text.take width
  let code := numeral 16 digits
  if digits.length = width ∧ digits.all isHexDigit ∧ code.isValidChar then
    some (Char.ofNat code, text.drop width)
  else none

/-- What stands after the backslash of an escape. -/
def escape : Reader Char
  | 'b' :: rest => some ('\x08', rest)
  | 't' :: rest => some ('\t', rest)
  | 'n' :: rest => some ('\n', rest)
  | 'f' :: rest => some ('\x0c', rest)
  | 'r' :: rest => some ('\r', rest)
  | '"' :: rest => some ('"', rest)
  | '\\' :: rest => some ('\\', rest)
  | 'u' :: rest => codePoint 4 rest
  | 'U' :: rest => codePoint 8 rest
  | _ => none

/-! ### One line -/

/-- One character between double quotes. -/
def basicChar : Reader Char
  | '"' :: _ => none
  | '\\' :: rest => escape rest
  | c :: rest => if isPlain c then some (c, rest) else none
  | [] => none

/-- One character between single quotes. -/
def literalChar : Reader Char
  | '\'' :: _ => none
  | c :: rest => if isPlain c then some (c, rest) else none
  | [] => none

/-- Characters up to a closing quote. -/
def closedBy (quote : Char) (char : Reader Char) : Reader String := fun text =>
  match many char text with
  | (chars, c :: rest) => if c = quote then some (String.ofList chars, rest) else none
  | (_, []) => none

/-- Text on one line, after its opening quote. -/
def basicText : Reader String := closedBy '"' basicChar

def literalText : Reader String := closedBy '\'' literalChar

/-! ### Several lines -/

/-- One or two quotes that are followed by something else. -/
def innerQuotes (quote : Char) : Reader (List Char) := fun text =>
  let quotes := text.takeWhile (· = quote)
  let rest := text.drop quotes.length
  if 1 ≤ quotes.length ∧ quotes.length ≤ 2 ∧ !rest.isEmpty then some (quotes, rest) else none

/-- A line break that a backslash hides, with the blank lines and the indentation after it. -/
def hiddenBreak (text : List Char) : Option (List Char) :=
  (newline? (skipSpaces text)).map skipBlankLines
where
  skipBlankLines : List Char → List Char
    | [] => []
    | '\r' :: '\n' :: rest => skipBlankLines rest
    | c :: rest => if isSpace c || c = '\n' then skipBlankLines rest else c :: rest

/-- One piece of text over several lines; `char` reads a character that is neither quote nor line end. -/
def piece (quote : Char) (char : Reader Char) (hasEscapes : Bool) : Reader (List Char) := fun text =>
  match newline? text, innerQuotes quote text with
  | some rest, _ => some (['\n'], rest)
  | none, some quotes => some quotes
  | none, none =>
    match hasEscapes, text with
    | true, '\\' :: rest =>
      match hiddenBreak rest with
      | some rest => some ([], rest)
      | none => (escape rest).map fun (c, rest) => ([c], rest)
    | _, _ => (char text).map fun (c, rest) => ([c], rest)

/-- Text over several lines, after its three opening quotes. A line end right there does not count, and
up to two quotes may stand before the three closing ones. -/
def linesClosedBy (quote : Char) (char : Reader Char) (hasEscapes : Bool) : Reader String := fun text =>
  let (pieces, rest) := many (piece quote char hasEscapes) ((newline? text).getD text)
  let quotes := rest.takeWhile (· = quote)
  if 3 ≤ quotes.length ∧ quotes.length ≤ 5 then
    some (String.ofList (pieces.flatten ++ quotes.drop 3), rest.drop quotes.length)
  else none

def basicLines : Reader String := linesClosedBy '"' basicChar true

def literalLines : Reader String := linesClosedBy '\'' literalChar false

/-- Quoted text of any form. -/
def quotedText : Reader String
  | '"' :: '"' :: '"' :: rest => basicLines rest
  | '"' :: rest => basicText rest
  | '\'' :: '\'' :: '\'' :: rest => literalLines rest
  | '\'' :: rest => literalText rest
  | _ => none

end Toml

end AffineLoops
