/-!
Reading configuration text from the front: readers, the classes of characters, and what may be skipped.

A reader takes what it recognises off the front of a text and returns what it means with the rest, or
fails. Any failure makes the whole text malformed, so failures carry nothing.
-/

namespace AffineLoops

namespace Toml

abbrev Reader (α : Type) := List Char → Option (α × List Char)

/-! ### Characters -/

def isSpace (c : Char) : Bool := c = ' ' || c = '\t'

/-- Characters that may stand in text as they are: all but the control characters, of which only the tab
is one. -/
def isPlain (c : Char) : Bool := c = '\t' || (0x20 ≤ c.toNat && c.toNat ≠ 0x7F)

def isBareKey (c : Char) : Bool := c.isAlphanum || c = '_' || c = '-'

def isHexDigit (c : Char) : Bool := c.isDigit || ('a' ≤ c && c ≤ 'f') || ('A' ≤ c && c ≤ 'F')

/-- The value of a digit to any base up to sixteen. -/
def digitValue (c : Char) : Nat :=
  if c.isDigit then c.toNat - '0'.toNat
  else if 'a' ≤ c then c.toNat - 'a'.toNat + 10
  else c.toNat - 'A'.toNat + 10

/-- The number that digits spell to a base. -/
def numeral (base : Nat) (digits : List Char) : Nat :=
  digits.foldl (fun n c => base * n + digitValue c) 0

/-! ### Skipping -/

def skipSpaces (text : List Char) : List Char := text.dropWhile isSpace

/-- Takes off a line end: a line feed, alone or after a carriage return. -/
def newline? : List Char → Option (List Char)
  | '\n' :: rest => some rest
  | '\r' :: '\n' :: rest => some rest
  | _ => none

/-- Takes off spaces, line ends and comments. A comment runs to the end of its line; it stops early at a
character that no comment holds, and what comes next then fails on that character. -/
def skipLines : (inComment : Bool) → List Char → List Char
  | _, [] => []
  | _, '\n' :: rest => skipLines false rest
  | _, '\r' :: '\n' :: rest => skipLines false rest
  | true, c :: rest => if isPlain c then skipLines true rest else c :: rest
  | false, c :: rest =>
    if isSpace c then skipLines false rest
    else if c = '#' then skipLines true rest
    else c :: rest

/-- Takes off the end of a line: spaces, a comment if there is one, and the line end or the end of all. -/
def lineEnd? (text : List Char) : Option (List Char) :=
  let rest := match skipSpaces text with
    | '#' :: rest => rest.dropWhile isPlain
    | rest => rest
  if rest.isEmpty then some [] else newline? rest

/-! ### Repetition -/

/-- Applies a reader again and again, at most `fuel` times, until it fails. -/
def manyUpTo {α : Type} (read : Reader α) : Nat → List Char → List α × List Char
  | 0, text => ([], text)
  | fuel + 1, text =>
    match read text with
    | none => ([], text)
    | some (x, rest) =>
      let (xs, rest) := manyUpTo read fuel rest
      (x :: xs, rest)

/-- Applies a reader until it fails. The reader takes at least one character each time, so there are no
more rounds than characters. -/
def many {α : Type} (read : Reader α) (text : List Char) : List α × List Char :=
  manyUpTo read text.length text

end Toml

end AffineLoops
