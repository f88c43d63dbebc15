import AffineLoops.Toml.Quoted
import AffineLoops.Toml.Scalar

/-!
Keys and values. Brackets and braces nest less than eighty deep, and dotted keys have less than eighty
parts.
-/

namespace AffineLoops

namespace Toml

/-! ### Keys -/

/-- A number of levels that neither keys nor values reach. -/
def levelLimit : Nat := 80

/-- One part of a key: bare, or quoted on one line. -/
def keyPart : Reader String
  | '"' :: rest => basicText rest
  | '\'' :: rest => literalText rest
  | text =>
    let (name, rest) := text.span isBareKey
    if name.isEmpty then none else some (String.ofList name, rest)

/-- One part of a key after a dot, with the spaces around it. -/
def dottedPart : Reader String := fun text =>
  match skipSpaces text with
  | '.' :: rest => keyPart (skipSpaces rest)
  | _ => none

/-- A key as its path and its last part, with the spaces around it. -/
def key : Reader (List String × String) := fun text => do
  let (first, rest) ← keyPart (skipSpaces text)
  let (others, rest) := many dottedPart rest
  let parts := first :: others
  if parts.length < levelLimit then return ((parts.dropLast, others.getLastD first), skipSpaces rest)
  else none

/-- A key and its node, with the spaces before and between. -/
def assignment (value : Reader Node) : Reader Assignment := fun text => do
  match ← key text with
  | ((path, key), '=' :: rest) =>
    let (node, rest) ← value (skipSpaces rest)
    return (⟨path, key, node⟩, rest)
  | _ => none

/-! ### Values -/

/-- The items of an array after its bracket, at most `fuel` of them. A comma may follow the last. -/
def arrayItems (value : Reader Node) : Nat → Reader (List Node)
  | 0, _ => none
  | fuel + 1, text =>
    match skipLines false text with
    | ']' :: rest => some ([], rest)
    | text => do
      let (item, rest) ← value text
      match skipLines false rest with
      | ']' :: rest => return ([item], rest)
      | ',' :: rest =>
        let (items, rest) ← arrayItems value fuel rest
        return (item :: items, rest)
      | _ => none

/-- The assignments of a table after its brace, at least one and at most `fuel` of them. No comma follows
the last. -/
def braceItems (value : Reader Node) : Nat → Reader (List Assignment)
  | 0, _ => none
  | fuel + 1, text => do
    let (item, rest) ← assignment value text
    match skipSpaces rest with
    | '}' :: rest => return ([item], rest)
    | ',' :: rest =>
      let (items, rest) ← braceItems value fuel rest
      return (item :: items, rest)
    | _ => none

/-- A table after its brace. -/
def inlineTable (value : Reader Node) : Reader Node := fun text => do
  let (items, rest) ← match skipSpaces text with
    | '}' :: rest => some ([], rest)
    | rest => braceItems value rest.length rest
  return (.table .inline (← Entries.assignAll .inline [] items), rest)

/-- A value without brackets or braces of its own. -/
def plainValue (text : List Char) : Option (Node × List Char) :=
  match text with
  | '"' :: _ | '\'' :: _ => (quotedText text).map fun (s, rest) => (.text s, rest)
  | _ => scalar text

/-- A value in which brackets and braces nest at most `levels` deep. -/
def valueWithin : (levels : Nat) → Reader Node
  | levels + 1, '[' :: rest =>
    (arrayItems (valueWithin levels) (rest.length + 1) rest).map fun (items, rest) => (.array items, rest)
  | levels + 1, '\x7b' :: rest => inlineTable (valueWithin levels) rest
  | _, text => plainValue text

def value : Reader Node := valueWithin (levelLimit - 1)

end Toml

end AffineLoops
