import AffineLoops.Toml.Value

/-!
Documents: the lines of a text, gathered into sections by their headers, and the table that the sections
make up.
-/

namespace AffineLoops

namespace Toml

/-! ### Lines -/

/-- What a line of a document says. -/
inductive Line where
  | blank
  /-- A header in brackets begins a table. -/
  | table (path : List String) (key : String)
  /-- A header in double brackets begins one more table under its key. -/
  | element (path : List String) (key : String)
  | assign (a : Assignment)

/-- A header after its first bracket. -/
def header : Reader Line
  | '[' :: rest => do
    match ← key rest with
    | ((path, key), ']' :: ']' :: rest) => return (.element path key, rest)
    | _ => none
  | text => do
    match ← key text with
    | ((path, key), ']' :: rest) => return (.table path key, rest)
    | _ => none

/-- One line, up to and with its end. An assignment may go on over several lines. -/
def line (text : List Char) : Option (Line × List Char) := do
  let (content, rest) ← match skipSpaces text with
    | '[' :: rest => header rest
    | rest =>
      if (lineEnd? rest).isSome then some (.blank, rest)
      else (assignment value rest).map fun (a, rest) => (.assign a, rest)
  return (content, ← lineEnd? rest)

/-- All lines of a text, at most `fuel` of them. -/
def lines : Nat → List Char → Option (List Line)
  | _, [] => some []
  | 0, _ => none
  | fuel + 1, text => do
    let (first, rest) ← line text
    return first :: (← lines fuel rest)

/-! ### Sections -/

/-- The assignments under one header. -/
structure Section where
  path : List String
  key : String
  isElement : Bool
  assignments : List Assignment

/-- The assignments before the first header, and the sections. -/
def sections : List Line → List Assignment × List Section
  | [] => ([], [])
  | .blank :: rest => sections rest
  | .assign a :: rest =>
    let (top, later) := sections rest
    (a :: top, later)
  | .table path key :: rest =>
    let (own, later) := sections rest
    ([], ⟨path, key, false, own⟩ :: later)
  | .element path key :: rest =>
    let (own, later) := sections rest
    ([], ⟨path, key, true, own⟩ :: later)

/-- Adds a section to the table that holds its key. A table may be begun only once, but may have been
mentioned before as the parent of another. -/
def Section.addTo (s : Section) (entries : Entries) : Option Entries := do
  match s.isElement, entries.lookup s.key with
  | true, none => return entries ++ [(s.key, .tables [← Entries.assignAll .header [] s.assignments])]
  | true, some (.tables items) =>
    return Entries.replace s.key
      (.tables (items ++ [← Entries.assignAll .header [] s.assignments])) entries
  | false, none =>
    return entries ++ [(s.key, .table .header (← Entries.assignAll .header [] s.assignments))]
  | false, some (.table .parent inner) =>
    let inner ← Entries.assignAll .header inner s.assignments
    return Entries.replace s.key (.table .header inner) entries
  | _, _ => none

/-- The table of a whole document. -/
def ofLines (content : List Line) : Option Entries := do
  let (top, later) := sections content
  let entries ← Entries.assignAll .header [] top
  later.foldlM (fun entries s => Entries.change .parent (fun _ => s.addTo) s.path .header entries) entries

/-- Reads a document. A byte order mark may come first. -/
def parse? (text : String) : Option Entries := do
  let chars := match text.toList with
    | '\uFEFF' :: rest => rest
    | chars => chars
  ofLines (← lines chars.length chars)

end Toml

end AffineLoops
