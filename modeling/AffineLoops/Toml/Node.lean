/-!
The contents of a configuration text. Of floats and dates nothing is kept but that they are there: no
setting takes one.
-/

namespace AffineLoops

namespace Toml

/-- How a table came about, which decides what may be added to it later. -/
inductive Origin where
  /-- By a header of its own. -/
  | header
  /-- As a part of the path of a longer header. -/
  | parent
  /-- As a part of a dotted key. -/
  | dotted
  /-- Between braces. -/
  | inline
  deriving DecidableEq, Repr

inductive Node where
  | text (s : String)
  | integer (n : Int)
  | boolean (b : Bool)
  | float
  | moment
  | array (items : List Node)
  | table (origin : Origin) (entries : List (String × Node))
  /-- The tables that headers in double brackets have begun, in order. -/
  | tables (items : List (List (String × Node)))

/-- The entries of a table, in order, their keys all different. -/
abbrev Entries := List (String × Node)

/-- Puts a node in the place of that under a key. -/
def Entries.replace (key : String) (node : Node) (entries : Entries) : Entries :=
  entries.map fun entry => if entry.1 = key then (key, node) else entry

/-- Adds an entry at the end, under a key that is free. -/
def Entries.insertNew (key : String) (node : Node) (entries : Entries) : Option Entries :=
  if (entries.lookup key).isSome then none else some (entries ++ [(key, node)])

/-- A key with a node. The path leads to the table of the key. -/
structure Assignment where
  path : List String
  key : String
  node : Node

/-! ### Tables by path -/

/-- Changes the table at the end of a path. Tables that the path lacks are created with the origin
`created`; of several tables under one key the last is meant. Nothing is added to a table between braces
or to a node that is no table, and dotted keys add nothing to a table with a header of its own. -/
def Entries.change (created : Origin) (update : Origin → Entries → Option Entries) :
    List String → Origin → Entries → Option Entries
  | [], origin, entries => update origin entries
  | key :: path, _, entries =>
    match entries.lookup key with
    | none => do
      let inner ← Entries.change created update path created []
      return entries ++ [(key, .table created inner)]
    | some (.table .inline _) => none
    | some (.table origin inner) => do
      if created = .dotted ∧ origin = .header then none
      let inner ← Entries.change created update path origin inner
      return Entries.replace key (.table origin inner) entries
    | some (.tables items) => do
      let inner ← Entries.change created update path .header (← items.getLast?)
      return Entries.replace key (.tables (items.dropLast ++ [inner])) entries
    | some _ => none

/-- Adds an assignment to a table. Its last table must be one that dotted keys have created, unless there
is no path at all. -/
def Entries.assign (origin : Origin) (entries : Entries) (a : Assignment) : Option Entries :=
  Entries.change .dotted
    (fun last entries =>
      if decide (last = .dotted) == a.path.isEmpty then none else Entries.insertNew a.key a.node entries)
    a.path origin entries

/-- Adds assignments one after another. -/
def Entries.assignAll (origin : Origin) (entries : Entries) (assignments : List Assignment) :
    Option Entries :=
  assignments.foldlM (Entries.assign origin) entries

end Toml

end AffineLoops
