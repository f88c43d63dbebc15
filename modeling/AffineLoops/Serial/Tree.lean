import AffineLoops.Number.Binary64

/-!
Trees of plain data, the form in which everything can be stored and exchanged, and the conventions that
all stored forms share.

A record type is written as a record of its fields, and read from a record, where further fields do no
harm, or from the list of its fields in order. A value with alternatives is written as the name of its
alternative, or as a record whose only field is that name when the alternative carries data.
-/

namespace AffineLoops

/-- Plain data. -/
inductive Tree where
  | null
  | bool (b : Bool)
  | int (n : Int)
  | float (x : Float)
  | text (s : String)
  | list (items : List Tree)
  | record (fields : List (String × Tree))

/-- A type with a stored form. -/
class Stored (α : Type) where
  encode : α → Tree
  decode : Tree → Option α

export Stored (encode decode)

namespace Tree

/-- The value of a field; the last of two fields of one name counts. -/
def field? (name : String) (fields : List (String × Tree)) : Option Tree :=
  fields.reverse.lookup name

/-! ### Numbers, texts and lists -/

/-- A natural number below a bound. -/
def nat? (bound : Nat) : Tree → Option Nat
  | .int n => if 0 ≤ n ∧ n < bound then some n.toNat else none
  | _ => none

/-- Machine words hold 64 bits, and the narrow ones 32. -/
def wordBound : Nat := Nat.pow 2 64

def narrowBound : Nat := Nat.pow 2 32

def ofNat (n : Nat) : Tree := .int n

theorem nat?_ofNat {bound n : Nat} (below : n < bound) : nat? bound (ofNat n) = some n := by
  have range : (0 : Int) ≤ n ∧ (n : Int) < bound := by omega
  rw [ofNat, nat?, if_pos range, Int.toNat_natCast]

theorem mapM_nat?_ofNat {bound : Nat} {numbers : List Nat} (below : ∀ n ∈ numbers, n < bound) :
    (numbers.map ofNat).mapM (nat? bound) = some numbers := by
  induction numbers with
  | nil => rfl
  | cons n rest ih =>
    have first := nat?_ofNat (below n (.head rest))
    have others := ih fun m member => below m (.tail n member)
    rw [List.map_cons, List.mapM_cons, first, others]
    rfl

def text? : Tree → Option String
  | .text s => some s
  | _ => none

instance : Stored Bool where
  encode := .bool
  decode
    | .bool b => some b
    | _ => none

instance {α : Type} [Stored α] : Stored (List α) where
  encode xs := .list (xs.map encode)
  decode
    | .list items => items.mapM decode
    | _ => none

instance {α : Type} [Stored α] : Stored (Option α) where
  encode
    | none => .null
    | some x => encode x
  decode
    | .null => some none
    | tree => (decode tree).map some

/-! ### Alternatives -/

/-- An alternative with data. -/
def alternative (name : String) (data : Tree) : Tree := .record [(name, data)]

/-- The name of an alternative and its data, if any. -/
def alternative? : Tree → Option (String × Option Tree)
  | .text name => some (name, none)
  | .record [(name, data)] => some (name, some data)
  | _ => none

/-- The name of an alternative without data. -/
def bare? (tree : Tree) : Option String :=
  match tree.alternative? with
  | some (name, none) => some name
  | some (name, some .null) => some name
  | _ => none

/-- One of finitely many alternatives, all without data. -/
def oneOf? {α : Type} (all : List α) (name : α → String) (tree : Tree) : Option α :=
  tree.bare?.bind fun text => all.find? fun x => name x = text

/-! ### Records -/

/-- The fields of a record type in order, each present. -/
def fields? (names : List String) : Tree → Option (List Tree)
  | .record fields => names.mapM fun name => field? name fields
  | .list items => if items.length = names.length then some items else none
  | _ => none

/-- The fields of a record type in order, each present or not. -/
def optionalFields? (names : List String) : Tree → Option (List (Option Tree))
  | .record fields => some (names.map fun name => field? name fields)
  | .list items =>
    if items.length ≤ names.length then
      some (items.map some ++ List.replicate (names.length - items.length) none)
    else none
  | _ => none

/-- A field that may be missing and then has a usual value. -/
def orElse {α : Type} [Stored α] (usual : α) : Option Tree → Option α
  | none => some usual
  | some tree => decode tree

end Tree

end AffineLoops
