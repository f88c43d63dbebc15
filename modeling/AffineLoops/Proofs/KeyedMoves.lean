import AffineLoops.CompiledLoop.Draft
import AffineLoops.CompiledLoop.Execute
import Mathlib.Logic.Function.Basic

/-!
Updates of slots before the slots have numbers. A `Move` names its slots by their keys, and the values of all
slots are a function of the keys, so that nothing here depends on the order in which slots are first used.

* `acts_of_not_dest`: moves change the slots they name as destinations, and no others.
* `acts_copies`: copies that do not get into each other's way act at once.
-/

namespace AffineLoops

/-- What is done to a slot. -/
inductive Verb where
  | mov
  | add
  | sub
  | mul
  deriving DecidableEq, Repr

namespace Verb

def instr {α : Type} : Verb → α → α → Instr α
  | .mov => .mov
  | .add => .add
  | .sub => .sub
  | .mul => .mul

/-- The new value of a slot, from its old value and that of the source. -/
def result : Verb → Int → Int → Int
  | .mov, _, src => src
  | .add, old, src => old + src
  | .sub, old, src => old - src
  | .mul, old, src => old * src

end Verb

/-- What a run supplies beside the state: the values of the constants and the numbers of the loop. -/
structure Inputs where
  folded : List Int
  shape : LoopShape

namespace Place

/-- The slots that a place reads. -/
def keys : Place → List SlotKey
  | .slot key => [key]
  | _ => []

def eval (inputs : Inputs) (slots : SlotKey → Int) : Place → Int
  | .value n => n
  | .const index => inputs.folded.getD index 0
  | .param p => inputs.shape.param p
  | .slot key => slots key

end Place

/-- An update of the slot with a key. -/
structure Move where
  verb : Verb
  dest : SlotKey
  src : Place
  deriving DecidableEq, Repr

namespace Move

/-- The slots that a move names. -/
def keys (m : Move) : List SlotKey := m.dest :: m.src.keys

variable (inputs : Inputs)

/-- The values of the slots after a move. -/
def act (slots : SlotKey → Int) (m : Move) : SlotKey → Int :=
  Function.update slots m.dest (m.verb.result (slots m.dest) (m.src.eval inputs slots))

/-- The values of the slots after moves in order. -/
def acts (moves : List Move) (slots : SlotKey → Int) : SlotKey → Int := moves.foldl (act inputs) slots

variable {inputs}

theorem act_of_ne (slots : SlotKey → Int) {m : Move} {key : SlotKey} (other : key ≠ m.dest) :
    m.act inputs slots key = slots key := by
  simp [act, other]

@[simp] theorem acts_nil (slots : SlotKey → Int) : acts inputs [] slots = slots := rfl

@[simp] theorem acts_cons (m : Move) (moves : List Move) (slots : SlotKey → Int) :
    acts inputs (m :: moves) slots = acts inputs moves (m.act inputs slots) := rfl

@[simp] theorem acts_append (first second : List Move) (slots : SlotKey → Int) :
    acts inputs (first ++ second) slots = acts inputs second (acts inputs first slots) := by
  rw [acts, acts, acts, List.foldl_append]

/-- A slot that no move names as its destination keeps its value. -/
theorem acts_of_not_dest {moves : List Move} {key : SlotKey} (others : ∀ m ∈ moves, key ≠ m.dest)
    (slots : SlotKey → Int) : acts inputs moves slots key = slots key := by
  induction moves generalizing slots with
  | nil => rfl
  | cons m moves ih =>
    rw [acts_cons, ih fun m' member => others m' (.tail m member)]
    exact act_of_ne slots (others m (.head moves))

/-! ### Copies between stack slots -/

/-- Copies one stack slot into another. -/
def copy (dest src : Nat) : Move := ⟨.mov, .stack dest, .slot (.stack src)⟩

@[simp] theorem dest_copy (dest src : Nat) : (copy dest src).dest = .stack dest := rfl

@[simp] theorem act_copy_self (dest src : Nat) (slots : SlotKey → Int) :
    (copy dest src).act inputs slots (.stack dest) = slots (.stack src) := by
  simp [act, copy, Verb.result, Place.eval]

/-- One copy for each of the given indices. -/
def copies (dest src : Nat → Nat) (indices : List Nat) : List Move :=
  indices.map fun i => copy (dest i) (src i)

/-- Copies act at once if none overwrites the result of an earlier one or the source of a later one. -/
theorem acts_copies {dest src : Nat → Nat} {indices : List Nat}
    (apart : indices.Pairwise fun i j => dest i ≠ dest j ∧ dest i ≠ src j) (slots : SlotKey → Int)
    {i : Nat} (member : i ∈ indices) :
    acts inputs (copies dest src indices) slots (.stack (dest i)) = slots (.stack (src i)) := by
  induction apart generalizing slots with
  | nil => simp at member
  | @cons first rest fromFirst _ ih =>
    rw [copies, List.map_cons, acts_cons, ← copies]
    rcases List.mem_cons.mp member with rfl | later
    · have kept : ∀ m ∈ copies dest src rest, SlotKey.stack (dest i) ≠ m.dest := by
        intro m copied
        obtain ⟨j, inRest, rfl⟩ := List.mem_map.mp copied
        simpa using (fromFirst j inRest).1
      rw [acts_of_not_dest kept, act_copy_self]
    · rw [ih _ later]
      refine act_of_ne slots ?_
      simpa [eq_comm] using (fromFirst i later).2

/-- A slot that no copy goes to keeps its value. -/
theorem acts_copies_of_ne {dest src : Nat → Nat} {indices : List Nat} {key : SlotKey}
    (others : ∀ i ∈ indices, key ≠ .stack (dest i)) (slots : SlotKey → Int) :
    acts inputs (copies dest src indices) slots key = slots key := by
  refine acts_of_not_dest ?_ slots
  intro m copied
  obtain ⟨i, member, rfl⟩ := List.mem_map.mp copied
  exact others i member

end Move

end AffineLoops
