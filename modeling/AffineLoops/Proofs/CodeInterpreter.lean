import AffineLoops.MatrixCode.Basic

/-!
The literal meaning of matrix code: `interpret` goes through a program from left to right, carries out each
update on the values just before it, and carries out the block of a loop as often as its count says. No
matrix occurs here; the engine is proved to compute the same in `AffineLoops.Proofs.EngineMeaning`.

`Balanced` says that every loop has its end, by the structure of blocks. `splitEnd_balanced` ties it to
the search for a loop's end, so that `interpret_loop` reads a loop off its block.
-/

namespace AffineLoops

/-- A single update, as opposed to the begin or the end of a loop. -/
def Instr.isUpdate {α : Type} : Instr α → Bool
  | .mov _ _ | .add _ _ | .sub _ _ | .mul _ _ => true
  | .loop _ | .endLoop => false

namespace MatrixCode

/-- Code in which every loop has its end. -/
inductive Balanced {α : Type} : List (Instr α) → Prop where
  | nil : Balanced []
  | update {instr : Instr α} {rest : List (Instr α)} :
      instr.isUpdate = true → Balanced rest → Balanced (instr :: rest)
  | loop {count : α} {block rest : List (Instr α)} :
      Balanced block → Balanced rest → Balanced (.loop count :: block ++ .endLoop :: rest)

/-- Splits code at the end of the loop that is open before it; `depth` more loops are open inside. -/
def splitEnd {α : Type} : Nat → List (Instr α) → Option (List (Instr α) × List (Instr α))
  | _, [] => none
  | 0, .endLoop :: rest => some ([], rest)
  | depth + 1, .endLoop :: rest => (splitEnd depth rest).map fun (block, tail) => (.endLoop :: block, tail)
  | depth, .loop count :: rest =>
    (splitEnd (depth + 1) rest).map fun (block, tail) => (.loop count :: block, tail)
  | depth, instr :: rest => (splitEnd depth rest).map fun (block, tail) => (instr :: block, tail)

/-- The parts before and after a loop's end make up the code, that end apart. -/
theorem eq_of_splitEnd {α : Type} {depth : Nat} {code block tail : List (Instr α)}
    (h : splitEnd depth code = some (block, tail)) : code = block ++ .endLoop :: tail := by
  fun_induction splitEnd depth code generalizing block with
  | case1 => simp at h
  | case2 rest => simp_all
  | case3 depth rest ih =>
    obtain ⟨⟨inner, after⟩, found, eq⟩ := Option.map_eq_some_iff.mp h
    obtain ⟨rfl, rfl⟩ := Prod.mk.inj eq
    rw [ih found, List.cons_append]
  | case4 depth count rest ih =>
    obtain ⟨⟨inner, after⟩, found, eq⟩ := Option.map_eq_some_iff.mp h
    obtain ⟨rfl, rfl⟩ := Prod.mk.inj eq
    rw [ih found, List.cons_append]
  | case5 depth instr rest _ _ _ ih =>
    obtain ⟨⟨inner, after⟩, found, eq⟩ := Option.map_eq_some_iff.mp h
    obtain ⟨rfl, rfl⟩ := Prod.mk.inj eq
    rw [ih found, List.cons_append]

/-- Balanced code does not contain the end that is looked for. -/
theorem splitEnd_balanced {α : Type} {code : List (Instr α)} (balanced : Balanced code) (depth : Nat)
    (rest : List (Instr α)) :
    splitEnd depth (code ++ rest) = (splitEnd depth rest).map fun (block, tail) => (code ++ block, tail) := by
  induction balanced generalizing depth rest with
  | nil => simp
  | @update instr tail isUpdate _ ih =>
    have head : splitEnd depth (instr :: (tail ++ rest)) =
        (splitEnd depth (tail ++ rest)).map fun (block, after) => (instr :: block, after) := by
      cases instr <;> simp [Instr.isUpdate] at isUpdate <;> cases depth <;> rfl
    rw [List.cons_append, head, ih]
    cases splitEnd depth rest <;> rfl
  | @loop count block tail _ _ ihBlock ihTail =>
    rw [List.cons_append, List.cons_append, List.append_assoc, List.cons_append]
    have head : ∀ code : List (Instr α), splitEnd depth (.loop count :: code) =
        (splitEnd (depth + 1) code).map fun (block, after) => (.loop count :: block, after) := by
      intro code
      cases depth <;> rfl
    rw [head, ihBlock, splitEnd, ihTail]
    cases splitEnd depth rest <;> simp

/-! ### Single updates -/

/-- The number that an operand stands for. -/
def read (state : List Int) : Resolved → Option Int
  | .value n => some n
  | .var slot => state[slot]?

/-- Stores a number in the slot that an operand names. -/
def write (state : List Int) (value : Int) : Resolved → Option (List Int)
  | .var slot => if slot < state.length then some (state.set slot value) else none
  | .value _ => none

/-- Carries out one update: all operands are read before the destination is written. -/
def update (state : List Int) : Instr Resolved → Option (List Int)
  | .mov dest src => do write state (← read state src) dest
  | .add dest src => do write state ((← read state dest) + (← read state src)) dest
  | .sub dest src => do write state ((← read state dest) - (← read state src)) dest
  | .mul dest src => do write state ((← read state dest) * (← read state src)) dest
  | .loop _ | .endLoop => none

/-! ### Programs -/

/-- The number of rounds that a loop's count stands for. -/
def rounds? : Resolved → Option Nat
  | .value n => if n < 0 then none else some n.toNat
  | .var _ => none

/-- Carries out a block `count` times in sequence. -/
def repeated (block : List Int → Option (List Int)) : Nat → List Int → Option (List Int)
  | 0, state => some state
  | count + 1, state => do repeated block count (← block state)

/-- Carries out a program literally. An operand that does not fit its place and a loop without its end have
no meaning. -/
def interpret (code : List (Instr Resolved)) (state : List Int) : Option (List Int) :=
  match code with
  | [] => some state
  | .endLoop :: _ => none
  | .loop count :: rest =>
    match _found : splitEnd 0 rest with
    | none => none
    | some (block, tail) => do
      let count ← rounds? count
      let state ← repeated (fun state => interpret block state) count state
      interpret tail state
  | instr :: rest => do interpret rest (← update state instr)
termination_by code.length
decreasing_by
  · have := congrArg List.length (eq_of_splitEnd _found)
    simp at this ⊢
    omega
  · have := congrArg List.length (eq_of_splitEnd _found)
    simp at this ⊢
    omega
  · simp

@[simp] theorem interpret_nil (state : List Int) : interpret [] state = some state := by
  rw [interpret]

/-- An update is carried out before the rest. -/
theorem interpret_update {instr : Instr Resolved} (isUpdate : instr.isUpdate = true)
    (rest : List (Instr Resolved)) (state : List Int) :
    interpret (instr :: rest) state = (update state instr).bind (interpret rest) := by
  cases instr <;> simp [Instr.isUpdate] at isUpdate <;> rw [interpret] <;> simp

/-- A loop carries out its block as often as it says, and then the rest. -/
theorem interpret_loop {block : List (Instr Resolved)} (balanced : Balanced block) (count : Resolved)
    (rest : List (Instr Resolved)) (state : List Int) :
    interpret (.loop count :: block ++ .endLoop :: rest) state =
      (rounds? count).bind fun n => (repeated (interpret block) n state).bind (interpret rest) := by
  have split : splitEnd 0 (block ++ .endLoop :: rest) = some (block, rest) := by
    rw [splitEnd_balanced balanced, splitEnd]
    simp
  rw [List.cons_append, interpret]
  split
  · simp_all
  · rename_i found
    rw [split] at found
    obtain ⟨rfl, rfl⟩ := Prod.mk.inj (Option.some.inj found)
    rfl

end MatrixCode

end AffineLoops
