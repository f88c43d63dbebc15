import AffineLoops.Proofs.ConstantPrograms
import AffineLoops.Proofs.LoweringSteps

/-!
The moves of a lowered body do to the slots what the body does to the literal machine. `Simulates` ties the
two sides together at a point of the body: a foldable entry has a program that evaluates to the machine's
value, a live entry has its value in its slot, and so have the variables that live in slots; values agree
up to truth values read as integers.

* `StackHolds.rotate`, `StackHolds.duplicate`: the copies of a rotation and a duplication.
* `Simulates.step`: what an action keeps, one case for each thing that lowering can do.
* `Simulates.run`: so a whole body keeps it.
-/

namespace AffineLoops

open ConstProgram (Evaluates)
open Draft (clearing)
open Literal (Machine Performs)
open Move (acts)

/-! ### Entries and their values -/

section Entries

variable (frame : Frame) (values : List Value)

/-- An entry at a height stands for a value of the literal machine. -/
def EntryHolds (slots : SlotKey → Int) (height : Nat) : Entry → Value → Prop
  | .foldable program, value => ∃ constant, Evaluates frame values program constant ∧
      constant.reading = value.reading
  | .live, value => value.reading = .inl (slots (.stack height))

/-- The entries of a symbolic stack stand for those of the machine's, each at its own height. -/
structure StackHolds (slots : SlotKey → Int) (entries : List Entry) (stack : List Value) : Prop where
  length : entries.length = stack.length
  entry : ∀ i entry value, entries[i]? = some entry → stack[i]? = some value →
    EntryHolds frame values slots (entries.length - 1 - i) entry value

variable {frame values} {slots slots' : SlotKey → Int}

/-- A live entry may move to another slot with its value, and a foldable one to any. -/
theorem EntryHolds.transfer {height height' : Nat} {entry : Entry} {value : Value}
    (holds : EntryHolds frame values slots height entry value)
    (moved : entry = .live → slots' (.stack height') = slots (.stack height)) :
    EntryHolds frame values slots' height' entry value := by
  cases entry with
  | foldable program => exact holds
  | live => exact holds.trans (by rw [moved rfl])

theorem stackHolds_nil : StackHolds frame values slots [] [] := ⟨rfl, by simp⟩

theorem stackHolds_cons_iff {entry : Entry} {entries : List Entry} {value : Value} {stack : List Value} :
    StackHolds frame values slots (entry :: entries) (value :: stack) ↔
      EntryHolds frame values slots entries.length entry value ∧
        StackHolds frame values slots entries stack := by
  constructor
  · intro holds
    refine ⟨by simpa using holds.entry 0 entry value rfl rfl, by simpa using holds.length, ?_⟩
    intro i entry' value' found found'
    have := holds.entry (i + 1) entry' value' (by simpa using found) (by simpa using found')
    rwa [List.length_cons, show entries.length + 1 - 1 - (i + 1) = entries.length - 1 - i by omega] at this
  · rintro ⟨top, below⟩
    refine ⟨by simp [below.length], ?_⟩
    rintro (_ | i) entry' value' found found'
    · obtain rfl : entry = entry' := by simpa using found
      obtain rfl : value = value' := by simpa using found'
      simpa using top
    · have := below.entry i entry' value' (by simpa using found) (by simpa using found')
      rwa [List.length_cons, show entries.length + 1 - 1 - (i + 1) = entries.length - 1 - i by omega]

/-- Slots above the stack, and those that are not the stack's, do not matter. -/
theorem StackHolds.of_eq_below {entries : List Entry} {stack : List Value}
    (holds : StackHolds frame values slots entries stack)
    (below : ∀ depth, depth < entries.length → slots' (.stack depth) = slots (.stack depth)) :
    StackHolds frame values slots' entries stack := by
  refine ⟨holds.length, fun i entry value found found' => ?_⟩
  refine (holds.entry i entry value found found').transfer fun _ => below _ ?_
  have := (List.getElem?_eq_some_iff.mp found).1
  omega

end Entries

/-! ### Rotation and duplication -/

section Copies

variable {frame : Frame} {values : List Value} {inputs : Inputs} {slots : SlotKey → Int}
  {entries : List Entry} {stack : List Value} {count : Nat}

/-- The old place of the entry that a rotation puts at a place, counted from the top. -/
def rotateSource (count i : Nat) : Nat :=
  if i < count - 1 then i + 1 else if i = count - 1 then 0 else i

/-- The old place of the entry that a duplication puts at a place, counted from the top. -/
def duplicateSource (count i : Nat) : Nat := if i < count then i else i - count

theorem getElem?_rotate {α : Type} {stack : List α} (positive : 0 < count) (room : count ≤ stack.length)
    (i : Nat) : (Stack.rotate count stack)[i]? = stack[rotateSource count i]? := by
  unfold rotateSource
  cases stack with
  | nil =>
    rw [List.length_nil] at room
    omega
  | cons top rest =>
    have enough : (rest.take (count - 1)).length = count - 1 := by
      rw [List.length_take, List.length_cons] at *
      omega
    rw [Stack.rotate, List.getElem?_append, enough]
    split
    · rename_i before
      rw [List.getElem?_take_of_lt before, List.getElem?_cons_succ]
    · split
      · rename_i same
        simp [same]
      · rename_i notBefore other
        obtain ⟨k, rfl⟩ : ∃ k, i = count - 1 + (k + 1) := ⟨i - count, by omega⟩
        rw [Nat.add_sub_cancel_left, List.getElem?_cons_succ, List.getElem?_drop, ← Nat.add_assoc,
          List.getElem?_cons_succ]

theorem getElem?_duplicate {α : Type} {stack : List α} (room : count ≤ stack.length) (i : Nat) :
    (Stack.duplicate count stack)[i]? = stack[duplicateSource count i]? := by
  have enough : (stack.take count).length = count := by simpa using room
  rw [Stack.duplicate, List.getElem?_append, enough, duplicateSource]
  split
  · rename_i before
    rw [List.getElem?_take_of_lt before]
  · rfl

theorem length_rotate {α : Type} {stack : List α} (count : Nat) :
    (Stack.rotate count stack).length = stack.length := by
  cases stack with
  | nil => rfl
  | cons top rest =>
    simp only [Stack.rotate, List.length_append, List.length_cons, List.length_take, List.length_drop]
    omega

theorem length_duplicate {α : Type} {stack : List α} (room : count ≤ stack.length) :
    (Stack.duplicate count stack).length = count + stack.length := by
  rw [Stack.duplicate, List.length_append, List.length_take, Nat.min_eq_left room]

theorem stack_ne {depth depth' : Nat} (ne : depth ≠ depth') : SlotKey.stack depth ≠ .stack depth' :=
  fun same => ne (SlotKey.stack.inj same)

theorem host_ne {u v : Variable} (ne : u ≠ v) : SlotKey.host u ≠ .host v :=
  fun same => ne (SlotKey.host.inj same)

theorem liveAt_eq {i : Nat} (found : entries[i]? = some .live) : liveAt entries i = true := by
  simp [liveAt, List.getD_eq_getElem?_getD, found, Entry.isLive]

theorem liveAt_iff {i : Nat} (inside : i < entries.length) :
    liveAt entries i = true ↔ entries[i]? = some .live := by
  rw [liveAt, List.getD_eq_getElem?_getD, List.getElem?_eq_getElem inside, Option.getD_some, Option.some.injEq]
  cases entries[i] <;> simp [Entry.isLive]

theorem dest_of_mem_clearing {options : CompileOptions} {depth : Nat} {m : Move}
    (member : m ∈ clearing options depth) : m.dest = .stack depth := by
  unfold clearing at member
  split at member
  · rw [List.mem_singleton.mp member]
  · cases member

/-- Clearing a slot changes no other. -/
theorem acts_clearing_of_ne {options : CompileOptions} {depth : Nat} {key : SlotKey}
    (other : key ≠ .stack depth) : acts inputs (clearing options depth) slots key = slots key := by
  apply Move.acts_of_not_dest
  intro m member
  rw [dest_of_mem_clearing member]
  exact other

theorem acts_clearing_self {options : CompileOptions} (clears : options.clearFreedStackSlots = true)
    (inputs : Inputs) (depth : Nat) (slots : SlotKey → Int) :
    acts inputs (clearing options depth) slots (.stack depth) = 0 := by
  simp [clearing, clears, Move.act, Verb.result, Place.eval]

/-- An update with a slot cleared after it does what the update does. -/
theorem acts_cleared {options : CompileOptions} {m : Move} {depth : Nat} {key : SlotKey}
    (other : key ≠ .stack depth) :
    acts inputs (m :: clearing options depth) slots key = m.act inputs slots key := by
  rw [Move.acts_cons, acts_clearing_of_ne other]

/-- Of two offsets in a filtered range, the first is the smaller one. -/
theorem pairwise_lt_filter (bound : Nat) (picked : Nat → Bool) :
    ((List.range bound).filter picked).Pairwise fun i j => i < j ∧ j < bound := by
  refine List.Pairwise.imp_of_mem ?_ (List.pairwise_lt_range.filter picked)
  intro i j _ inRange lt
  exact ⟨lt, List.mem_range.mp (List.mem_filter.mp inRange).1⟩

theorem acts_lifting (room : count ≤ entries.length) {i : Nat} (below : i < count - 1)
    (live : liveAt entries (i + 1) = true) :
    acts inputs (lifting count entries) slots (.stack (entries.length - 1 - i)) =
      slots (.stack (entries.length - 2 - i)) := by
  refine Move.acts_copies ?_ slots (List.mem_filter.mpr ⟨List.mem_range.mpr below, live⟩)
  refine (pairwise_lt_filter _ _).imp fun {i j} order => ?_
  omega

theorem acts_lifting_of_ne {key : SlotKey}
    (others : ∀ i, i < count - 1 → key ≠ .stack (entries.length - 1 - i)) :
    acts inputs (lifting count entries) slots key = slots key := by
  refine Move.acts_copies_of_ne (fun i member => others i ?_) slots
  exact List.mem_range.mp (List.mem_filter.mp member).1

section Rotation

variable {options : CompileOptions} (positive : 0 < count) (room : count ≤ entries.length)

include positive room

/-- An entry below the top goes up by one slot. -/
theorem acts_rotation_lifted {i : Nat} (below : i < count - 1) (live : liveAt entries (i + 1) = true) :
    acts inputs (rotation options count entries) slots (.stack (entries.length - 1 - i)) =
      slots (.stack (entries.length - 2 - i)) := by
  unfold rotation
  split
  · rw [Move.acts_append, Move.acts_cons, Move.acts_cons,
      acts_clearing_of_ne (stack_ne (by omega)), Move.act_of_ne _ (stack_ne (by omega)), acts_lifting room below live,
      Move.act_of_ne _ (stack_ne (by omega))]
  · exact acts_lifting room below live

/-- The top entry goes below the others. -/
theorem acts_rotation_top (live : liveAt entries 0 = true) :
    acts inputs (rotation options count entries) slots (.stack (entries.length - count)) =
      slots (.stack (entries.length - 1)) := by
  have kept : ∀ i, i < count - 1 → SlotKey.stack entries.length ≠ .stack (entries.length - 1 - i) := by
    intro i _
    exact stack_ne (by omega)
  rw [rotation, if_pos live, Move.acts_append, Move.acts_cons, Move.acts_cons,
    acts_clearing_of_ne (stack_ne (by omega)), Move.act_copy_self, acts_lifting_of_ne kept, Move.act_copy_self]

/-- Entries further below stay where they are. -/
theorem acts_rotation_below {depth : Nat} (below : depth < entries.length - count) :
    acts inputs (rotation options count entries) slots (.stack depth) = slots (.stack depth) := by
  have lifted : ∀ i, i < count - 1 → SlotKey.stack depth ≠ .stack (entries.length - 1 - i) := by
    intro i _
    exact stack_ne (by omega)
  unfold rotation
  split
  · rw [Move.acts_append, Move.acts_cons, Move.acts_cons, acts_clearing_of_ne (stack_ne (by omega)),
      Move.act_of_ne _ (stack_ne (by omega)), acts_lifting_of_ne lifted, Move.act_of_ne _ (stack_ne (by omega))]
  · exact acts_lifting_of_ne lifted

/-- A live entry takes its value along to the slot for its new height. -/
theorem acts_rotation {i : Nat} (found : entries[rotateSource count i]? = some .live) :
    acts inputs (rotation options count entries) slots (.stack (entries.length - 1 - i)) =
      slots (.stack (entries.length - 1 - rotateSource count i)) := by
  unfold rotateSource at found ⊢
  by_cases lifted : i < count - 1
  · rw [if_pos lifted] at found ⊢
    rw [acts_rotation_lifted positive room lifted (liveAt_eq found)]
    congr 2
    omega
  · by_cases top : i = count - 1
    · rw [if_neg lifted, if_pos top] at found ⊢
      rw [show entries.length - 1 - i = entries.length - count by omega,
        acts_rotation_top positive room (liveAt_eq found), Nat.sub_zero]
    · rw [if_neg lifted, if_neg top] at found ⊢
      have inside := (List.getElem?_eq_some_iff.mp found).1
      exact acts_rotation_below positive room (by omega)

theorem StackHolds.rotate (holds : StackHolds frame values slots entries stack) :
    StackHolds frame values (acts inputs (rotation options count entries) slots)
      (Stack.rotate count entries) (Stack.rotate count stack) := by
  have room' : count ≤ stack.length := holds.length ▸ room
  refine ⟨by rw [length_rotate, length_rotate, holds.length], fun i entry value found found' => ?_⟩
  rw [getElem?_rotate positive room] at found
  rw [getElem?_rotate positive room'] at found'
  rw [length_rotate]
  refine (holds.entry _ entry value found found').transfer ?_
  rintro rfl
  exact acts_rotation positive room found

end Rotation

theorem acts_duplication_copied (room : count ≤ entries.length) {i : Nat} (copied : i < count)
    (live : liveAt entries (count - 1 - i) = true) :
    acts inputs (duplication count entries) slots (.stack (entries.length + i)) =
      slots (.stack (entries.length - count + i)) := by
  refine Move.acts_copies ?_ slots (List.mem_filter.mpr ⟨List.mem_range.mpr copied, live⟩)
  refine (pairwise_lt_filter _ _).imp fun {i j} order => ?_
  omega

theorem acts_duplication_below {depth : Nat} (below : depth < entries.length) :
    acts inputs (duplication count entries) slots (.stack depth) = slots (.stack depth) := by
  exact Move.acts_copies_of_ne (fun i _ => stack_ne (by omega)) slots

/-- A live entry has its value in the slots for both its heights. -/
theorem acts_duplication (room : count ≤ entries.length) {i : Nat}
    (found : entries[duplicateSource count i]? = some .live) :
    acts inputs (duplication count entries) slots (.stack (count + entries.length - 1 - i)) =
      slots (.stack (entries.length - 1 - duplicateSource count i)) := by
  unfold duplicateSource at found ⊢
  by_cases copied : i < count
  · rw [if_pos copied] at found ⊢
    have live : liveAt entries (count - 1 - (count - 1 - i)) = true := by
      rw [show count - 1 - (count - 1 - i) = i by omega]
      exact liveAt_eq found
    rw [show count + entries.length - 1 - i = entries.length + (count - 1 - i) by omega,
      acts_duplication_copied room (by omega) live]
    congr 2
    omega
  · rw [if_neg copied] at found ⊢
    have inside := (List.getElem?_eq_some_iff.mp found).1
    rw [show count + entries.length - 1 - i = entries.length - 1 - (i - count) by omega]
    exact acts_duplication_below (by omega)

theorem StackHolds.duplicate (room : count ≤ entries.length)
    (holds : StackHolds frame values slots entries stack) :
    StackHolds frame values (acts inputs (duplication count entries) slots)
      (Stack.duplicate count entries) (Stack.duplicate count stack) := by
  have room' : count ≤ stack.length := holds.length ▸ room
  refine ⟨by rw [length_duplicate room, length_duplicate room', holds.length],
    fun i entry value found found' => ?_⟩
  rw [getElem?_duplicate room] at found
  rw [getElem?_duplicate room'] at found'
  rw [length_duplicate room]
  refine (holds.entry _ entry value found found').transfer ?_
  rintro rfl
  exact acts_duplication room found

end Copies

/-! ### Points of a body -/

/-- What stays fixed while a loop runs: the frame before it, the constants with their values, the variables
of the loop, which differ by their names, and those of them that live in slots. -/
structure Context where
  frame : Frame
  consts : List ConstProgram
  values : List Value
  inputs : Inputs
  known : Variable → Prop
  held : Variable → Prop
  evaluates : ∀ (index : Nat) program, consts[index]? = some program →
    ∃ value, values[index]? = some value ∧ Evaluates frame values program value
  reads : ∀ (index : Nat) value, values[index]? = some value → value.reading = .inl (inputs.folded.getD index 0)
  apart : ∀ u v, known u → known v → u.name = v.name → u = v
  held_known : ∀ v, held v → known v

/-- Sketch and slots stand for the literal machine at a point of the body. -/
structure Simulates (c : Context) (s : Sketch) (slots : SlotKey → Int) (m : Machine) : Prop where
  stack : StackHolds c.frame c.values slots s.stack m.stack
  held : ∀ v, c.held v → ∀ value, m.frame.load? v = some value → value.reading = .inl (slots (.host v))
  const : ∀ v index, s.bindings.lookup v = some (.const index) → ∀ value, m.frame.load? v = some value →
    ∃ constant, c.values[index]? = some constant ∧ constant.reading = value.reading
  slot : ∀ v, s.bindings.lookup v = some .slot → c.held v
  known : ∀ v, (s.bindings.lookup v).isSome → c.known v

namespace Context

variable {c : Context} {consts : List ConstProgram} {program : ConstProgram} {value : Value}

/-- The constant of a program has the value of the program. -/
theorem values_indexIn (grown : program.addTo consts <+: c.consts)
    (evaluates : Evaluates c.frame c.values program value) :
    c.values[program.indexIn consts]? = some value := by
  unfold ConstProgram.indexIn
  cases again : program.alias? with
  | some index =>
    rw [ConstProgram.eq_folded_of_alias? again] at evaluates
    exact ConstProgram.evaluates_folded_iff.mp evaluates
  | none =>
    obtain ⟨value', atIndex, evaluates'⟩ := c.evaluates _ _ (ConstProgram.getElem?_of_addTo again grown)
    rw [evaluates.unique evaluates']
    exact atIndex

/-- A foldable entry agrees with the number of its constant. -/
theorem reading_indexIn (grown : program.addTo consts <+: c.consts) {slots : SlotKey → Int} {height : Nat}
    (holds : EntryHolds c.frame c.values slots height (.foldable program) value) :
    value.reading = .inl (c.inputs.folded.getD (program.indexIn consts) 0) := by
  obtain ⟨constant, evaluates, same⟩ := holds
  rw [← same]
  exact c.reads _ _ (values_indexIn grown evaluates)

end Context

/-! ### Arithmetic in slots -/

/-- Affine operations on integers always have a result. -/
theorem binary_affine {op : BinaryOp} {affine : AffineOp} (isAffine : op.affine? = some affine)
    {a b : Value} {m n : Int} (left : a.reading = .inl m) (right : b.reading = .inl n) :
    a.binary op b = .ok (.int (affine.verb.result m n)) := by
  rw [Value.binary, Value.reading_eq_inl_iff.mp left, Value.reading_eq_inl_iff.mp right]
  cases op <;> cases isAffine <;> rfl

theorem reading_affine {op : BinaryOp} {affine : AffineOp} (isAffine : op.affine? = some affine)
    {a b value : Value} {m n : Int} (left : a.reading = .inl m) (right : b.reading = .inl n)
    (computed : a.binary op b = .ok value) : value.reading = .inl (affine.verb.result m n) := by
  rw [binary_affine isAffine left right] at computed
  cases computed
  rfl

theorem unary_negative {a : Value} {n : Int} (operand : a.reading = .inl n) :
    a.unary .negative = .ok (.int (-n)) := by
  cases a <;> cases operand <;> rfl

theorem reading_negative {a value : Value} {n : Int} (operand : a.reading = .inl n)
    (computed : a.unary .negative = .ok value) : value.reading = .inl (-n) := by
  rw [unary_negative operand] at computed
  cases computed
  rfl

/-- The result of an affine operation on a constant and a live entry above it sinks into the lower slot. -/
theorem acts_sinking (options : CompileOptions) (inputs : Inputs) (op : AffineOp) (depth index : Nat)
    (slots : SlotKey → Int) :
    acts inputs (sinking options op depth index) slots (.stack depth) =
      op.verb.result (inputs.folded.getD index 0) (slots (.stack (depth + 1))) := by
  have ne : SlotKey.stack depth ≠ .stack (depth + 1) := stack_ne (by omega)
  rw [sinking, Move.acts_append, Move.acts_cons, acts_clearing_of_ne ne, Move.act_copy_self]
  cases op <;> simp [absorbing, Move.act, AffineOp.verb, Verb.result, Place.eval]
  · exact Int.mul_comm _ _
  · exact Int.add_comm _ _
  · omega

theorem acts_sinking_of_ne (options : CompileOptions) (inputs : Inputs) (op : AffineOp) (depth index : Nat)
    (slots : SlotKey → Int) {key : SlotKey} (lower : key ≠ .stack depth) (upper : key ≠ .stack (depth + 1)) :
    acts inputs (sinking options op depth index) slots key = slots key := by
  rw [sinking, Move.acts_append, Move.acts_cons, acts_clearing_of_ne upper, Move.act_of_ne _ lower]
  cases op <;> simp [absorbing, Move.act, upper]

/-! ### One action -/

section Step

variable {c : Context} {options : CompileOptions} {action : Action} {s s' : Sketch} {moves : List Move}
  {slots : SlotKey → Int} {m m' : Machine}

theorem EntryHolds.congr {frame : Frame} {values : List Value} {height : Nat} {entry : Entry}
    {value value' : Value} (holds : EntryHolds frame values slots height entry value)
    (same : value'.reading = value.reading) : EntryHolds frame values slots height entry value' := by
  cases entry with
  | foldable program =>
    obtain ⟨constant, evaluates, agrees⟩ := holds
    exact ⟨constant, evaluates, agrees.trans same.symm⟩
  | live => exact same.trans holds

/-- A live result on top of entries whose slots are as before. -/
theorem StackHolds.live_cons {frame : Frame} {values : List Value} {slots' : SlotKey → Int}
    {entries : List Entry} {stack : List Value} {value : Value}
    (holds : StackHolds frame values slots entries stack)
    (top : value.reading = .inl (slots' (.stack entries.length)))
    (below : ∀ depth, depth < entries.length → slots' (.stack depth) = slots (.stack depth)) :
    StackHolds frame values slots' (.live :: entries) (value :: stack) :=
  stackHolds_cons_iff.mpr ⟨top, holds.of_eq_below below⟩

/-- The moves of an action leave the entries of the new stack in place. -/
theorem Simulates.stack_step (sim : Simulates c s slots m) (lowers : Lowers options action s moves s')
    (performed : Performs action m m') (grown : s'.consts <+: c.consts) :
    StackHolds c.frame c.values (acts c.inputs moves slots) s'.stack m'.stack := by
  have holds := sim.stack
  cases lowers with
  | skip =>
    cases performed
    exact holds
  | popFoldable =>
    cases performed
    exact (stackHolds_cons_iff.mp holds).2
  | popLive =>
    cases performed
    exact (stackHolds_cons_iff.mp holds).2.of_eq_below fun depth below =>
      acts_clearing_of_ne (stack_ne (by omega))
  | rotate positive room =>
    cases performed
    exact holds.rotate positive room
  | duplicate room =>
    cases performed
    exact holds.duplicate room
  | positive notEmpty =>
    cases performed with
    | unary computed =>
      obtain ⟨entry, entries, stack_eq⟩ := List.exists_cons_of_ne_nil notEmpty
      rw [stack_eq] at holds ⊢
      obtain ⟨top, below⟩ := stackHolds_cons_iff.mp holds
      exact stackHolds_cons_iff.mpr ⟨top.congr (Value.reading_positive computed), below⟩
  | unaryFoldable =>
    cases performed with
    | unary computed =>
      obtain ⟨⟨constant, evaluates, same⟩, below⟩ := stackHolds_cons_iff.mp holds
      refine stackHolds_cons_iff.mpr ⟨⟨_, evaluates.unary ?_, rfl⟩, below⟩
      rw [Value.unary_congr same, computed]
  | negateLive =>
    cases performed with
    | unary computed =>
      obtain ⟨top, below⟩ := stackHolds_cons_iff.mp holds
      refine below.live_cons ?_ fun depth lower => Move.act_of_ne slots (stack_ne (by omega))
      rw [reading_negative top computed]
      simp [Move.act, Verb.result, Place.eval]
  | binaryFoldable =>
    cases performed with
    | binary computed =>
      obtain ⟨⟨right, evaluatesRight, sameRight⟩, tail⟩ := stackHolds_cons_iff.mp holds
      obtain ⟨⟨left, evaluatesLeft, sameLeft⟩, below⟩ := stackHolds_cons_iff.mp tail
      refine stackHolds_cons_iff.mpr ⟨⟨_, evaluatesLeft.binary evaluatesRight ?_, rfl⟩, below⟩
      rw [Value.binary_congr sameLeft sameRight, computed]
  | binaryLeft isAffine =>
    cases performed with
    | binary computed =>
      obtain ⟨right, tail⟩ := stackHolds_cons_iff.mp holds
      obtain ⟨left, below⟩ := stackHolds_cons_iff.mp tail
      refine below.live_cons ?_ fun depth lower => Move.act_of_ne slots (stack_ne (by omega))
      rw [reading_affine isAffine left (Context.reading_indexIn grown right) computed]
      simp [Move.act, Place.eval]
  | binaryRight isAffine =>
    cases performed with
    | binary computed =>
      obtain ⟨right, tail⟩ := stackHolds_cons_iff.mp holds
      obtain ⟨left, below⟩ := stackHolds_cons_iff.mp tail
      refine below.live_cons ?_ fun depth lower =>
        acts_sinking_of_ne _ _ _ _ _ _ (stack_ne (by omega)) (stack_ne (by omega))
      rw [reading_affine isAffine (Context.reading_indexIn grown left) right computed, acts_sinking]
      rfl
  | binaryBoth isAffine =>
    cases performed with
    | binary computed =>
      obtain ⟨right, tail⟩ := stackHolds_cons_iff.mp holds
      obtain ⟨left, below⟩ := stackHolds_cons_iff.mp tail
      refine below.live_cons ?_ fun depth lower => ?_
      · rw [reading_affine isAffine left right computed, acts_cleared (stack_ne (by omega))]
        simp [Move.act, Place.eval]
      · rw [acts_cleared (stack_ne (by omega)), Move.act_of_ne _ (stack_ne (by omega))]
  | push =>
    cases performed
    exact stackHolds_cons_iff.mpr ⟨⟨_, ConstProgram.evaluates_push _, rfl⟩, holds⟩
  | loadConst bound =>
    cases performed with
    | load defined =>
      obtain ⟨constant, atIndex, same⟩ := sim.const _ _ bound _ defined
      exact stackHolds_cons_iff.mpr ⟨⟨constant, ConstProgram.evaluates_folded_iff.mpr atIndex, same⟩, holds⟩
  | loadSlot bound =>
    cases performed with
    | load defined =>
      refine holds.live_cons ?_ fun depth lower => Move.act_of_ne slots (stack_ne (Nat.ne_of_lt lower))
      rw [sim.held _ (sim.slot _ bound) _ defined]
      simp [Move.act, Verb.result, Place.eval]
  | storeFoldable =>
    cases performed
    exact (stackHolds_cons_iff.mp holds).2.of_eq_below fun depth _ => Move.acts_of_not_dest (by simp) slots
  | storeLive =>
    cases performed
    refine (stackHolds_cons_iff.mp holds).2.of_eq_below fun depth below => ?_
    rw [acts_cleared (stack_ne (by omega)), Move.act_of_ne slots (by simp)]

/-- The moves of an action change the slot of a variable only to store to it. -/
theorem acts_host_of_not_store {inputs : Inputs} (lowers : Lowers options action s moves s') {v : Variable}
    (other : action ≠ .store v) : acts inputs moves slots (.host v) = slots (.host v) := by
  refine Move.acts_of_not_dest (fun m member => ?_) slots
  rcases (lowers.moveKind member).dest with ⟨depth, dest⟩ | ⟨u, isStore, dest⟩
  · simp [dest]
  · rw [dest]
    rintro ⟨⟩
    exact other isStore

/-- A store leaves the value of the stored entry in the variable's slot. -/
theorem Simulates.reading_stored {v : Variable} (sim : Simulates c s slots m)
    (lowers : Lowers options (.store v) s moves s') {value : Value} {rest : List Value}
    (top : m.stack = value :: rest) (grown : s'.consts <+: c.consts) :
    value.reading = .inl (acts c.inputs moves slots (.host v)) := by
  have holds := sim.stack
  rw [top] at holds
  cases lowers with
  | storeFoldable =>
    rw [Context.reading_indexIn grown (stackHolds_cons_iff.mp holds).1]
    simp [Move.act, Verb.result, Place.eval]
  | storeLive =>
    rw [show value.reading = _ from (stackHolds_cons_iff.mp holds).1, acts_cleared (by simp)]
    simp [Move.act, Verb.result, Place.eval]

/-- A variable that a store binds to a constant has the value of the constant. -/
theorem Simulates.const_stored {v : Variable} (sim : Simulates c s slots m)
    (lowers : Lowers options (.store v) s moves s') {value : Value} {rest : List Value}
    (top : m.stack = value :: rest) (grown : s'.consts <+: c.consts) {index : Nat}
    (bound : s'.bindings.lookup v = some (.const index)) :
    ∃ constant, c.values[index]? = some constant ∧ constant.reading = value.reading := by
  have holds := sim.stack
  rw [top] at holds
  cases lowers with
  | storeFoldable =>
    obtain ⟨constant, evaluates, same⟩ := (stackHolds_cons_iff.mp holds).1
    rw [List.lookup_cons_self] at bound
    cases bound
    exact ⟨constant, Context.values_indexIn grown evaluates, same⟩
  | storeLive =>
    rw [List.lookup_cons_self] at bound
    cases bound

/-- What an action of the literal machine does, the moves of its lowering do in the slots. -/
theorem Simulates.step (sim : Simulates c s slots m) (lowers : Lowers options action s moves s')
    (performed : Performs action m m') (grown : s'.consts <+: c.consts)
    (target : ∀ v, action = .store v → c.held v) :
    Simulates c s' (acts c.inputs moves slots) m' := by
  have known : ∀ v, (s'.bindings.lookup v).isSome → c.known v := by
    intro v bound
    by_cases isStore : action = .store v
    · exact c.held_known v (target v isStore)
    · exact sim.known v (lowers.lookup_eq isStore ▸ bound)
  -- Names tell the loop's variables apart, so a store to one of them is invisible to the others.
  have unchanged : ∀ v, c.known v → action ≠ .store v → m'.frame.load? v = m.frame.load? v := by
    intro v isKnown other
    refine performed.load?_eq fun u isStore names => other ?_
    rw [isStore, c.apart v u isKnown (c.held_known u (target u isStore)) names]
  refine ⟨sim.stack_step lowers performed grown, ?_, ?_,
    fun v bound => (lowers.lookup_slot bound).elim (sim.slot v) (target v), known⟩
  · intro v held value defined
    by_cases isStore : action = .store v
    · subst isStore
      cases performed
      rw [Frame.load?_store_self] at defined
      cases defined
      exact sim.reading_stored lowers rfl grown
    · rw [acts_host_of_not_store lowers isStore]
      rw [unchanged v (c.held_known v held) isStore] at defined
      exact sim.held v held value defined
  · intro v index bound value defined
    by_cases isStore : action = .store v
    · subst isStore
      cases performed
      rw [Frame.load?_store_self] at defined
      cases defined
      exact sim.const_stored lowers rfl grown bound
    · rw [unchanged v (known v (by simp [bound])) isStore] at defined
      exact sim.const v index (lowers.lookup_eq isStore ▸ bound) value defined

end Step

/-! ### A whole body -/

/-- What the rest of a body does to the literal machine, the moves of its lowering do in the slots. -/
theorem Simulates.run {c : Context} {options : CompileOptions} {body : List Instruction} {s s' : Sketch}
    {moves : List Move} {slots : SlotKey → Int} {m m' : Machine} (sim : Simulates c s slots m)
    (lowers : LowersAll options body s moves s') (ran : Machine.run body m = .ok m')
    (grown : s'.consts <+: c.consts)
    (targets : ∀ v, .store v ∈ body.filterMap Instruction.access? → c.held v) :
    Simulates c s' (acts c.inputs moves slots) m' := by
  induction lowers generalizing slots m with
  | nil =>
    cases ran
    exact sim
  | @cons instr rest action s mid s' first others asked lowersFirst lowersRest ih =>
    obtain ⟨action', middle, asked', performed, ranRest⟩ := Literal.run_cons_eq_ok_iff.mp ran
    obtain rfl : action = action' := Option.some.inj (asked.symm.trans asked')
    rw [Move.acts_append]
    refine ih (sim.step lowersFirst performed (lowersRest.consts_prefix.trans grown) ?_) ranRest grown ?_
    · rintro v rfl
      exact targets v (mem_accesses_cons.mpr (.inl (Instruction.access?_eq_some_iff.mpr asked)))
    · exact fun v stored => targets v (mem_accesses_cons.mpr (.inr stored))

end AffineLoops
