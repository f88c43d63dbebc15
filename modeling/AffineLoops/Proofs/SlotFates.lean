import AffineLoops.Proofs.Acceptance
import AffineLoops.Proofs.RoundSimulation

/-!
What the moves of one action do to the stack slot for a height. A live entry has its value there; or the slot is
freed, and zero if freed slots are cleared; or no move goes there. Which of these it is follows from the tags of
the entries before and after the action.

* `dest_of_mem_rotation`, `exists_dest_rotation`: the moves of a rotation go where live entries come to be, and
  for a live entry on top to the slot above the stack.
* `Lowers.fate`: the same for every action.
-/

namespace AffineLoops

open Draft (clearing)
open Move (acts)

/-- Whether the entry at a height varies. The bottom of the stack has height zero. -/
def varies : List Tag → Nat → Bool
  | [], _ => false
  | tag :: rest, height => if height = rest.length then decide (tag = .varying) else varies rest height

/-- Whether an action has the slot for a height set to zero, unless a varying entry comes to be there. What is
taken off the stack is cleared; a rotation clears the slot above the stack, by way of which it takes a varying
entry down from the top, and no other. -/
def Action.frees (action : Action) (stack : List Tag) (height : Nat) : Bool :=
  match action with
  | .rotate _ => decide (height = stack.length ∧ stack.head? = some .varying)
  | _ => varies stack height

/-! ### Heights -/

section Heights

variable {entries : List Entry} {height : Nat}

theorem varies_of_le {stack : List Tag} (above : stack.length ≤ height) : varies stack height = false := by
  induction stack with
  | nil => rfl
  | cons tag rest ih =>
    rw [List.length_cons] at above
    rw [varies, if_neg (by omega)]
    exact ih (by omega)

/-- The entries that vary are the live ones. -/
theorem varies_tags_iff :
    varies (entries.map Entry.tag) height = true ↔
      height < entries.length ∧ entries[entries.length - 1 - height]? = some .live := by
  induction entries with
  | nil => simp [varies]
  | cons entry rest ih =>
    rw [List.map_cons, varies, List.length_map, List.length_cons]
    by_cases top : height = rest.length
    · subst top
      cases entry <;> simp [Entry.tag]
    · rw [if_neg top, ih]
      constructor
      · rintro ⟨below, found⟩
        refine ⟨by omega, ?_⟩
        rw [show rest.length + 1 - 1 - height = rest.length - 1 - height + 1 by omega]
        exact found
      · rintro ⟨below, found⟩
        rw [show rest.length + 1 - 1 - height = rest.length - 1 - height + 1 by omega] at found
        exact ⟨by omega, found⟩

theorem varies_rotate_iff {count : Nat} (positive : 0 < count) (room : count ≤ entries.length) :
    varies ((Stack.rotate count entries).map Entry.tag) height = true ↔
      height < entries.length ∧ entries[rotateSource count (entries.length - 1 - height)]? = some .live := by
  rw [varies_tags_iff, length_rotate, getElem?_rotate positive room]

theorem varies_duplicate_iff {count : Nat} (room : count ≤ entries.length) :
    varies ((Stack.duplicate count entries).map Entry.tag) height = true ↔
      height < count + entries.length ∧
        entries[duplicateSource count (count + entries.length - 1 - height)]? = some .live := by
  rw [varies_tags_iff, length_duplicate room, getElem?_duplicate room]

/-- An entry on top that does not vary has nothing in the slot for its height. -/
theorem varies_foldable_cons (program : ConstProgram) (rest : List Entry) (height : Nat) :
    varies ((Entry.foldable program :: rest).map Entry.tag) height = varies (rest.map Entry.tag) height := by
  rw [List.map_cons, varies]
  split
  · rename_i top
    rw [varies_of_le top.ge]
    rfl
  · rfl

theorem varies_live_cons_of_ne {rest : List Entry} (other : height ≠ rest.length) :
    varies ((Entry.live :: rest).map Entry.tag) height = varies (rest.map Entry.tag) height := by
  rw [List.map_cons, varies, if_neg (by simpa using other)]

theorem varies_live_cons_self {rest : List Entry} (top : height = rest.length) :
    varies ((Entry.live :: rest).map Entry.tag) height = true := by
  rw [List.map_cons, varies, if_pos (by simpa using top)]
  rfl

end Heights

/-! ### The slot for a height -/

/-- What the moves of an action do to the slot for a height. -/
inductive SlotFate (options : CompileOptions) (action : Action) (before after : List Tag) (moves : List Move)
    (height : Nat) : Prop where
  /-- A varying entry has its value there. -/
  | holds : varies after height = true →
      varies before height = true ∨ (∃ m ∈ moves, m.dest = .stack height) →
        SlotFate options action before after moves height
  | freed : varies after height = false → action.frees before height = true →
      (options.clearFreedStackSlots = true →
        ∀ inputs slots, acts inputs moves slots (.stack height) = 0) →
        SlotFate options action before after moves height
  | kept : varies after height = false → action.frees before height = false →
      (∀ m ∈ moves, .stack height ≠ m.dest) → SlotFate options action before after moves height

namespace SlotFate

variable {options : CompileOptions} {action : Action} {before after : List Tag} {moves : List Move}
  {height : Nat}

/-- The entry at a height is as it was, and no move goes there. -/
theorem unmoved (frees : action.frees before height = varies before height)
    (same : varies after height = varies before height) (untouched : ∀ m ∈ moves, .stack height ≠ m.dest) :
    SlotFate options action before after moves height := by
  cases live : varies before height with
  | true => exact .holds (same.trans live) (.inl live)
  | false => exact .kept (same.trans live) (frees.trans live) untouched

/-- A slot that no entry needs and that is not freed keeps its value. -/
theorem acts_eq (fate : SlotFate options action before after moves height)
    (dead : varies after height = false) (notFreed : action.frees before height = false) (inputs : Inputs)
    (slots : SlotKey → Int) : acts inputs moves slots (.stack height) = slots (.stack height) := by
  cases fate with
  | holds live => simp [dead] at live
  | freed _ frees => simp [notFreed] at frees
  | kept _ _ untouched => exact Move.acts_of_not_dest untouched slots

end SlotFate

theorem mem_lifting_iff {count : Nat} {entries : List Entry} {m : Move} :
    m ∈ lifting count entries ↔ ∃ offset, (offset < count - 1 ∧ liveAt entries (offset + 1) = true) ∧
      Move.copy (entries.length - 1 - offset) (entries.length - 2 - offset) = m := by
  simp only [lifting, Move.copies, List.mem_map, List.mem_filter, List.mem_range]

section Fates

variable {options : CompileOptions} {entries : List Entry} {count height : Nat}

section Rotation

variable (positive : 0 < count) (room : count ≤ entries.length)

include positive room

/-- The moves of a rotation go to the new places of live entries, and to the slot above the stack if a live
entry is on top. -/
theorem dest_of_mem_rotation {m : Move} (member : m ∈ rotation options count entries) :
    (m.dest = .stack entries.length ∧ liveAt entries 0 = true) ∨
      ∃ height, m.dest = .stack height ∧
        varies ((Stack.rotate count entries).map Entry.tag) height = true := by
  have lifted : m ∈ lifting count entries → ∃ height, m.dest = .stack height ∧
      varies ((Stack.rotate count entries).map Entry.tag) height = true := by
    intro inLifting
    obtain ⟨offset, ⟨below, live⟩, rfl⟩ := mem_lifting_iff.mp inLifting
    refine ⟨entries.length - 1 - offset, rfl, (varies_rotate_iff positive room).mpr ⟨by omega, ?_⟩⟩
    rw [show entries.length - 1 - (entries.length - 1 - offset) = offset by omega, rotateSource, if_pos below]
    exact (liveAt_iff (by omega)).mp live
  unfold rotation at member
  split at member
  · rename_i live
    simp only [List.cons_append, List.mem_cons, List.mem_append] at member
    rcases member with rfl | inLifting | rfl | cleared
    · exact .inl ⟨rfl, live⟩
    · exact .inr (lifted inLifting)
    · refine .inr ⟨entries.length - count, rfl, (varies_rotate_iff positive room).mpr ⟨by omega, ?_⟩⟩
      rw [show entries.length - 1 - (entries.length - count) = count - 1 by omega, rotateSource,
        if_neg (by omega), if_pos rfl]
      exact (liveAt_iff (by omega)).mp live
    · exact .inl ⟨dest_of_mem_clearing cleared, live⟩
  · exact .inr (lifted member)

/-- A live entry was at its height before a rotation, or is moved there. -/
theorem exists_dest_rotation (live : varies ((Stack.rotate count entries).map Entry.tag) height = true) :
    varies (entries.map Entry.tag) height = true ∨
      ∃ m ∈ rotation options count entries, m.dest = .stack height := by
  obtain ⟨inside, found⟩ := (varies_rotate_iff positive room).mp live
  unfold rotateSource at found
  by_cases lifted : entries.length - 1 - height < count - 1
  · rw [if_pos lifted] at found
    have member : Move.copy height (height - 1) ∈ lifting count entries := by
      refine mem_lifting_iff.mpr ⟨_, ⟨lifted, liveAt_eq found⟩, ?_⟩
      congr 1 <;> omega
    refine .inr ⟨Move.copy height (height - 1), ?_, rfl⟩
    unfold rotation
    split
    · simp [member]
    · exact member
  · by_cases sunk : entries.length - 1 - height = count - 1
    · rw [if_neg lifted, if_pos sunk] at found
      refine .inr ⟨Move.copy (entries.length - count) entries.length, ?_, ?_⟩
      · simp [rotation, liveAt_eq found]
      · rw [Move.dest_copy, show entries.length - count = height by omega]
    · rw [if_neg lifted, if_neg sunk] at found
      exact .inl (varies_tags_iff.mpr ⟨inside, found⟩)

theorem rotation_fate :
    SlotFate options (.rotate count) (entries.map Entry.tag) ((Stack.rotate count entries).map Entry.tag)
      (rotation options count entries) height := by
  have top : (entries.map Entry.tag).head? = some .varying ↔ liveAt entries 0 = true := by
    rw [liveAt_iff (by omega), List.head?_map]
    cases entries with
    | nil => simp
    | cons entry rest => cases entry <;> simp [Entry.tag]
  by_cases above : height = entries.length ∧ liveAt entries 0 = true
  · obtain ⟨rfl, live⟩ := above
    refine .freed (varies_of_le (by simp [length_rotate])) (by simpa [Action.frees] using top.mpr live) ?_
    intro clears inputs slots
    rw [rotation, if_pos live, Move.acts_append, Move.acts_cons, acts_clearing_self clears]
  · have notFreed : Action.frees (.rotate count) (entries.map Entry.tag) height = false := by
      rw [Action.frees, decide_eq_false_iff_not, List.length_map, top]
      exact above
    cases after : varies ((Stack.rotate count entries).map Entry.tag) height with
    | true => exact .holds after (exists_dest_rotation positive room after)
    | false =>
      refine .kept after notFreed ?_
      intro m member same
      rcases dest_of_mem_rotation positive room member with ⟨dest, live⟩ | ⟨height', dest, live⟩
      · exact above ⟨SlotKey.stack.inj (same.trans dest), live⟩
      · rw [← SlotKey.stack.inj (same.trans dest), after] at live
        cases live

end Rotation

theorem duplication_fate (room : count ≤ entries.length) :
    SlotFate options (.duplicate count) (entries.map Entry.tag) ((Stack.duplicate count entries).map Entry.tag)
      (duplication count entries) height := by
  have copies : ∀ m, m ∈ duplication count entries ↔
      ∃ index, (index < count ∧ liveAt entries (count - 1 - index) = true) ∧
        Move.copy (entries.length + index) (entries.length - count + index) = m := by
    intro m
    simp only [duplication, Move.copies, List.mem_map, List.mem_filter, List.mem_range]
  by_cases below : height < entries.length
  · refine .unmoved rfl ?_ ?_
    · rw [Bool.eq_iff_iff, varies_duplicate_iff room, varies_tags_iff, duplicateSource, if_neg (by omega),
        show count + entries.length - 1 - height - count = entries.length - 1 - height by omega]
      simp only [below, show height < count + entries.length by omega]
    · intro m member
      obtain ⟨index, -, rfl⟩ := (copies m).mp member
      exact stack_ne (by omega)
  · have live_iff : ∀ index, height = entries.length + index → index < count →
        (varies ((Stack.duplicate count entries).map Entry.tag) height = true ↔
          liveAt entries (count - 1 - index) = true) := by
      rintro index rfl inside
      rw [varies_duplicate_iff room, liveAt_iff (by omega), duplicateSource, if_pos (by omega),
        show count + entries.length - 1 - (entries.length + index) = count - 1 - index by omega]
      simp only [show entries.length + index < count + entries.length by omega, true_and]
    cases after : varies ((Stack.duplicate count entries).map Entry.tag) height with
    | true =>
      have inside := ((varies_duplicate_iff room).mp after).1
      have live := (live_iff (height - entries.length) (by omega) (by omega)).mp after
      refine .holds after (.inr ⟨_, (copies _).mpr ⟨_, ⟨by omega, live⟩, rfl⟩, ?_⟩)
      rw [Move.dest_copy, show entries.length + (height - entries.length) = height by omega]
    | false =>
      have notFreed : Action.frees (.duplicate count) (entries.map Entry.tag) height = false :=
        varies_of_le (by simpa using below)
      refine .kept after notFreed ?_
      intro m member same
      obtain ⟨index, ⟨inside, live⟩, rfl⟩ := (copies m).mp member
      rw [← live_iff index (SlotKey.stack.inj same) inside, after] at live
      cases live

theorem dest_of_mem_sinking {op : AffineOp} {depth index : Nat} {m : Move}
    (member : m ∈ sinking options op depth index) : m.dest = .stack depth ∨ m.dest = .stack (depth + 1) := by
  rcases List.mem_append.mp member with updates | moved
  · refine .inr ?_
    cases op <;> simp only [absorbing, List.mem_cons, List.not_mem_nil, or_false] at updates
    · rw [updates]
    · rw [updates]
    · rcases updates with rfl | rfl <;> rfl
  · rcases List.mem_cons.mp moved with rfl | cleared
    · exact .inl rfl
    · exact .inr (dest_of_mem_clearing cleared)

/-- What the lowering of an action does to the slot for a height. -/
theorem Lowers.fate {action : Action} {s s' : Sketch} {moves : List Move}
    (lowers : Lowers options action s moves s') (height : Nat) :
    SlotFate options action (s.stack.map Entry.tag) (s'.stack.map Entry.tag) moves height := by
  cases lowers with
  | skip | positive => exact .unmoved rfl rfl (by simp)
  | popFoldable => exact .unmoved rfl (varies_foldable_cons _ _ _).symm (by simp)
  | push | loadConst => exact .unmoved rfl (varies_foldable_cons _ _ _) (by simp)
  | unaryFoldable =>
    refine .unmoved rfl ?_ (by simp)
    rw [varies_foldable_cons, varies_foldable_cons]
  | binaryFoldable =>
    refine .unmoved rfl ?_ (by simp)
    rw [varies_foldable_cons, varies_foldable_cons, varies_foldable_cons]
  | storeFoldable => exact .unmoved rfl (varies_foldable_cons _ _ _).symm (by simp)
  | rotate positive room => exact rotation_fate positive room
  | duplicate room => exact duplication_fate room
  | @popLive rest =>
    by_cases top : height = rest.length
    · refine .freed (varies_of_le (by simp [top])) (varies_live_cons_self top) ?_
      intro clears inputs slots
      rw [top]
      exact acts_clearing_self clears inputs _ slots
    · refine .unmoved rfl (varies_live_cons_of_ne top).symm ?_
      intro m member
      rw [dest_of_mem_clearing member]
      exact stack_ne top
  | @storeLive _ rest =>
    by_cases top : height = rest.length
    · refine .freed (varies_of_le (by simp [top])) (varies_live_cons_self top) ?_
      intro clears inputs slots
      rw [top]
      exact acts_clearing_self clears inputs _ _
    · refine .unmoved rfl (varies_live_cons_of_ne top).symm ?_
      intro m member
      rcases List.mem_cons.mp member with rfl | cleared
      · simp
      · rw [dest_of_mem_clearing cleared]
        exact stack_ne top
  | @negateLive rest =>
    by_cases top : height = rest.length
    · exact .holds (varies_live_cons_self top) (.inl (varies_live_cons_self top))
    · exact .unmoved rfl rfl (by simpa using top)
  | @loadSlot v stack =>
    by_cases top : height = stack.length
    · exact .holds (varies_live_cons_self top) (.inr ⟨_, .head _, by rw [top]⟩)
    · exact .unmoved rfl (varies_live_cons_of_ne top) (by simpa using top)
  | @binaryLeft _ _ right rest =>
    by_cases top : height = rest.length
    · exact .holds (varies_live_cons_self top) (.inr ⟨_, .head _, by rw [top]⟩)
    · exact .unmoved rfl (varies_foldable_cons _ _ _).symm (by simpa using top)
  | @binaryRight _ affine left rest =>
    by_cases top : height = rest.length
    · refine .holds (varies_live_cons_self top) (.inr ⟨.copy rest.length (rest.length + 1), ?_, ?_⟩)
      · simp [sinking]
      · rw [top, Move.dest_copy]
    · by_cases freed : height = rest.length + 1
      · refine .freed (varies_of_le (by simp [freed])) (varies_live_cons_self freed) ?_
        intro clears inputs slots
        rw [freed, sinking, Move.acts_append, Move.acts_cons, acts_clearing_self clears]
      · refine .unmoved rfl ?_ ?_
        · rw [varies_live_cons_of_ne top, varies_live_cons_of_ne freed, varies_foldable_cons]
        · intro m member
          rcases dest_of_mem_sinking member with dest | dest
          · rw [dest]
            exact stack_ne top
          · rw [dest]
            exact stack_ne freed
  | @binaryBoth _ affine rest =>
    by_cases top : height = rest.length
    · exact .holds (varies_live_cons_self top) (.inr ⟨_, .head _, by rw [top]⟩)
    · by_cases freed : height = rest.length + 1
      · refine .freed (varies_of_le (by simp [freed])) (varies_live_cons_self freed) ?_
        intro clears inputs slots
        rw [freed, Move.acts_cons, acts_clearing_self clears]
      · refine .unmoved rfl ?_ ?_
        · rw [varies_live_cons_of_ne top, varies_live_cons_of_ne freed, varies_live_cons_of_ne top]
        · intro m member
          rcases List.mem_cons.mp member with rfl | cleared
          · exact stack_ne top
          · rw [dest_of_mem_clearing cleared]
            exact stack_ne freed

end Fates

end AffineLoops
