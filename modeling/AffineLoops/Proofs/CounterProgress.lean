import AffineLoops.Proofs.LoopRounds

/-!
Where the loop target and its progression stand after a run, from whatever the slots held before. A slot that
carries the progression has been moved on once in every round, and no code of the body writes to it; a target
that the body does not store to is left at the last element, whether it is taken back from one step past it or
was copied in the last round.

* `Layout.acts_counter`: the slot of the progression, beside a target that counts as overwritten.
* `Layout.acts_target`: the slot of a target that the body leaves alone.
-/

namespace AffineLoops

section Layouts

variable {options : CompileOptions} {counter : Variable} {body : List Instruction} {loop : CompiledLoop}
  (layout : Layout options counter body loop) (inputs : Inputs)

/-- The progression of a target that counts as overwritten has a slot of its own. -/
theorem Layout.counter_mem_slots (mutated : layout.use = .mutated) : .counter ∈ layout.slots := by
  refine layout.numbers.known ⟨.mov, .counter, .param .start⟩ ?_ .counter (.head _)
  simp [MoveLoop.moves, loopMoves, opening, CompiledLoop.serviceSlot, mutated]

/-- The progression has been moved on once in every round. -/
theorem Layout.acts_counter (mutated : layout.use = .mutated) (values : SlotKey → Int) :
    (loopMoves counter layout.use layout.moves).acts inputs values .counter =
      inputs.element inputs.shape.itersCount.toNat := by
  have carries : layout.Carries inputs inputs.shape.itersCount.toNat _ := layout.carries_slotsAfter _ values
  rw [layout.acts_loopMoves]
  simp only [closing, mutated, Move.acts_nil]
  exact carries .counter (by simp [CompiledLoop.serviceSlot, mutated])

/-- A target that is looked at, and that the body does not store to, is left at the last element. -/
theorem Layout.acts_target (looked : layout.use ≠ .unused)
    (notStored : .store counter ∉ body.filterMap Instruction.access?) (rounds : 0 < inputs.shape.itersCount)
    (values : SlotKey → Int) :
    (loopMoves counter layout.use layout.moves).acts inputs values (.host counter) =
      inputs.element (inputs.shape.itersCount.toNat - 1) := by
  obtain ⟨before, count⟩ := Inputs.exists_last_round rounds
  rw [layout.acts_loopMoves, count, layout.closed_target before values looked notStored]
  rfl

end Layouts

/-- Counter invariant. Take a compiled loop, any numbers for its constants, any start and step, one round or
more, and any state vector. The engine runs the loop's code. The slot of the progression, which a loop with an
overwritten target has, is left at the element after the last one. The slot of a target that is only read, or
counts as overwritten without a store in the rest of the body, is left at the last element. -/
theorem counter_after_run {body : List Instruction} {options : CompileOptions} {headLine : Option Nat}
    {loop : CompiledLoop} (compiled : CompiledLoop.compile body options headLine = .ok loop) {ints : List Int}
    (constants : ints.length = loop.consts.length) {shape : LoopShape} (rounds : 1 ≤ shape.itersCount)
    {state : List Int} (size : state.length = loop.slots.length) (engine : Engine) :
    ∃ code result, CompiledLoop.resolve loop.code ints shape = .ok code ∧
      engine.run code state = .ok result ∧
      (loop.counterUse = .mutated →
        loop.valueAt result .counter = some (shape.start + shape.itersCount * shape.step)) ∧
      ∀ target rest counter, body.dropWhile Instruction.isMarker = target :: rest →
        target.access? = some (.store counter) →
          (loop.counterUse = .readOnly ∨
            loop.counterUse = .mutated ∧ .store counter ∉ rest.filterMap Instruction.access?) →
            loop.valueAt result (.host counter) = some (shape.start + (shape.itersCount - 1) * shape.step) := by
  obtain ⟨markers, rest, rfl, marking, ⟨rfl, rfl⟩ | ⟨target, after, counter, rfl, targets, ⟨layout⟩⟩⟩ :=
    compile_cases compiled
  · obtain ⟨values, rfl⟩ := laid_nothing.exists_values size
    obtain ⟨code, result, resolved, ran, -⟩ := laid_nothing.exists_run rounds constants engine values
    refine ⟨code, result, resolved, ran, by simp, ?_⟩
    intro target rest counter _ _ kept
    simp at kept
  · obtain ⟨values, rfl⟩ := layout.laid.exists_values size
    obtain ⟨code, result, resolved, ran, left⟩ := layout.laid.exists_run rounds constants engine values
    have use : loop.counterUse = layout.use := congrArg CompiledLoop.counterUse layout.loop_eq
    refine ⟨code, result, resolved, ran, ?_, ?_⟩
    · intro mutated
      rw [use] at mutated
      have count : (shape.itersCount.toNat : Int) = shape.itersCount := by omega
      rw [left _ (layout.counter_mem_slots mutated), layout.acts_counter ⟨ints, shape⟩ mutated, Inputs.element,
        count, mul_comm]
    · intro target' rest' counter' split targets' kept
      rw [dropWhile_markers marking targets] at split
      cases split
      obtain rfl : counter = counter' := by simpa [targets] using targets'
      rw [use] at kept
      have looked : layout.use ≠ .unused := by
        rcases kept with readOnly | ⟨mutated, -⟩
        · simp [readOnly]
        · simp [mutated]
      have notStored : .store counter ∉ after.filterMap Instruction.access? := by
        rcases kept with readOnly | ⟨-, notStored⟩
        · have notMutated : CompiledLoop.counterUseOf options counter after ≠ .mutated := by
            simp [← layout.use_eq, readOnly]
          exact not_stored_of_counterUse notMutated
        · exact notStored
      have hasSlot : .host counter ∈ layout.slots :=
        layout.host_mem_slots_iff.mpr (layout.held_counter_iff.mpr looked)
      have last : ((shape.itersCount.toNat - 1 : Nat) : Int) = shape.itersCount - 1 := by omega
      rw [left _ hasSlot, layout.acts_target ⟨ints, shape⟩ looked notStored rounds, Inputs.element, last,
        mul_comm]

/-- One round of `s = s + i`. -/
def runningTotal : List Instruction :=
  [⟨.store .fast, .name "i"⟩, ⟨.load .fast, .name "s"⟩, ⟨.load .fast, .name "i"⟩, ⟨.binary .add, .none⟩,
    ⟨.store .fast, .name "s"⟩]

def runningTotalLoop : CompiledLoop where
  code :=
    [.mov (.var 0) (.param .start), .loop (.param .itersCount), .mov (.var 2) (.var 1), .mov (.var 3) (.var 0),
      .add (.var 2) (.var 3), .mov (.var 3) (.value 0), .mov (.var 1) (.var 2), .mov (.var 2) (.value 0),
      .add (.var 0) (.param .step), .endLoop, .sub (.var 0) (.param .step)]
  slots :=
    [⟨.host ⟨.fast, "i"⟩, true⟩, ⟨.host ⟨.fast, "s"⟩, true⟩, ⟨.stack 0, false⟩, ⟨.stack 1, false⟩]
  consts := []
  counter := some ⟨.fast, "i"⟩
  counterUse := .readOnly
  storeCounter := false

/-- The same loop without row folding, where the target is copied from a progression beside it. -/
def runningTotalPlainLoop : CompiledLoop where
  code :=
    [.mov (.var 2) (.param .start), .loop (.param .itersCount), .mov (.var 0) (.var 2), .mov (.var 3) (.var 1),
      .mov (.var 4) (.var 0), .add (.var 3) (.var 4), .mov (.var 4) (.value 0), .mov (.var 1) (.var 3),
      .mov (.var 3) (.value 0), .add (.var 2) (.param .step), .endLoop]
  slots :=
    [⟨.host ⟨.fast, "i"⟩, true⟩, ⟨.host ⟨.fast, "s"⟩, true⟩, ⟨.counter, false⟩, ⟨.stack 0, false⟩,
      ⟨.stack 1, false⟩]
  consts := []
  counter := some ⟨.fast, "i"⟩
  counterUse := .mutated
  storeCounter := false

/-- Five rounds down from 4 in steps of 3, over slots that hold something else before: both loops leave the
target at -8, and the progression has come to -11. -/
theorem runningTotal_counter_after_run :
    CompiledLoop.compile runningTotal default none = .ok runningTotalLoop ∧
      CompiledLoop.compile runningTotal ⟨default, false, true⟩ none = .ok runningTotalPlainLoop ∧
      (∃ code result, CompiledLoop.resolve runningTotalLoop.code [] ⟨4, -3, 5, none⟩ = .ok code ∧
        (⟨true⟩ : Engine).run code [9, 1, 7, 2] = .ok result ∧
        runningTotalLoop.valueAt result (.host ⟨.fast, "i"⟩) = some (-8)) ∧
      ∃ code result, CompiledLoop.resolve runningTotalPlainLoop.code [] ⟨4, -3, 5, none⟩ = .ok code ∧
        (⟨false⟩ : Engine).run code [9, 1, 7, 2, 6] = .ok result ∧
        runningTotalPlainLoop.valueAt result .counter = some (-11) ∧
        runningTotalPlainLoop.valueAt result (.host ⟨.fast, "i"⟩) = some (-8) := by
  have folded : CompiledLoop.compile runningTotal default none = .ok runningTotalLoop := by decide +kernel
  have plain : CompiledLoop.compile runningTotal ⟨default, false, true⟩ none = .ok runningTotalPlainLoop := by
    decide +kernel
  have rounds : 1 ≤ (⟨4, -3, 5, none⟩ : LoopShape).itersCount := by decide
  refine ⟨folded, plain, ?_, ?_⟩
  · have constants : ([] : List Int).length = runningTotalLoop.consts.length := rfl
    have size : ([9, 1, 7, 2] : List Int).length = runningTotalLoop.slots.length := rfl
    obtain ⟨code, result, resolved, ran, -, target⟩ := counter_after_run folded constants rounds size ⟨true⟩
    exact ⟨code, result, resolved, ran, target _ _ _ rfl rfl (.inl rfl)⟩
  · have constants : ([] : List Int).length = runningTotalPlainLoop.consts.length := rfl
    have size : ([9, 1, 7, 2, 6] : List Int).length = runningTotalPlainLoop.slots.length := rfl
    obtain ⟨code, result, resolved, ran, progression, target⟩ :=
      counter_after_run plain constants rounds size ⟨false⟩
    exact ⟨code, result, resolved, ran, progression rfl, target _ _ _ rfl rfl (.inr ⟨rfl, by decide⟩)⟩

end AffineLoops
