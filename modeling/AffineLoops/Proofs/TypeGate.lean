import AffineLoops.Proofs.CompilerCorrectness

/-!
The gate for doubles. A run reads the frame in two places, where it loads the slots and where it computes the
constants, and each of them checks kinds by the run's own set and then asks for an integer. The announcements
of a body leave no variable out of both: one that is stored to has a slot, any other is read by a constant. So
a double in the frame, or one that a constant comes to, makes the run fail, also when the set lists doubles.

* `CompiledLoop.constant?` and `SlotKey.start?`: what constants and slots hold, without the check of kinds.
* `loadState_exact`, `foldedInts_exact`: what is handed to the engine is what these read as.
* `Layout.asInt?_of_accessed`: a variable that the body accesses has passed one of the two.
-/

namespace AffineLoops

/-! ### Without the check of kinds -/

theorem KindSet.allows_all (value : Value) : (KindSet.ofList Kind.all).allows value = true := by
  cases value <;> rfl

namespace ConstProgram

variable {frame : Frame} {types types' : KindSet} {done values : List Value} {programs : List ConstProgram}

/-- Constants that pass the check have the same values where more kinds are allowed. -/
theorem evaluateFrom_mono (more : ∀ value, types.allows value = true → types'.allows value = true)
    (computed : evaluateFrom frame types done programs = .ok values) :
    evaluateFrom frame types' done programs = .ok values := by
  induction programs generalizing done with
  | nil => exact computed
  | cons program rest ih =>
    obtain ⟨value, evaluated, others⟩ := bind_eq_ok_iff.mp computed
    split at others
    · rename_i allowed
      refine bind_eq_ok_iff.mpr ⟨value, evaluated, ?_⟩
      rw [if_pos (more value allowed)]
      exact ih others
    · cases others

/-- The first constants have the first of the values. -/
theorem evaluateFrom_take (computed : evaluateFrom frame types done programs = .ok values) (count : Nat) :
    evaluateFrom frame types done (programs.take count) = .ok (values.take (done.length + count)) := by
  induction programs generalizing done count with
  | nil =>
    cases computed
    rw [List.take_nil, List.take_of_length_le (Nat.le_add_right _ _)]
    rfl
  | cons program rest ih =>
    cases count with
    | zero =>
      obtain ⟨later, rfl⟩ := (evaluates_of_evaluateFrom computed).1
      rw [List.take_zero, Nat.add_zero, List.take_left]
      rfl
    | succ count =>
      obtain ⟨value, evaluated, others⟩ := bind_eq_ok_iff.mp computed
      split at others
      · rename_i allowed
        have first := ih others count
        rw [List.length_append, List.length_singleton, Nat.add_assoc, Nat.add_comm 1] at first
        rw [List.take_succ_cons]
        refine bind_eq_ok_iff.mpr ⟨value, evaluated, ?_⟩
        rw [if_pos allowed]
        exact first
      · cases others

end ConstProgram

/-- The value of a constant in a frame, if kinds are not checked. -/
def CompiledLoop.constant? (loop : CompiledLoop) (frame : Frame) (index : Nat) : Option Value :=
  match ConstProgram.evaluateAll (loop.consts.take (index + 1)) frame (.ofList Kind.all) with
  | .ok values => values[index]?
  | .error _ => none

/-- What a slot holds before the loop, if kinds are not checked: the integer that its variable reads as, and zero
where there is nothing to read. -/
def SlotKey.start? (frame : Frame) : SlotKey → Option Int
  | .host v =>
    match frame.load? v with
    | some value => value.asInt?
    | none => some 0
  | .counter | .stack _ => some 0

/-! ### What is handed to the engine -/

section Inputs

variable {loop : CompiledLoop} {frame : Frame} {types : KindSet}

theorem Value.asInt?_of_toInt {value : Value} {n : Int}
    (converted : value.toInt.mapError RunError.arithmetic = .ok n) : value.asInt? = some n :=
  Value.reading_eq_inl_iff.mp (Value.toInt_eq_ok_iff.mp (mapError_eq_ok_iff.mp converted))

theorem start?_of_slotValue {key : SlotKey} {n : Int}
    (loaded : CompiledLoop.slotValue frame types key = .ok n) : key.start? frame = some n := by
  cases key with
  | host v =>
    unfold CompiledLoop.slotValue at loaded
    unfold SlotKey.start?
    cases defined : frame.load? v with
    | some value =>
      simp only [defined] at loaded ⊢
      split at loaded
      · exact Value.asInt?_of_toInt loaded
      · cases loaded
    | none =>
      simp only [defined] at loaded ⊢
      cases loaded
      rfl
  | counter =>
    cases loaded
    rfl
  | stack depth =>
    cases loaded
    rfl

/-- The state vector is what the slots hold. -/
theorem loadState_exact {state : List Int} (loaded : loop.loadState frame types = .ok state) :
    List.Forall₂ (fun slot n => slot.key.start? frame = some n) loop.slots state :=
  (mapM_eq_ok_iff.mp loaded).imp fun _ _ => start?_of_slotValue

/-- Constants that pass the check have their values without it. -/
theorem evaluateAll_unchecked {values : List Value}
    (computed : ConstProgram.evaluateAll loop.consts frame types = .ok values) :
    ConstProgram.evaluateAll loop.consts frame (.ofList Kind.all) = .ok values :=
  ConstProgram.evaluateFrom_mono (fun value _ => KindSet.allows_all value) computed

/-- The numbers in the code are what the constants read as. -/
theorem foldedInts_exact {ints : List Int} (folded : loop.foldedInts frame types = .ok ints) :
    ∃ values, ConstProgram.evaluateAll loop.consts frame (.ofList Kind.all) = .ok values ∧
      List.Forall₂ (fun value n => value.asInt? = some n) values ints := by
  obtain ⟨values, computed, converted⟩ := bind_eq_ok_iff.mp folded
  refine ⟨values, evaluateAll_unchecked computed, ?_⟩
  exact (mapM_eq_ok_iff.mp converted).imp fun _ _ => Value.asInt?_of_toInt

theorem constant?_eq {values : List Value}
    (computed : ConstProgram.evaluateAll loop.consts frame (.ofList Kind.all) = .ok values) (index : Nat) :
    loop.constant? frame index = values[index]? := by
  have first := ConstProgram.evaluateFrom_take computed (index + 1)
  rw [CompiledLoop.constant?, ConstProgram.evaluateAll, first]
  simp

/-- Where the constants have passed, each of them is an integer. -/
theorem asInt?_of_constant? {ints : List Int} (folded : loop.foldedInts frame types = .ok ints) {index : Nat}
    {value : Value} (constant : loop.constant? frame index = some value) : ∃ n, value.asInt? = some n := by
  obtain ⟨values, computed, converted⟩ := bind_eq_ok_iff.mp folded
  rw [constant?_eq (evaluateAll_unchecked computed)] at constant
  obtain ⟨n, -, isInt⟩ := getElem?_of_mapM_eq_ok converted constant
  exact ⟨n, Value.asInt?_of_toInt isInt⟩

end Inputs

/-! ### The variables of a body -/

/-- The variables that the loop of a body depends on: those that the body accesses after the store to its target,
and the target itself unless nothing looks at it. -/
def CompiledLoop.DependsOn (loop : CompiledLoop) (body : List Instruction) (v : Variable) : Prop :=
  (∃ access ∈ (body.dropWhile Instruction.isMarker).tail.filterMap Instruction.access?, access.var = v) ∨
    (loop.counter = some v ∧ loop.counterUse ≠ .unused)

section Variables

variable {options : CompileOptions} {counter v : Variable} {body : List Instruction} {loop : CompiledLoop}
  {frame : Frame} {types : KindSet}

theorem Layout.accessed_of_dependsOn (layout : Layout options counter body loop) {markers : List Instruction}
    {target : Instruction} (marking : ∀ instr ∈ markers, instr.isMarker = true)
    (targets : target.access? = some (.store counter)) (depends : loop.DependsOn (markers ++ target :: body) v) :
    Accessed body counter layout.use v := by
  have isTarget : loop.counter = some counter := congrArg CompiledLoop.counter layout.loop_eq
  have use : loop.counterUse = layout.use := congrArg CompiledLoop.counterUse layout.loop_eq
  rw [CompiledLoop.DependsOn, dropWhile_markers marking targets, isTarget, use] at depends
  rcases depends with accessed | ⟨same, looked⟩
  · exact .inl accessed
  · cases same
    exact .inr ⟨rfl, looked⟩

/-- A variable that the body accesses has passed one of the two checks: it has a slot, or a constant reads it. -/
theorem Layout.asInt?_of_accessed (layout : Layout options counter body loop) {state ints : List Int}
    (loaded : loop.loadState frame types = .ok state) (folded : loop.foldedInts frame types = .ok ints)
    (accessed : Accessed body counter layout.use v) {value : Value} (defined : frame.load? v = some value) :
    ∃ n, value.asInt? = some n := by
  obtain ⟨binding, bound⟩ := Option.isSome_iff_exists.mp ((layout.announced.bound v).mpr accessed)
  cases binding with
  | slot =>
    obtain ⟨n, isInt⟩ := layout.slotValue_of_held loaded (layout.announced.slot v bound)
    have start := start?_of_slotValue isInt
    rw [SlotKey.start?, defined] at start
    exact ⟨n, start⟩
  | const index =>
    have consts : loop.consts = layout.finish.consts := congrArg CompiledLoop.consts layout.loop_eq
    have reads : loop.consts[index]? = some [.load v] := consts ▸ layout.consts_of_bound bound
    obtain ⟨values, computed, -⟩ := bind_eq_ok_iff.mp folded
    obtain ⟨constant, found, evaluates⟩ := ConstProgram.evaluates_of_evaluateAll computed reads
    obtain rfl : constant = value := evaluates.unique (ConstProgram.evaluates_load defined)
    exact asInt?_of_constant? folded ((constant?_eq (evaluateAll_unchecked computed) index).trans found)

end Variables

/-! ### Whole runs -/

section Runs

variable {body : List Instruction} {options : CompileOptions} {headLine : Option Nat} {loop : CompiledLoop}
  {shape : LoopShape} {frame : Frame} {settings : Settings} {writeBack : WriteBack}

/-- The variables of a loop that runs are integers or truth values. -/
theorem asInt?_of_execute (compiled : CompiledLoop.compile body options headLine = .ok loop)
    (rounds : 1 ≤ shape.itersCount) (executed : loop.execute shape frame settings = .ok writeBack)
    {v : Variable} (depends : loop.DependsOn body v) {value : Value} (defined : frame.load? v = some value) :
    ∃ n, value.asInt? = some n := by
  obtain ⟨markers, rest, rfl, marking, ⟨rfl, rfl⟩ | ⟨target, after, counter, rfl, targets, ⟨layout⟩⟩⟩ :=
    compile_cases compiled
  · -- a body of line markers depends on nothing
    rw [CompiledLoop.DependsOn, List.dropWhile_append_of_pos marking] at depends
    simp at depends
  · obtain ⟨state, ints, loaded, folded, -⟩ := layout.laid.of_execute_eq_ok rounds executed
    exact layout.asInt?_of_accessed loaded folded (layout.accessed_of_dependsOn marking targets depends) defined

/-- What a run gives back is integers, also for a target outside the slots. -/
theorem Laid.stores_int {moves : MoveLoop} {keys : List SlotKey} (laid : Laid loop moves keys)
    (rounds : 1 ≤ shape.itersCount) (executed : loop.execute shape frame settings = .ok writeBack) :
    ∀ entry ∈ writeBack.stores, ∃ n, entry.2 = .int n := by
  obtain ⟨state, ints, -, -, rfl⟩ := laid.of_execute_eq_ok rounds executed
  rintro ⟨v, value⟩ stored
  rcases List.mem_append.mp stored with fromSlot | isTarget
  · exact ⟨_, (mem_hostValues_iff.mp fromSlot).2⟩
  · have target : loop.finalCounter shape = some (v, value) := Option.mem_toList.mp isTarget
    unfold CompiledLoop.finalCounter at target
    split at target
    · split at target
      · cases target
        exact ⟨_, rfl⟩
      · cases target
    · cases target

/-- The type gate. Whatever kinds a run allows, doubles included: it fails if a variable that the loop depends on
is a double in the frame, and it fails if one of the constants comes to a double. A run that succeeds gives
integers back, and nothing but exact integers went into it: its state is what the slots hold and its numbers
are what the constants read as, without a check of kinds. -/
theorem double_never_accelerated (compiled : CompiledLoop.compile body options headLine = .ok loop)
    (rounds : 1 ≤ shape.itersCount) (frame : Frame) (settings : Settings) :
    (∀ v x, loop.DependsOn body v → frame.load? v = some (.float x) →
      ∃ e, loop.execute shape frame settings = .error e) ∧
    (∀ index x, loop.constant? frame index = some (.float x) →
      ∃ e, loop.execute shape frame settings = .error e) ∧
    ∀ writeBack, loop.execute shape frame settings = .ok writeBack →
      (∀ entry ∈ writeBack.stores, ∃ n, entry.2 = .int n) ∧
      ∃ state ints values, loop.loadState frame settings.types = .ok state ∧
        loop.foldedInts frame settings.types = .ok ints ∧
        ConstProgram.evaluateAll loop.consts frame (.ofList Kind.all) = .ok values ∧
        List.Forall₂ (fun slot n => slot.key.start? frame = some n) loop.slots state ∧
        List.Forall₂ (fun value n => value.asInt? = some n) values ints := by
  obtain ⟨moves, keys, laid⟩ := laid_of_compile compiled
  refine ⟨?_, ?_, ?_⟩
  · intro v x depends defined
    apply exists_eq_error
    intro writeBack executed
    obtain ⟨n, isInt⟩ := asInt?_of_execute compiled rounds executed depends defined
    cases isInt
  · intro index x constant
    apply exists_eq_error
    intro writeBack executed
    obtain ⟨state, ints, -, folded, -⟩ := laid.of_execute_eq_ok rounds executed
    obtain ⟨n, isInt⟩ := asInt?_of_constant? folded constant
    cases isInt
  · intro writeBack executed
    obtain ⟨state, ints, loaded, folded, -⟩ := laid.of_execute_eq_ok rounds executed
    obtain ⟨values, computed, reads⟩ := foldedInts_exact folded
    exact ⟨laid.stores_int rounds executed, state, ints, values, loaded, folded, computed, loadState_exact loaded,
      reads⟩

end Runs

/-- One round of `s += 0.5`. -/
def shiftedSum : List Instruction :=
  [⟨.store .fast, .name "i"⟩, ⟨.load .fast, .name "s"⟩, ⟨.loadConst, .const (.float 0.5)⟩, ⟨.inplace .add, .none⟩,
    ⟨.store .fast, .name "s"⟩]

/-- Runs that allow every kind fail on a double in the frame and on one in the body. A run from a truth value
succeeds, and gives integers back. -/
theorem weightedSum_double_never_accelerated :
    (CompiledLoop.compile weightedSum default none = .ok weightedSumLoop ∧
      weightedSumLoop.DependsOn weightedSum ⟨.fast, "s"⟩ ∧
      (weightedSumFrame (.float 0.5)).load? ⟨.fast, "s"⟩ = some (.float 0.5) ∧
      ∃ e, weightedSumLoop.execute (Progression.shape ⟨2, 11, 3⟩) (weightedSumFrame (.float 0.5))
        ⟨false, 2, .ofList Kind.all, true, true⟩ = .error e) ∧
    (∃ loop, CompiledLoop.compile shiftedSum ⟨.ofList Kind.all, true, true⟩ none = .ok loop ∧
      (∃ x, loop.constant? Frame.empty 0 = some (.float x)) ∧
      ∃ e, loop.execute (Progression.shape ⟨2, 11, 3⟩) Frame.empty
        ⟨false, 2, .ofList Kind.all, true, true⟩ = .error e) ∧
    weightedSumLoop.execute (Progression.shape ⟨2, 11, 3⟩) (weightedSumFrame (.bool true)) default =
        .ok weightedSumResult ∧
      ∀ entry ∈ weightedSumResult.stores, ∃ n, entry.2 = .int n := by
  have compiled : CompiledLoop.compile weightedSum default none = .ok weightedSumLoop := by decide +kernel
  have rounds : 1 ≤ (Progression.shape ⟨2, 11, 3⟩).itersCount := by decide
  have depends : weightedSumLoop.DependsOn weightedSum ⟨.fast, "s"⟩ :=
    .inl ⟨.load ⟨.fast, "s"⟩, by decide +kernel, rfl⟩
  have defined : (weightedSumFrame (.float 0.5)).load? ⟨.fast, "s"⟩ = some (.float 0.5) :=
    (Frame.load?_store_of_name_ne _ (by decide) _).trans (Frame.load?_store_self _ _ _)
  obtain ⟨loop, compiledShift⟩ : ∃ loop,
      CompiledLoop.compile shiftedSum ⟨.ofList Kind.all, true, true⟩ none = .ok loop :=
    exists_eq_ok (by decide +kernel)
  obtain ⟨x, constant⟩ : ∃ x, loop.constant? Frame.empty 0 = some (.float x) := by
    -- doubles themselves are not evaluated here, their kind is
    have kind : ((CompiledLoop.compile shiftedSum ⟨.ofList Kind.all, true, true⟩ none).toOption.bind fun loop =>
        (loop.constant? Frame.empty 0).map Value.kind) = some .float := by decide +kernel
    rw [compiledShift] at kind
    obtain ⟨value, found, isFloat⟩ := Option.map_eq_some_iff.mp kind
    cases value with
    | float x => exact ⟨x, found⟩
    | int | bool => cases isFloat
  have executed : weightedSumLoop.execute (Progression.shape ⟨2, 11, 3⟩) (weightedSumFrame (.bool true))
      default = .ok weightedSumResult := by decide +kernel
  exact ⟨⟨compiled, depends, defined, (double_never_accelerated compiled rounds _ _).1 _ _ depends defined⟩,
    ⟨loop, compiledShift, ⟨x, constant⟩,
      (double_never_accelerated compiledShift rounds _ _).2.1 _ _ constant⟩,
    executed, ((double_never_accelerated compiled rounds _ _).2.2 _ executed).1⟩

end AffineLoops
