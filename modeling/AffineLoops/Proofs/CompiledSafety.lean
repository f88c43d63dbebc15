import AffineLoops.Proofs.CompiledLayout
import AffineLoops.Proofs.ConstantPrograms

/-!
Compiled loops never trip the engine. Lowering keeps every foldable entry a program that yields one value
from constants there are (`Sketch.Formed`), and emits only moves that a matrix can carry out over these
constants. So the code of a compiled loop fits its slots and constants, and a run of it fails for what it
finds in the frame or not at all.

* `Lowers.formed`, `Lowers.sound`: what lowering keeps, action by action.
* `Laid.wellFormed`: the shape of a compiled loop.
* `Laid.execute_eq_bind`, `Laid.execute_failsOnly`: what its runs compute, and the ways in which they may fail.
-/

namespace AffineLoops

open ConstProgram (Yields)
open Draft (clearing Emits Numbers)

/-! ### Formed sketches -/

/-- Every constant yields a value from the constants before it, and every foldable entry and binding from
the constants there are. -/
structure Sketch.Formed (s : Sketch) : Prop where
  consts : ∀ index program, s.consts[index]? = some program → Yields index program
  stack : ∀ program, .foldable program ∈ s.stack → Yields s.consts.length program
  bindings : ∀ v index, s.bindings.lookup v = some (.const index) → index < s.consts.length

section Constants

variable {consts : List ConstProgram} {program : ConstProgram}

theorem indexIn_lt (yields : Yields consts.length program) :
    program.indexIn consts < (program.addTo consts).length := by
  unfold ConstProgram.indexIn ConstProgram.addTo
  cases again : program.alias? with
  | some index => simpa using yields.alias_lt again
  | none => simp

theorem addTo_yields (formed : ∀ index program, consts[index]? = some program → Yields index program)
    (yields : Yields consts.length program) {index : Nat} {program' : ConstProgram}
    (found : (program.addTo consts)[index]? = some program') : Yields index program' := by
  unfold ConstProgram.addTo at found
  split at found
  · exact formed index program' found
  · rw [List.getElem?_append] at found
    split at found
    · exact formed index program' found
    · obtain ⟨bound, rfl⟩ := List.getElem?_eq_some_iff.mp found
      have last : index = consts.length := by
        simp only [List.length_singleton] at bound
        omega
      subst last
      simpa using yields

end Constants

theorem mem_rotate_iff {α : Type} {count : Nat} {stack : List α} {entry : α} :
    entry ∈ Stack.rotate count stack ↔ entry ∈ stack := by
  cases stack with
  | nil => rfl
  | cons top rest =>
    -- the entries that are taken from below the top and those that are left there are all of them
    have parts : entry ∈ rest ↔ entry ∈ rest.take (count - 1) ∨ entry ∈ rest.drop (count - 1) := by
      rw [← List.mem_append, List.take_append_drop]
    simp only [Stack.rotate, List.mem_append, List.mem_cons, parts]
    tauto

theorem mem_duplicate_iff {α : Type} {count : Nat} {stack : List α} {entry : α} :
    entry ∈ Stack.duplicate count stack ↔ entry ∈ stack :=
  List.mem_append.trans (or_iff_right_of_imp List.mem_of_mem_take)

namespace Lowers

variable {options : CompileOptions} {action : Action} {s s' : Sketch} {moves : List Move}

/-- At most the program of a foldable entry becomes a constant. -/
theorem consts_cases (lowers : Lowers options action s moves s') :
    s'.consts = s.consts ∨ ∃ program, .foldable program ∈ s.stack ∧ s'.consts = program.addTo s.consts := by
  cases lowers with
  | @binaryLeft _ _ right => exact .inr ⟨right, by simp, rfl⟩
  | @binaryRight _ _ left => exact .inr ⟨left, by simp, rfl⟩
  | @storeFoldable _ program => exact .inr ⟨program, by simp, rfl⟩
  | _ => exact .inl rfl

/-- The programs of the entries are put together from programs and constants there are. -/
theorem yields_of_mem (lowers : Lowers options action s moves s') (formed : s.Formed)
    {program : ConstProgram} (member : .foldable program ∈ s'.stack) : Yields s.consts.length program := by
  have old := formed.stack
  cases lowers with
  | skip | positive => exact old program member
  | popFoldable | popLive | storeFoldable | storeLive => exact old program (.tail _ member)
  | rotate => exact old program (mem_rotate_iff.mp member)
  | duplicate => exact old program (mem_duplicate_iff.mp member)
  | unaryFoldable =>
    rcases List.mem_cons.mp member with same | below
    · cases same
      exact (old _ (.head _)).unary _
    · exact old program (.tail _ below)
  | binaryFoldable =>
    rcases List.mem_cons.mp member with same | below
    · cases same
      exact (old _ (.tail _ (.head _))).binary (old _ (.head _)) _
    · exact old program (.tail _ (.tail _ below))
  | push =>
    rcases List.mem_cons.mp member with same | below
    · cases same
      exact ConstProgram.yields_push _
    · exact old program below
  | loadConst bound =>
    rcases List.mem_cons.mp member with same | below
    · cases same
      exact ConstProgram.yields_folded (formed.bindings _ _ bound)
    · exact old program below
  | negateLive => exact old program member
  | binaryLeft | binaryRight | binaryBoth =>
    rcases List.mem_cons.mp member with same | below
    · cases same
    · exact old program (.tail _ (.tail _ below))
  | loadSlot =>
    rcases List.mem_cons.mp member with same | below
    · cases same
    · exact old program below

/-- A variable is bound to a constant there is. -/
theorem const_lt_of_lookup (lowers : Lowers options action s moves s') (formed : s.Formed)
    {v : Variable} {index : Nat} (bound : s'.bindings.lookup v = some (.const index)) :
    index < s'.consts.length := by
  have old : s.bindings.lookup v = some (.const index) → index < s'.consts.length := fun before =>
    Nat.lt_of_lt_of_le (formed.bindings v index before) lowers.consts_prefix.length_le
  cases lowers with
  | storeFoldable =>
    rw [List.lookup_cons] at bound
    split at bound
    · cases bound
      exact indexIn_lt (formed.stack _ (.head _))
    · exact old bound
  | storeLive =>
    rw [List.lookup_cons] at bound
    split at bound
    · cases bound
    · exact old bound
  | _ => exact old bound

/-- Lowering keeps sketches formed. -/
theorem formed (lowers : Lowers options action s moves s') (formed : s.Formed) : s'.Formed where
  consts index program found := by
    rcases lowers.consts_cases with same | ⟨added, member, grown⟩
    · exact formed.consts index program (same ▸ found)
    · exact addTo_yields formed.consts (formed.stack added member) (grown ▸ found)
  stack program member := (lowers.yields_of_mem formed member).mono lowers.consts_prefix.length_le
  bindings v index bound := lowers.const_lt_of_lookup formed bound

/-- Lowering emits moves that a matrix can carry out over the constants there are. -/
theorem sound (lowers : Lowers options action s moves s') (formed : s.Formed) {m : Move}
    (member : m ∈ moves) : m.Sound s'.consts.length := by
  have kind := lowers.moveKind member
  refine ⟨?_, kind.scalar⟩
  intro index isConst
  cases kind with
  | const program entry grown src =>
    obtain rfl : program.indexIn s.consts = index := by simpa [src] using isConst
    rw [grown]
    exact indexIn_lt (formed.stack program entry)
  | shuffle shuffles => rcases shuffles.src with src | ⟨_, src⟩ <;> simp [src] at isConst
  | number _ _ _ src | join _ _ _ _ src | load _ _ _ _ _ src | store _ _ _ _ _ src => simp [src] at isConst

end Lowers

/-- Whole bodies are lowered to moves that a matrix can carry out, and leave a formed sketch. -/
theorem LowersAll.formed {options : CompileOptions} {body : List Instruction} {s s' : Sketch}
    {moves : List Move} (lowers : LowersAll options body s moves s') (formed : s.Formed) :
    s'.Formed ∧ ∀ m ∈ moves, m.Sound s'.consts.length := by
  induction lowers with
  | nil => exact ⟨formed, by simp⟩
  | cons _ first rest ih =>
    obtain ⟨formed', sound⟩ := ih (first.formed formed)
    refine ⟨formed', fun m member => ?_⟩
    rcases List.mem_append.mp member with inFirst | inOthers
    · exact (first.sound formed inFirst).mono rest.consts_prefix.length_le
    · exact sound m inOthers

/-- Announced variables are bound to constants that read them. -/
theorem Announced.formed {stored seen : Variable → Prop} {d : Draft} (announced : Announced stored seen d) :
    d.sketch.Formed where
  consts index program found := by
    obtain ⟨v, rfl⟩ := announced.consts program (List.mem_of_getElem? found)
    exact ConstProgram.yields_load v
  stack program member := by
    rw [show d.sketch.stack = [] from announced.stack] at member
    cases member
  bindings v index bound := (List.getElem?_eq_some_iff.mp (announced.const v index bound).2).1

namespace Layout

variable {options : CompileOptions} {counter : Variable} {body : List Instruction} {loop : CompiledLoop}

theorem formed (layout : Layout options counter body loop) : layout.finish.Formed :=
  (layout.lowers.formed layout.announced.formed).1

theorem sound (layout : Layout options counter body loop) {m : Move}
    (within : m ∈ (loopMoves counter layout.use layout.moves).moves) :
    m.Sound layout.finish.consts.length := by
  rcases mem_loopMoves within with inBody | keeps
  · exact (layout.lowers.formed layout.announced.formed).2 m inBody
  · exact ⟨fun index src => absurd src (keeps.src index), fun isMul => absurd isMul keeps.verb⟩

end Layout

/-! ### Loops laid out in slots -/

/-- The code of a loop is a loop of moves in the loop's slots, over the loop's constants. -/
structure Laid (loop : CompiledLoop) (moves : MoveLoop) (keys : List SlotKey) : Prop where
  slots : loop.slots = keys.map fun key => ⟨key, key.isHost⟩
  code : loop.code = moves.number keys
  nodup : keys.Nodup
  known : ∀ m ∈ moves.moves, ∀ key ∈ m.keys, key ∈ keys
  sound : ∀ m ∈ moves.moves, m.Sound loop.consts.length
  consts : ∀ index program, loop.consts[index]? = some program → Yields index program

theorem Layout.laid {options : CompileOptions} {counter : Variable} {body : List Instruction}
    {loop : CompiledLoop} (layout : Layout options counter body loop) :
    Laid loop (loopMoves counter layout.use layout.moves) layout.slots := by
  have consts : loop.consts = layout.finish.consts := congrArg CompiledLoop.consts layout.loop_eq
  refine ⟨congrArg CompiledLoop.slots layout.loop_eq, congrArg CompiledLoop.code layout.loop_eq,
    layout.nodup, layout.numbers.known, ?_, ?_⟩
  · rw [consts]
    exact fun m within => layout.sound within
  · rw [consts]
    exact layout.formed.consts

/-- A body of line markers alone compiles to a loop of nothing. -/
theorem laid_nothing :
    Laid ⟨(⟨[], [], []⟩ : MoveLoop).number [], [], [], none, .unused, false⟩ ⟨[], [], []⟩ [] :=
  ⟨rfl, rfl, List.nodup_nil, by simp [MoveLoop.moves], by simp [MoveLoop.moves], by simp⟩

theorem laid_of_compile {body : List Instruction} {options : CompileOptions} {headLine : Option Nat}
    {loop : CompiledLoop} (compiled : CompiledLoop.compile body options headLine = .ok loop) :
    ∃ moves keys, Laid loop moves keys := by
  obtain ⟨markers, rest, -, -, ⟨-, rfl⟩ | ⟨target, after, counter, -, -, ⟨layout⟩⟩⟩ := compile_cases compiled
  · exact ⟨_, _, laid_nothing⟩
  · exact ⟨_, _, layout.laid⟩

/-- The values of the slots before the loop. -/
def initialValues (frame : Frame) (types : KindSet) (key : SlotKey) : Int :=
  (CompiledLoop.slotValue frame types key).toOption.getD 0

/-- What goes back to the frame when the slots have the given values. -/
def hostValues (keys : List SlotKey) (values : SlotKey → Int) : List (Variable × Value) :=
  keys.filterMap fun key =>
    match key with
    | .host v => some (v, .int (values key))
    | _ => none

/-- A run whose engine returns a result writes back what the result has at the slots of the host's variables. -/
theorem CompiledLoop.execute_of_run {loop : CompiledLoop} {shape : LoopShape} {frame : Frame} {settings : Settings}
    {state ints result : List Int} {code : List (Instr Resolved)} (rounds : 0 < shape.itersCount)
    (loaded : loop.loadState frame settings.types = .ok state)
    (folded : loop.foldedInts frame settings.types = .ok ints)
    (resolved : CompiledLoop.resolve loop.code ints shape = .ok code)
    (ran : (⟨settings.foldConstantRows⟩ : Engine).run code state = .ok result) :
    loop.execute shape frame settings =
      .ok ⟨loop.writeBackSlots.map fun (slot, v) => (v, .int (result.getD slot 0)), loop.finalCounter shape⟩ := by
  rw [CompiledLoop.execute, if_neg (by omega), loaded, folded]
  simp only [bind, Except.bind, pure, Except.pure, resolved, ran, Except.mapError]

namespace Laid

variable {loop : CompiledLoop} {moves : MoveLoop} {keys : List SlotKey} {frame : Frame} {types : KindSet}

theorem loadState_eq (laid : Laid loop moves keys) {state : List Int}
    (loaded : loop.loadState frame types = .ok state) : state = keys.map (initialValues frame types) := by
  rw [CompiledLoop.loadState, laid.slots, mapM_eq_ok_iff, List.forall₂_map_left_iff] at loaded
  clear laid
  induction loaded with
  | nil => rfl
  | cons first _ ih =>
    rw [List.map_cons, ih]
    congr 1
    simp [initialValues, first, Except.toOption]

/-- The slots of the host's variables are read at their own numbers. -/
theorem values_eq (laid : Laid loop moves keys) (values : SlotKey → Int) :
    (loop.writeBackSlots.map fun (slot, v) => (v, Value.int ((keys.map values).getD slot 0))) =
      hostValues keys values := by
  have byKey : loop.writeBackSlots = keys.zipIdx.filterMap fun (key, index) =>
      match key with
      | .host v => some (index, v)
      | _ => none := by
    rw [CompiledLoop.writeBackSlots, laid.slots, List.zipIdx_map, List.filterMap_map]
    congr 1
    funext ⟨key, index⟩
    cases key <;> simp [SlotKey.isHost]
  have atNumber : ∀ p ∈ keys.zipIdx, (keys.map values).getD p.2 0 = values p.1 := by
    rintro ⟨key, index⟩ member
    have found : keys[index]? = some key := List.mem_zipIdx_iff_getElem?.mp member
    simp [List.getD_eq_getElem?_getD, found]
  have keys_eq : keys = keys.zipIdx.map Prod.fst := by simp
  rw [byKey, List.map_filterMap, hostValues]
  conv_rhs => rw [keys_eq, List.filterMap_map]
  refine List.filterMap_congr fun p member => ?_
  rcases p with ⟨_ | _ | _, index⟩
  · exact congrArg (fun n => some (_, Value.int n)) (atNumber _ member)
  · rfl
  · rfl

theorem foldedInts_length {ints : List Int} (laid : Laid loop moves keys)
    (folded : loop.foldedInts frame types = .ok ints) : ints.length = loop.consts.length := by
  obtain ⟨values, computed, converted⟩ := bind_eq_ok_iff.mp folded
  rcases ConstProgram.evaluateAll_outcome frame types laid.consts with
    ⟨values', computed', length⟩ | ⟨e, failed, -⟩
  · obtain rfl : values = values' := by simpa [computed] using computed'
    rw [← length]
    exact (mapM_eq_ok_iff.mp converted).length_eq.symm
  · simp [computed] at failed

theorem engine_run_eq (laid : Laid loop moves keys) {shape : LoopShape} {ints : List Int}
    (rounds : 0 < shape.itersCount) (length : ints.length = loop.consts.length) :
    CompiledLoop.resolve loop.code ints shape = .ok (moves.resolved ⟨ints, shape⟩ keys) ∧
      ∀ (engine : Engine) (values : SlotKey → Int),
        engine.run (moves.resolved ⟨ints, shape⟩ keys) (keys.map values) =
          .ok (keys.map (moves.acts ⟨ints, shape⟩ values)) := by
  have sound : ∀ m ∈ moves.moves, m.Sound ints.length := length ▸ laid.sound
  refine ⟨?_, fun engine values => ?_⟩
  · rw [laid.code]
    exact MoveLoop.resolve_number ⟨ints, shape⟩ sound
  · exact MoveLoop.run_resolved laid.nodup laid.known sound rounds.le engine values

/-- A run of a loop carries its moves out on the values of the slots. -/
theorem execute_eq (laid : Laid loop moves keys) {settings : Settings} {shape : LoopShape}
    {state ints : List Int} (rounds : 0 < shape.itersCount)
    (loaded : loop.loadState frame settings.types = .ok state)
    (folded : loop.foldedInts frame settings.types = .ok ints) :
    loop.execute shape frame settings =
      .ok ⟨hostValues keys (moves.acts ⟨ints, shape⟩ (initialValues frame settings.types)),
        loop.finalCounter shape⟩ := by
  obtain ⟨resolved, ran⟩ := laid.engine_run_eq rounds (laid.foldedInts_length folded)
  have state_eq := laid.loadState_eq loaded
  subst state_eq
  rw [CompiledLoop.execute_of_run rounds loaded folded resolved (ran _ _), laid.values_eq]

/-- A run loads its state, computes its constants, and can then do no wrong. -/
theorem execute_eq_bind (laid : Laid loop moves keys) {settings : Settings} {shape : LoopShape}
    (rounds : 0 < shape.itersCount) :
    loop.execute shape frame settings = (do
      let _ ← loop.loadState frame settings.types
      let ints ← loop.foldedInts frame settings.types
      return ⟨hostValues keys (moves.acts ⟨ints, shape⟩ (initialValues frame settings.types)),
        loop.finalCounter shape⟩) := by
  cases loaded : loop.loadState frame settings.types with
  | error cause =>
    rw [CompiledLoop.execute, if_neg (by omega), loaded]
    rfl
  | ok state =>
    cases folded : loop.foldedInts frame settings.types with
    | error cause =>
      rw [CompiledLoop.execute, if_neg (by omega), loaded, folded]
      rfl
    | ok ints =>
      rw [laid.execute_eq rounds loaded folded]
      rfl

/-- A run that succeeds has loaded its state and computed its constants. -/
theorem of_execute_eq_ok (laid : Laid loop moves keys) {settings : Settings} {shape : LoopShape}
    {writeBack : WriteBack} (rounds : 0 < shape.itersCount)
    (executed : loop.execute shape frame settings = .ok writeBack) :
    ∃ state ints, loop.loadState frame settings.types = .ok state ∧
      loop.foldedInts frame settings.types = .ok ints ∧
      writeBack = ⟨hostValues keys (moves.acts ⟨ints, shape⟩ (initialValues frame settings.types)),
        loop.finalCounter shape⟩ := by
  rw [laid.execute_eq_bind rounds] at executed
  obtain ⟨state, loaded, others⟩ := bind_eq_ok_iff.mp executed
  obtain ⟨ints, folded, returned⟩ := bind_eq_ok_iff.mp others
  cases returned
  exact ⟨state, ints, loaded, folded, rfl⟩

theorem slotValue_failsOnly (key : SlotKey) :
    FailsOnly RunError.FromValues (CompiledLoop.slotValue frame types key) := by
  intro e failed
  cases key with
  | host v =>
    simp only [CompiledLoop.slotValue] at failed
    split at failed
    · rename_i value _
      split at failed
      · cases value <;> cases failed
        trivial
      · cases failed
        trivial
    · cases failed
  | counter | stack => cases failed

theorem foldedInts_failsOnly (laid : Laid loop moves keys) :
    FailsOnly RunError.FromValues (loop.foldedInts frame types) := by
  refine failsOnly_bind ?_ fun values _ => failsOnly_mapM fun value _ => ?_
  · intro e failed
    rcases ConstProgram.evaluateAll_outcome frame types laid.consts with
      ⟨values, computed, -⟩ | ⟨e', failed', fromValues⟩
    · simp [computed] at failed
    · obtain rfl : e' = e := by simpa [failed'] using failed
      exact fromValues
  · rintro e failed
    cases value <;> cases failed
    trivial

/-- A run fails, if at all, for what it finds in the frame. -/
theorem execute_failsOnly (laid : Laid loop moves keys) (shape : LoopShape) (frame : Frame)
    (settings : Settings) : FailsOnly RunError.FromValues (loop.execute shape frame settings) := by
  by_cases rounds : 0 < shape.itersCount
  · rw [laid.execute_eq_bind rounds]
    refine failsOnly_bind ?_ fun state _ => failsOnly_bind laid.foldedInts_failsOnly fun ints _ => ?_
    · exact failsOnly_mapM fun slot _ => slotValue_failsOnly slot.key
    · rintro e ⟨⟩
  · rw [CompiledLoop.execute, if_pos (by omega)]
    rintro e ⟨⟩

end Laid

/-! ### The slots of a state vector -/

/-- The number that a state vector has in the slot of a key, if the loop has such a slot. -/
def CompiledLoop.valueAt (loop : CompiledLoop) (state : List Int) (key : SlotKey) : Option Int :=
  ((loop.slots.map Slot.key).idxOf? key).bind fun index => state[index]?

namespace Laid

variable {loop : CompiledLoop} {moves : MoveLoop} {keys : List SlotKey}

theorem keys_eq (laid : Laid loop moves keys) : loop.slots.map Slot.key = keys := by
  simp [laid.slots, Function.comp_def]

theorem valueAt_map (laid : Laid loop moves keys) (values : SlotKey → Int) {key : SlotKey}
    (known : key ∈ keys) : loop.valueAt (keys.map values) key = some (values key) := by
  rw [CompiledLoop.valueAt, laid.keys_eq]
  cases found : keys.idxOf? key with
  | none => exact absurd known (List.idxOf?_eq_none_iff.mp found)
  | some index =>
    obtain ⟨inside, here, -⟩ := List.idxOf?_eq_some_iff.mp found
    simp [inside, here]

/-- Keys are distinct, so that a vector of the right length gives each key a number. -/
theorem exists_values (laid : Laid loop moves keys) {state : List Int}
    (length : state.length = loop.slots.length) : ∃ values : SlotKey → Int, state = keys.map values := by
  have slots : loop.slots.length = keys.length := by rw [laid.slots, List.length_map]
  refine ⟨fun key => state.getD (keys.idxOf key) 0, List.ext_getElem ?_ ?_⟩
  · rw [length, slots, List.length_map]
  · intro index inside _
    have inKeys : index < keys.length := by omega
    rw [List.getElem_map, laid.nodup.idxOf_getElem index inKeys, List.getD_eq_getElem?_getD,
      List.getElem?_eq_getElem inside, Option.getD_some]

/-- From any values of the slots, the engine leaves in each slot what the moves leave there. -/
theorem exists_run (laid : Laid loop moves keys) {shape : LoopShape} {ints : List Int}
    (rounds : 0 < shape.itersCount) (length : ints.length = loop.consts.length) (engine : Engine)
    (values : SlotKey → Int) :
    ∃ code result, CompiledLoop.resolve loop.code ints shape = .ok code ∧
      engine.run code (keys.map values) = .ok result ∧
      ∀ key ∈ keys, loop.valueAt result key = some (moves.acts ⟨ints, shape⟩ values key) := by
  obtain ⟨resolved, ran⟩ := laid.engine_run_eq rounds length
  exact ⟨_, _, resolved, ran engine values, fun key known => laid.valueAt_map _ known⟩

end Laid

/-! ### Well-formed loops -/

/-- The shape of a loop that the engine can run. -/
structure CompiledLoop.WellFormed (loop : CompiledLoop) : Prop where
  /-- One loop over the rounds of the run, with updates alone before, inside and after it. -/
  code : ∃ before block after : List (Instr Operand),
    loop.code = before ++ (.loop (.param .itersCount) :: block ++ .endLoop :: after) ∧
      ∀ instr ∈ before ++ block ++ after, instr.isUpdate = true
  dest : ∀ instr ∈ loop.code, instr.isUpdate = true →
    ∃ slot, slot < loop.slots.length ∧ instr.operands.head? = some (.var slot)
  var : ∀ instr ∈ loop.code, ∀ slot, .var slot ∈ instr.operands → slot < loop.slots.length
  mul : ∀ dest src, .mul dest src ∈ loop.code → ∀ slot, src ≠ .var slot
  const : ∀ instr ∈ loop.code, ∀ index, .const index ∈ instr.operands → index < loop.consts.length
  program : ∀ index program, loop.consts[index]? = some program → Yields index program

namespace Move

variable {keys : List SlotKey} {m : Move}

theorem isUpdate_number : (m.number keys).isUpdate = true := by
  rcases m with ⟨_ | _ | _ | _, _, _⟩ <;> rfl

theorem operands_number :
    (m.number keys).operands = [.var (keys.idxOf m.dest), m.src.number keys] := by
  rcases m with ⟨_ | _ | _ | _, _, _⟩ <;> rfl

theorem number_src_var {slot : Nat} (isVar : m.src.number keys = .var slot)
    (known : ∀ key ∈ m.keys, key ∈ keys) : m.src.keys ≠ [] ∧ slot < keys.length := by
  cases src : m.src with
  | slot key =>
    rw [src, Place.number] at isVar
    cases isVar
    refine ⟨by simp [Place.keys], List.idxOf_lt_length_iff.mpr (known key ?_)⟩
    simp [Move.keys, src, Place.keys]
  | _ => simp [src, Place.number] at isVar

end Move

/-- An instruction of a loop is the loop itself, its end, or the update of one of its moves. -/
theorem Laid.instr_cases {loop : CompiledLoop} {moves : MoveLoop} {keys : List SlotKey}
    (laid : Laid loop moves keys) {instr : Instr Operand} (member : instr ∈ loop.code) :
    (∃ m ∈ moves.moves, m.number keys = instr) ∨ instr = .loop (.param .itersCount) ∨ instr = .endLoop := by
  rw [laid.code] at member
  exact MoveLoop.mem_code member

theorem Laid.wellFormed {loop : CompiledLoop} {moves : MoveLoop} {keys : List SlotKey}
    (laid : Laid loop moves keys) : loop.WellFormed := by
  have slots : loop.slots.length = keys.length := by rw [laid.slots, List.length_map]
  have dest_lt : ∀ m ∈ moves.moves, keys.idxOf m.dest < loop.slots.length := fun m within =>
    slots ▸ List.idxOf_lt_length_iff.mpr (laid.known m within m.dest (.head _))
  refine ⟨⟨_, _, _, laid.code, ?_⟩, ?_, ?_, ?_, ?_, laid.consts⟩
  · intro instr member
    simp only [← List.map_append] at member
    obtain ⟨m, -, rfl⟩ := List.mem_map.mp member
    exact Move.isUpdate_number
  · intro instr member isUpdate
    rcases laid.instr_cases member with ⟨m, within, rfl⟩ | rfl | rfl
    · exact ⟨_, dest_lt m within, by simp [Move.operands_number]⟩
    · cases isUpdate
    · cases isUpdate
  · intro instr member slot named
    rcases laid.instr_cases member with ⟨m, within, rfl⟩ | rfl | rfl
    · rw [Move.operands_number] at named
      rcases List.mem_cons.mp named with same | isSrc
      · cases same
        exact dest_lt m within
      · exact slots ▸ (Move.number_src_var (List.mem_singleton.mp isSrc).symm (laid.known m within)).2
    · simp [Instr.operands] at named
    · simp [Instr.operands] at named
  · rintro dest src member slot rfl
    rcases laid.instr_cases member with ⟨m, within, isMul⟩ | other | other
    · have operands := congrArg Instr.operands isMul
      rw [Move.operands_number] at operands
      have isVar : m.src.number keys = .var slot := by
        simp only [Instr.operands, List.cons.injEq, and_true] at operands
        exact operands.2
      have verb : m.verb = .mul := by
        rcases m with ⟨_ | _ | _ | _, _, _⟩ <;> simp [Move.number, Verb.instr] at isMul ⊢
      exact (Move.number_src_var isVar (laid.known m within)).1 ((laid.sound m within).scalar verb)
    · cases other
    · cases other
  · intro instr member index named
    rcases laid.instr_cases member with ⟨m, within, rfl⟩ | rfl | rfl
    · rw [Move.operands_number] at named
      simp only [List.mem_cons, reduceCtorEq, List.not_mem_nil, or_false, false_or] at named
      refine (laid.sound m within).const index ?_
      cases src : m.src <;> simp [src, Place.number] at named
      rw [named]
    · simp [Instr.operands] at named
    · simp [Instr.operands] at named

theorem writeBackSlots_lt {loop : CompiledLoop} {p : Nat × Variable} (member : p ∈ loop.writeBackSlots) :
    p.1 < loop.slots.length := by
  obtain ⟨⟨slot, index⟩, numbered, isHost⟩ := List.mem_filterMap.mp member
  have found := (List.getElem?_eq_some_iff.mp (List.mem_zipIdx_iff_getElem?.mp numbered)).1
  dsimp only at isHost
  split at isHost
  · split at isHost
    · cases isHost
      exact found
    · cases isHost
  · cases isHost

/-- Compiled loops never trip the engine. Their code is one counted loop that fits its slots and constants,
and each constant's program leaves exactly one value. A run succeeds, or fails for what it finds in the
frame: a kind that is not allowed, a name without a value, or arithmetic without a result. When the engine
is reached, state and constants have one number for each slot and program, and the engine returns a result
in which every slot to be written back has its number. -/
theorem compiled_run_safe {body : List Instruction} {options : CompileOptions} {headLine : Option Nat}
    {loop : CompiledLoop} (compiled : CompiledLoop.compile body options headLine = .ok loop) :
    loop.WellFormed ∧
    (∀ index program frame folded stack, loop.consts[index]? = some program → index ≤ folded.length →
      ConstProgram.run index frame folded program [] = .ok stack → ∃ value, stack = [value]) ∧
    ∀ shape frame settings,
      ((∃ writeBack, loop.execute shape frame settings = .ok writeBack) ∨
        ∃ e, loop.execute shape frame settings = .error e ∧ e.FromValues) ∧
      ∀ state ints, 0 < shape.itersCount → loop.loadState frame settings.types = .ok state →
        loop.foldedInts frame settings.types = .ok ints →
        state.length = loop.slots.length ∧ ints.length = loop.consts.length ∧
        ∃ code result, CompiledLoop.resolve loop.code ints shape = .ok code ∧
          (⟨settings.foldConstantRows⟩ : Engine).run code state = .ok result ∧
          result.length = loop.slots.length ∧ ∀ p ∈ loop.writeBackSlots, p.1 < result.length := by
  obtain ⟨moves, keys, laid⟩ := laid_of_compile compiled
  have slots : loop.slots.length = keys.length := by rw [laid.slots, List.length_map]
  refine ⟨laid.wellFormed, ?_, fun shape frame settings => ⟨?_, ?_⟩⟩
  · intro index program frame folded stack found known ran
    exact (laid.consts index program found).single known ran
  · cases executed : loop.execute shape frame settings with
    | ok writeBack => exact .inl ⟨writeBack, rfl⟩
    | error e => exact .inr ⟨e, rfl, laid.execute_failsOnly shape frame settings e executed⟩
  · intro state ints rounds loaded folded
    have length := laid.foldedInts_length folded
    obtain ⟨resolved, ran⟩ := laid.engine_run_eq rounds length
    rw [laid.loadState_eq loaded, List.length_map]
    refine ⟨slots.symm, length, _, _, resolved, ran _ _, by rw [List.length_map, slots], ?_⟩
    rw [List.length_map, ← slots]
    exact fun p member => writeBackSlots_lt member

/-- One round of `x, y = y, x + 2 * k * i`, where `k` is a global that the loop leaves alone. -/
def weightedSwap : List Instruction :=
  [⟨.setLineno, .line 7⟩, ⟨.store .fast, .name "i"⟩, ⟨.load .fast, .name "y"⟩, ⟨.load .fast, .name "x"⟩,
    ⟨.loadConst, .const (.int 2)⟩, ⟨.load .global, .name "k"⟩, ⟨.binary .multiply, .none⟩,
    ⟨.load .fast, .name "i"⟩, ⟨.binary .multiply, .none⟩, ⟨.inplace .add, .none⟩, ⟨.rotTwo, .none⟩,
    ⟨.store .fast, .name "x"⟩, ⟨.store .fast, .name "y"⟩]

def weightedSwapLoop : CompiledLoop where
  code :=
    [.mov (.var 0) (.param .start), .loop (.param .itersCount), .mov (.var 3) (.var 1),
      .mov (.var 4) (.var 2), .mov (.var 5) (.var 0), .mul (.var 5) (.const 1), .mov (.var 6) (.var 5),
      .mov (.var 5) (.value 0), .add (.var 4) (.var 6), .mov (.var 6) (.value 0), .mov (.var 6) (.var 4),
      .mov (.var 4) (.var 3), .mov (.var 3) (.var 6), .mov (.var 6) (.value 0), .mov (.var 2) (.var 4),
      .mov (.var 4) (.value 0), .mov (.var 1) (.var 3), .mov (.var 3) (.value 0),
      .add (.var 0) (.param .step), .endLoop, .sub (.var 0) (.param .step)]
  slots :=
    [⟨.host ⟨.fast, "i"⟩, true⟩, ⟨.host ⟨.fast, "y"⟩, true⟩, ⟨.host ⟨.fast, "x"⟩, true⟩,
      ⟨.stack 0, false⟩, ⟨.stack 1, false⟩, ⟨.stack 3, false⟩, ⟨.stack 2, false⟩]
  consts := [[.load ⟨.global, "k"⟩], [.push (.int 2), .folded 0, .binary .multiply]]
  counter := some ⟨.fast, "i"⟩
  counterUse := .readOnly
  storeCounter := false

def weightedSwapFrame : Frame :=
  ((Frame.empty.store ⟨.global, "k"⟩ (.int 3)).store ⟨.fast, "x"⟩ (.int 1)).store ⟨.fast, "y"⟩ (.int 2)

/-- Three rounds where all variables are defined reach the engine, with numbers for seven slots and two constants, and
succeed: the result has the numbers of the three variables. Where none is defined the run fails, since `k` has no
value. -/
theorem weightedSwap_run_safe :
    CompiledLoop.compile weightedSwap default none = .ok weightedSwapLoop ∧ weightedSwapLoop.WellFormed ∧
      weightedSwapLoop.loadState weightedSwapFrame (default : Settings).types = .ok [0, 2, 1, 0, 0, 0, 0] ∧
      weightedSwapLoop.foldedInts weightedSwapFrame (default : Settings).types = .ok [3, 6] ∧
      (∃ code result, CompiledLoop.resolve weightedSwapLoop.code [3, 6] ⟨0, 1, 3, some 2⟩ = .ok code ∧
        (⟨(default : Settings).foldConstantRows⟩ : Engine).run code [0, 2, 1, 0, 0, 0, 0] = .ok result ∧
        result.length = 7 ∧ (∀ p ∈ weightedSwapLoop.writeBackSlots, p.1 < result.length) ∧
        weightedSwapLoop.execute ⟨0, 1, 3, some 2⟩ weightedSwapFrame default =
          .ok ⟨[(⟨.fast, "i"⟩, .int (result.getD 0 0)), (⟨.fast, "y"⟩, .int (result.getD 1 0)),
            (⟨.fast, "x"⟩, .int (result.getD 2 0))], none⟩) ∧
      weightedSwapLoop.execute ⟨0, 1, 3, some 2⟩ .empty default = .error (.undefinedVariable "k") ∧
      RunError.FromValues (.undefinedVariable "k") := by
  have compiled : CompiledLoop.compile weightedSwap default none = .ok weightedSwapLoop := by decide +kernel
  have loaded : weightedSwapLoop.loadState weightedSwapFrame (default : Settings).types =
      .ok [0, 2, 1, 0, 0, 0, 0] := by decide +kernel
  have folded : weightedSwapLoop.foldedInts weightedSwapFrame (default : Settings).types = .ok [3, 6] := by
    decide +kernel
  have undefined : weightedSwapLoop.execute ⟨0, 1, 3, some 2⟩ .empty default = .error (.undefinedVariable "k") := by
    decide +kernel
  obtain ⟨wellFormed, -, runs⟩ := compiled_run_safe compiled
  refine ⟨compiled, wellFormed, loaded, folded, ?_, undefined, ?_⟩
  · obtain ⟨-, -, code, result, resolved, ran, length, slots⟩ :=
      (runs ⟨0, 1, 3, some 2⟩ weightedSwapFrame default).2 _ _ (by decide) loaded folded
    exact ⟨code, result, resolved, ran, length, slots,
      CompiledLoop.execute_of_run (by decide) loaded folded resolved ran⟩
  · obtain ⟨writeBack, succeeded⟩ | ⟨e, failed, fromValues⟩ := (runs ⟨0, 1, 3, some 2⟩ .empty default).1
    · cases undefined.symm.trans succeeded
    · cases undefined.symm.trans failed
      exact fromValues

end AffineLoops
