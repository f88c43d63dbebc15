import AffineLoops.Proofs.CompiledSafety
import AffineLoops.Proofs.RoundSimulation

/-!
The rounds of an accelerated run go in step with those of the literal run. `Between` ties slots and frame
together after a number of rounds, whichever way the loop target is kept.

* `Layout.Carries`: the slot of the progression holds the element of the round, and no round disturbs it.
* `Layout.carries_slotsAfter`, `Layout.closed_target`: so after any number of rounds the progression has come as
  far, and a target that the body leaves alone is at the last element.
* `between_start`: it holds once the state has been loaded.
* `Between.round`: a round keeps it, and what it leaves for each variable is what would go back to the
  frame if it were the last one.
* `Between.settled`: so does a literal run of any number of rounds.
-/

namespace AffineLoops

open Literal (Machine)
open Move (acts)

/-! ### The progression and its slot -/

/-- The element of the progression in a round. -/
def Inputs.element (inputs : Inputs) (round : Nat) : Int :=
  inputs.shape.start + inputs.shape.step * round

/-- A run that has rounds has a last one. -/
theorem Inputs.exists_last_round {inputs : Inputs} (rounds : 0 < inputs.shape.itersCount) :
    ∃ before, inputs.shape.itersCount.toNat = before + 1 :=
  ⟨inputs.shape.itersCount.toNat - 1, by omega⟩

section Target

variable {options : CompileOptions} {counter : Variable} {body : List Instruction} {loop : CompiledLoop}
  {inputs : Inputs} {slots : SlotKey → Int}

/-- The target lives in a slot exactly if it is looked at. -/
theorem Layout.held_counter_iff (layout : Layout options counter body loop) :
    Held body counter layout.use counter ↔ layout.use ≠ .unused := by
  constructor
  · rintro (stored | ⟨-, looked⟩) unused
    · exact not_accessed_of_unused (layout.use_eq ▸ unused) stored rfl
    · exact looked unused
  · exact fun looked => .inr ⟨rfl, looked⟩

/-- The target is not a constant. -/
theorem Layout.counter_ne_of_const (layout : Layout options counter body loop) {v : Variable} {index : Nat}
    (bound : layout.start.bindings.lookup v = some (.const index)) : v ≠ counter := by
  rintro rfl
  refine (layout.announced.const v index bound).1 (layout.held_counter_iff.mpr fun unused => ?_)
  rcases (layout.announced.bound v).mp (by simp [bound]) with ⟨access, member, isTarget⟩ | ⟨-, looked⟩
  · exact not_accessed_of_unused (layout.use_eq ▸ unused) member isTarget
  · exact looked unused

/-- The moves that keep the target leave all else alone. -/
theorem acts_of_keepsTarget {moves : List Move} (use : CounterUse)
    (part : ∀ m ∈ moves, m ∈ (loopMoves counter use []).moves) {key : SlotKey} (notTarget : key ≠ .host counter)
    (notCounter : key ≠ .counter) : acts inputs moves slots key = slots key := by
  refine Move.acts_of_not_dest (fun m member same => ?_) slots
  rcases mem_loopMoves (part m member) with nothing | keeps
  · cases nothing
  · rcases keeps.keys m.dest (.head _) with isTarget | isCounter
    · exact notTarget (same.trans isTarget)
    · exact notCounter (same.trans isCounter)

section Others

variable {use : CounterUse} {key : SlotKey} (notTarget : key ≠ .host counter) (notCounter : key ≠ .counter)

include notTarget notCounter

theorem acts_opening_of_ne : acts inputs (opening counter use) slots key = slots key :=
  acts_of_keepsTarget use (fun m member => by simp [MoveLoop.moves, loopMoves, member]) notTarget notCounter

theorem acts_renewing_of_ne : acts inputs (renewing counter use) slots key = slots key :=
  acts_of_keepsTarget use (fun m member => by simp [MoveLoop.moves, loopMoves, member]) notTarget notCounter

theorem acts_advancing_of_ne : acts inputs (advancing counter use) slots key = slots key :=
  acts_of_keepsTarget use (fun m member => by simp [MoveLoop.moves, loopMoves, member]) notTarget notCounter

theorem acts_closing_of_ne : acts inputs (closing counter use) slots key = slots key :=
  acts_of_keepsTarget use (fun m member => by simp [MoveLoop.moves, loopMoves, member]) notTarget notCounter

end Others

/-- What is added to the target for the round to come is taken away after the last one. -/
theorem closing_advancing (use : CounterUse) (v : Variable) :
    acts inputs (closing counter use) (acts inputs (advancing counter use) slots) (.host v) =
      slots (.host v) := by
  cases use with
  | unused => rfl
  | readOnly =>
    by_cases isTarget : v = counter
    · subst isTarget
      simp [closing, advancing, CompiledLoop.serviceSlot, Move.act, Verb.result, Place.eval]
    · simp [closing, advancing, CompiledLoop.serviceSlot, Move.act, isTarget]
  | mutated => simp [closing, advancing, CompiledLoop.serviceSlot, Move.act]

/-- Neither the renewal of the target nor the rest of the body touches the slot of the progression. -/
theorem Layout.service_eq (layout : Layout options counter body loop) {key : SlotKey}
    (service : CompiledLoop.serviceSlot counter layout.use = some key) :
    acts inputs layout.moves (acts inputs (renewing counter layout.use) slots) key = slots key := by
  rw [← Move.acts_append]
  refine Move.acts_of_not_dest (fun m member => ?_) slots
  cases use : layout.use with
  | unused => simp [CompiledLoop.serviceSlot, use] at service
  | readOnly =>
    obtain rfl : SlotKey.host counter = key := by simpa [CompiledLoop.serviceSlot, use] using service
    simp only [use, renewing, List.nil_append] at member
    rcases layout.lowers.dest member with ⟨depth, dest⟩ | ⟨v, stored, dest⟩
    · simp [dest]
    · rw [dest]
      rintro ⟨⟩
      have kept : CompiledLoop.counterUseOf options counter body ≠ .mutated := by
        rw [← layout.use_eq, use]
        simp
      exact not_stored_of_counterUse kept stored
  | mutated =>
    obtain rfl : SlotKey.counter = key := by simpa [CompiledLoop.serviceSlot, use] using service
    rw [use] at member
    rcases List.mem_append.mp member with renews | inBody
    · rw [List.mem_singleton.mp renews]
      simp
    · rcases layout.lowers.dest inBody with ⟨depth, dest⟩ | ⟨v, -, dest⟩
      · simp [dest]
      · simp [dest]

/-- The slot of the progression, if there is one, holds the element of a round. -/
def Layout.Carries (layout : Layout options counter body loop) (inputs : Inputs) (round : Nat)
    (slots : SlotKey → Int) : Prop :=
  ∀ key, CompiledLoop.serviceSlot counter layout.use = some key → slots key = inputs.element round

theorem Layout.carries_opening (layout : Layout options counter body loop) :
    layout.Carries inputs 0 (acts inputs (opening counter layout.use) slots) := by
  intro key isService
  simp [opening, isService, Move.act, Verb.result, Place.eval, LoopShape.param, Inputs.element]

namespace Layout.Carries

variable {layout : Layout options counter body loop} {round : Nat}

/-- The target's slot holds the element once the target has been renewed. -/
theorem renewed (carries : layout.Carries inputs round slots) (looked : layout.use ≠ .unused) :
    acts inputs (renewing counter layout.use) slots (.host counter) = inputs.element round := by
  cases use : layout.use with
  | unused => contradiction
  | readOnly =>
    simp only [renewing, Move.acts_nil]
    exact carries _ (by simp [CompiledLoop.serviceSlot, use])
  | mutated =>
    have service := carries .counter (by simp [CompiledLoop.serviceSlot, use])
    simp [renewing, Move.act, Verb.result, Place.eval, service]

theorem advance (carries : layout.Carries inputs round slots) :
    layout.Carries inputs (round + 1) (acts inputs (advancing counter layout.use) slots) := by
  intro key isService
  simp only [advancing, isService, Move.acts_cons, Move.acts_nil, Move.act, Function.update_self,
    Verb.result, Place.eval, carries key isService, Inputs.element, LoopShape.param]
  push_cast
  ring

/-- The rest of the body leaves the progression alone. -/
theorem through (carries : layout.Carries inputs round slots) :
    layout.Carries inputs round
      (acts inputs layout.moves (acts inputs (renewing counter layout.use) slots)) := by
  intro key isService
  rw [layout.service_eq isService]
  exact carries key isService

end Layout.Carries

/-- The values of the slots after a number of rounds, from those that were loaded. -/
def Layout.slotsAfter (layout : Layout options counter body loop) (inputs : Inputs) (rounds : Nat)
    (values : SlotKey → Int) : SlotKey → Int :=
  (acts inputs (loopMoves counter layout.use layout.moves).block)^[rounds]
    (acts inputs (opening counter layout.use) values)

/-- A whole run is its rounds and the step back. -/
theorem Layout.acts_loopMoves (layout : Layout options counter body loop) (inputs : Inputs)
    (values : SlotKey → Int) :
    (loopMoves counter layout.use layout.moves).acts inputs values =
      acts inputs (closing counter layout.use)
        (layout.slotsAfter inputs inputs.shape.itersCount.toNat values) := rfl

theorem Layout.slotsAfter_succ (layout : Layout options counter body loop) (rounds : Nat)
    (values : SlotKey → Int) :
    layout.slotsAfter inputs (rounds + 1) values =
      acts inputs (advancing counter layout.use)
        (acts inputs layout.moves
          (acts inputs (renewing counter layout.use) (layout.slotsAfter inputs rounds values))) := by
  rw [Layout.slotsAfter, Function.iterate_succ_apply', ← Layout.slotsAfter]
  simp only [loopMoves, Move.acts_append]

/-- The slot of the progression holds the element of the round that comes next. -/
theorem Layout.carries_slotsAfter (layout : Layout options counter body loop) (rounds : Nat)
    (values : SlotKey → Int) : layout.Carries inputs rounds (layout.slotsAfter inputs rounds values) := by
  induction rounds with
  | zero => exact layout.carries_opening
  | succ rounds ih =>
    rw [layout.slotsAfter_succ]
    exact ih.through.advance

/-- A target that has a slot, and that the body does not store to, is left at the last element. -/
theorem Layout.closed_target (layout : Layout options counter body loop) (rounds : Nat)
    (values : SlotKey → Int) (looked : layout.use ≠ .unused)
    (notStored : .store counter ∉ body.filterMap Instruction.access?) :
    acts inputs (closing counter layout.use) (layout.slotsAfter inputs (rounds + 1) values) (.host counter) =
      inputs.element rounds := by
  have untouched : ∀ slots, acts inputs layout.moves slots (.host counter) = slots (.host counter) := by
    intro slots
    refine Move.acts_of_not_dest (fun m member => ?_) slots
    rcases layout.lowers.dest member with ⟨depth, dest⟩ | ⟨v, stored, dest⟩
    · simp [dest]
    · rw [dest]
      rintro ⟨⟩
      exact notStored stored
  rw [layout.slotsAfter_succ, closing_advancing, untouched]
  exact (layout.carries_slotsAfter rounds values).renewed looked

end Target

/-! ### The context of a run -/

/-- The variables that a loop with this target accesses. -/
def LoopVariable (body : List Instruction) (counter v : Variable) : Prop :=
  v = counter ∨ ∃ access ∈ body.filterMap Instruction.access?, access.var = v

theorem Held.loopVariable {body : List Instruction} {counter v : Variable} {use : CounterUse}
    (held : Held body counter use v) : LoopVariable body counter v := by
  rcases held with stored | ⟨isTarget, -⟩
  · exact .inr ⟨_, stored, rfl⟩
  · exact .inl isTarget

theorem Accessed.loopVariable {body : List Instruction} {counter v : Variable} {use : CounterUse}
    (accessed : Accessed body counter use v) : LoopVariable body counter v := by
  rcases accessed with found | ⟨isTarget, -⟩
  · exact .inr found
  · exact .inl isTarget

section Rounds

variable {options : CompileOptions} {counter : Variable} {body : List Instruction} {loop : CompiledLoop}

/-- What stays fixed during a run of the loop from a frame. -/
def Layout.context (layout : Layout options counter body loop) (frame : Frame) {types : KindSet}
    {values : List Value} {ints : List Int} (shape : LoopShape)
    (computed : ConstProgram.evaluateAll loop.consts frame types = .ok values)
    (converted : values.mapM (fun value => value.toInt.mapError RunError.arithmetic) = .ok ints)
    (apart : ∀ u v, LoopVariable body counter u → LoopVariable body counter v → u.name = v.name → u = v) :
    Context where
  frame := frame
  consts := loop.consts
  values := values
  inputs := ⟨ints, shape⟩
  known := LoopVariable body counter
  held := Held body counter layout.use
  evaluates index program found := ConstProgram.evaluates_of_evaluateAll computed found
  reads index value found := by
    obtain ⟨n, atIndex, isInt⟩ := getElem?_of_mapM_eq_ok converted found
    rw [Value.toInt_eq_ok_iff.mp (mapError_eq_ok_iff.mp isInt), List.getD_eq_getElem?_getD, atIndex]
    rfl
  apart := apart
  held_known v held := held.loopVariable

/-- The context is one of a run of the loop. -/
structure Context.Of (c : Context) (layout : Layout options counter body loop) : Prop where
  consts : c.consts = layout.finish.consts
  known : c.known = LoopVariable body counter
  held : c.held = Held body counter layout.use

def Context.element (c : Context) (round : Nat) : Int := c.inputs.element round

/-- Slots and frame go together after a number of rounds. -/
structure Between (c : Context) (layout : Layout options counter body loop) (rounds : Nat)
    (slots : SlotKey → Int) (frame : Frame) : Prop where
  held : ∀ v, c.held v → v ≠ counter → ∀ value, frame.load? v = some value →
    value.reading = .inl (slots (.host v))
  const : ∀ v index, layout.start.bindings.lookup v = some (.const index) →
    ∀ value, frame.load? v = some value →
      ∃ constant, c.values[index]? = some constant ∧ constant.reading = value.reading
  service : ∀ key, CompiledLoop.serviceSlot counter layout.use = some key → slots key = c.element rounds

variable {c : Context} {layout : Layout options counter body loop} {rounds : Nat} {slots : SlotKey → Int}
  {frame : Frame}

/-- A slot that was loaded reads as its variable. -/
theorem reading_initialValues {types : KindSet} {v : Variable} {value : Value} {n : Int}
    (loaded : CompiledLoop.slotValue frame types (.host v) = .ok n) (defined : frame.load? v = some value) :
    value.reading = .inl (initialValues frame types (.host v)) := by
  rw [initialValues, loaded]
  simp only [CompiledLoop.slotValue, defined] at loaded
  split at loaded
  · exact Value.toInt_eq_ok_iff.mp (mapError_eq_ok_iff.mp loaded)
  · cases loaded

/-- A variable that lives in a slot is loaded into it. -/
theorem Layout.slotValue_of_held (layout : Layout options counter body loop) {types : KindSet} {state : List Int}
    (loaded : loop.loadState frame types = .ok state) {v : Variable} (held : Held body counter layout.use v) :
    ∃ n, CompiledLoop.slotValue frame types (.host v) = .ok n := by
  have slots : loop.slots = layout.slots.map fun key => ⟨key, key.isHost⟩ := layout.laid.slots
  obtain ⟨index, found⟩ := List.mem_iff_getElem?.mp (layout.host_mem_slots_iff.mpr held)
  have slot : loop.slots[index]? = some ⟨.host v, true⟩ := by
    rw [slots, List.getElem?_map, found]
    rfl
  obtain ⟨n, -, isInt⟩ := getElem?_of_mapM_eq_ok loaded slot
  exact ⟨n, isInt⟩

/-- A variable that is announced as a constant is read by it. -/
theorem Layout.consts_of_bound (layout : Layout options counter body loop) {v : Variable} {index : Nat}
    (bound : layout.start.bindings.lookup v = some (.const index)) :
    layout.finish.consts[index]? = some [.load v] := by
  have reads := (layout.announced.const v index bound).2
  obtain ⟨others, total⟩ := layout.lowers.consts_prefix
  rw [← total]
  exact (List.getElem?_append_left (List.getElem?_eq_some_iff.mp reads).1).trans reads

/-- Before the first round the slots are those that were loaded, and the constants were computed from the
frame. -/
theorem between_start (of : c.Of layout) {types : KindSet} {state : List Int}
    (loaded : loop.loadState c.frame types = .ok state) :
    Between c layout 0 (acts c.inputs (opening counter layout.use) (initialValues c.frame types))
      c.frame where
  held v held other value defined := by
    rw [acts_opening_of_ne (host_ne other) (by simp)]
    obtain ⟨n, isInt⟩ := layout.slotValue_of_held loaded (of.held ▸ held)
    exact reading_initialValues isInt defined
  const v index bound value defined := by
    obtain ⟨constant, atIndex, evaluates⟩ := c.evaluates index _ (of.consts ▸ layout.consts_of_bound bound)
    exact ⟨constant, atIndex,
      congrArg Value.reading (evaluates.unique (ConstProgram.evaluates_load defined))⟩
  service := layout.carries_opening

/-- After the store to the target, slots and machine stand at the beginning of the rest of the body. -/
theorem Between.enter (between : Between c layout rounds slots frame) (of : c.Of layout) :
    Simulates c layout.start.sketch (acts c.inputs (renewing counter layout.use) slots)
      ⟨[], frame.store counter (.int (c.element rounds))⟩ := by
  have target : c.known counter := by
    rw [of.known]
    exact .inl rfl
  -- no two variables of the loop share a name, so the store to the target is a store to it alone
  have others : ∀ v, c.known v → v ≠ counter →
      (frame.store counter (.int (c.element rounds))).load? v = frame.load? v := fun v known other =>
    Frame.load?_store_of_name_ne frame (fun names => other (c.apart v counter known target names)) _
  have known : ∀ v, (layout.start.bindings.lookup v).isSome → c.known v := by
    intro v bound
    rw [of.known]
    exact ((layout.announced.bound v).mp bound).loopVariable
  refine ⟨?_, ?_, ?_, ?_, known⟩
  · rw [show layout.start.sketch.stack = [] from layout.announced.stack]
    exact stackHolds_nil
  · intro v held value defined
    by_cases isTarget : v = counter
    · subst isTarget
      rw [Frame.load?_store_self] at defined
      cases defined
      rw [Layout.Carries.renewed between.service (layout.held_counter_iff.mp (of.held ▸ held)),
        Value.reading_int]
      rfl
    · rw [others v (c.held_known v held) isTarget] at defined
      rw [acts_renewing_of_ne (host_ne isTarget) (by simp)]
      exact between.held v held isTarget value defined
  · intro v index bound value defined
    rw [others v (known v (by rw [show layout.start.bindings.lookup v = _ from bound]; rfl))
      (layout.counter_ne_of_const bound)] at defined
    exact between.const v index bound value defined
  · intro v bound
    rw [of.held]
    exact layout.announced.slot v bound

/-- The rest of the body is through: the progression goes on to the next element. -/
theorem Simulates.leave {stack : List Value}
    (sim : Simulates c layout.finish slots ⟨stack, frame⟩)
    (carries : layout.Carries c.inputs rounds slots) :
    Between c layout (rounds + 1) (acts c.inputs (advancing counter layout.use) slots) frame where
  held v held other value defined := by
    rw [acts_advancing_of_ne (host_ne other) (by simp)]
    exact sim.held v held value defined
  const v index bound value defined := by
    refine sim.const v index ?_ value defined
    rw [layout.lowers.lookup_eq fun stored => (layout.announced.const v index bound).1 (.inl stored)]
    exact bound
  service := carries.advance

/-- The number that goes back to the frame for a variable if the given round is the last one. -/
def Layout.result (layout : Layout options counter body loop) (c : Context) (last : Nat)
    (slots : SlotKey → Int) (v : Variable) : Int :=
  if layout.use = .unused ∧ v = counter then c.element last
  else acts c.inputs (closing counter layout.use) slots (.host v)

/-- The variables of the loop have in the frame what would go back to it. -/
def Settled (c : Context) (layout : Layout options counter body loop) (last : Nat) (slots : SlotKey → Int)
    (frame : Frame) : Prop :=
  ∀ v, Held body counter layout.use v ∨ v = counter → ∀ value, frame.load? v = some value →
    value.reading = .inl (layout.result c last slots v)

/-- A target that nothing looks at keeps its element. -/
theorem load?_unused (of : c.Of layout) (unused : layout.use = .unused) {element : Value}
    {stack : List Value} {frame' : Frame}
    (ran : Machine.run body ⟨[], frame.store counter element⟩ = .ok ⟨stack, frame'⟩) :
    frame'.load? counter = some element := by
  have others : ∀ v, .store v ∈ body.filterMap Instruction.access? → counter.name ≠ v.name := by
    intro v stored names
    have known : ∀ u, LoopVariable body counter u → c.known u := fun u isVariable => of.known ▸ isVariable
    have same : counter = v :=
      c.apart counter v (known _ (.inl rfl)) (known _ (.inr ⟨_, stored, rfl⟩)) names
    exact not_accessed_of_unused (layout.use_eq ▸ unused) stored same.symm
  rw [Literal.machineRun_load?_eq ran others]
  exact Frame.load?_store_self frame counter element

/-- A round of both runs. -/
theorem Between.round (between : Between c layout rounds slots frame) (of : c.Of layout)
    {stack : List Value} {frame' : Frame}
    (ran : Machine.run body ⟨[], frame.store counter (.int (c.element rounds))⟩ = .ok ⟨stack, frame'⟩) :
    Between c layout (rounds + 1) (acts c.inputs (loopMoves counter layout.use layout.moves).block slots)
        frame' ∧
      Settled c layout rounds (acts c.inputs (loopMoves counter layout.use layout.moves).block slots)
        frame' := by
  have sim := (between.enter of).run layout.lowers ran (of.consts ▸ List.prefix_refl _) fun v stored =>
    of.held ▸ .inl stored
  simp only [loopMoves, Move.acts_append]
  refine ⟨sim.leave (Layout.Carries.through between.service), fun v settles value defined => ?_⟩
  unfold Layout.result
  split
  · rename_i unread
    obtain ⟨unused, rfl⟩ := unread
    rw [load?_unused of unused ran] at defined
    cases defined
    rfl
  · rename_i read
    have held : Held body counter layout.use v := by
      rcases settles with held | rfl
      · exact held
      · exact layout.held_counter_iff.mpr fun unused => read ⟨unused, rfl⟩
    rw [closing_advancing]
    exact sim.held v (of.held ▸ held) value defined

/-- Rounds of both runs, one after the other. -/
theorem Between.settled {full : List Instruction} {p : Progression} {count : Nat} {frame' : Frame}
    (between : Between c layout rounds slots frame) (of : c.Of layout)
    (elements : ∀ index, p.element index = c.element index)
    (enters : ∀ element frame, Machine.run full ⟨[element], frame⟩ =
      Machine.run body ⟨[], frame.store counter element⟩)
    (ran : Literal.runRange full p (count + 1) rounds frame = .ok frame') :
    Settled c layout (rounds + count)
      ((acts c.inputs (loopMoves counter layout.use layout.moves).block)^[count + 1] slots) frame' := by
  -- the rounds that are left go down while the rounds that are done go up
  induction count generalizing rounds slots frame with
  | zero =>
    obtain ⟨mid, first, nothing⟩ := bind_eq_ok_iff.mp ran
    cases nothing
    obtain ⟨stack, ranBody⟩ := Literal.round_eq_ok_iff.mp first
    rw [enters, elements] at ranBody
    exact (between.round of ranBody).2
  | succ count ih =>
    obtain ⟨mid, first, others⟩ := bind_eq_ok_iff.mp ran
    obtain ⟨stack, ranBody⟩ := Literal.round_eq_ok_iff.mp first
    rw [enters, elements] at ranBody
    have settled := ih (between.round of ranBody).1 others
    rw [Function.iterate_succ_apply, ← Nat.succ_add_eq_add_succ]
    exact settled

end Rounds

end AffineLoops
