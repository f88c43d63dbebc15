import AffineLoops.Proofs.FlagIndependence
import AffineLoops.Proofs.SlotFates

/-!
What is left in stack slots when freed slots are cleared. The slot of a live entry is set to zero when the entry
is taken off the stack, but not when a rotation puts a foldable entry in its place: the value then stays where
it was until the slot is used again. `leftover` says for which heights this happens, from the tags of the
entries alone.

* `residue_iterate`: later rounds leave over what the first one does.
* `Cleared.step`, `LowersAll.cleared`: what an action and a whole body leave, in a loop that clears freed slots
  beside one that does not.
* `Layout.acts_stack`: what a whole run leaves.
-/

namespace AffineLoops

open Move (acts)

/-! ### What is left over -/

/-- Whether something is left over in the slot for a height after an action: no entry has its value there, and
what was there has not been cleared. -/
def Action.leaves (action : Action) (before after : List Tag) (height : Nat) (left : Bool) : Bool :=
  !varies after height && !action.frees before height && (left || varies before height)

/-- Whether something is left over in the slot for a height after the instructions in order. -/
def residue (types : KindSet) (height : Nat) : List Instruction → Tagging → Bool → Bool
  | [], _, left => left
  | instr :: rest, t, left =>
    match instr.action? with
    | some action =>
      match t.perform types instr.opcode action with
      | .ok t' => residue types height rest t' (action.leaves t.stack t'.stack height left)
      | .error _ => left
    | none => left

/-- Whether a round of a body leaves something over in the slot for a height. -/
def leftover (types : KindSet) (body : List Instruction) (height : Nat) : Bool :=
  match body.dropWhile Instruction.isMarker with
  | [] => false
  | target :: rest =>
    match target.action? with
    | some (.store counter) => residue types height rest (.start counter rest) false
    | _ => false

section Residue

variable {types : KindSet} {height : Nat}

theorem residue_cons {instr : Instruction} {rest : List Instruction} {action : Action} {t t' : Tagging}
    {left : Bool} (asked : instr.action? = some action)
    (performed : t.perform types instr.opcode action = .ok t') :
    residue types height (instr :: rest) t left =
      residue types height rest t' (action.leaves t.stack t'.stack height left) := by
  rw [residue, asked]
  simp only [performed]

/-- More is left over where more was left over before. -/
theorem residue_mono {body : List Instruction} {t : Tagging} {left left' : Bool}
    (more : left = true → left' = true) (remains : residue types height body t left = true) :
    residue types height body t left' = true := by
  induction body generalizing t left left' with
  | nil => exact more remains
  | cons instr rest ih =>
    rw [residue] at remains ⊢
    split at remains
    · split at remains
      · refine ih ?_ remains
        intro stays
        simp only [Action.leaves, Bool.and_eq_true, Bool.or_eq_true] at stays ⊢
        exact stays.imp_right (.imp_left more)
      · exact more remains
    · exact more remains

/-- Later rounds leave over what the first one does. -/
theorem residue_iterate (body : List Instruction) (t : Tagging) (rounds : Nat) :
    (residue types height body t)^[rounds + 1] false = residue types height body t false := by
  induction rounds with
  | zero => rfl
  | succ rounds ih =>
    rw [Function.iterate_succ_apply', ih]
    cases remains : residue types height body t false with
    | false => exact remains
    | true => exact residue_mono (by simp) remains

/-- Only rotations leave something over. -/
theorem residue_of_no_rotation {body : List Instruction} {t : Tagging}
    (still : ∀ instr ∈ body, ∀ count, instr.action? ≠ some (.rotate count)) :
    residue types height body t false = false := by
  induction body generalizing t with
  | nil => rfl
  | cons instr rest ih =>
    have stillRest : ∀ instr ∈ rest, ∀ count, instr.action? ≠ some (.rotate count) :=
      fun instr member => still instr (.tail _ member)
    rw [residue]
    split
    · rename_i action asked
      split
      · rename_i t' performed
        have clean : action.leaves t.stack t'.stack height false = false := by
          have frees : action.frees t.stack height = varies t.stack height := by
            cases action with
            | rotate count => exact absurd asked (still instr (.head _) count)
            | _ => rfl
          simp [Action.leaves, frees]
        rw [clean]
        exact ih stillRest
      · rfl
    · rfl

end Residue

/-! ### Beside a loop that clears nothing -/

/-- Stack slots beside those of a loop that may clear less: where something is left over both have the same, and
where nothing is and no entry has its value there is zero. -/
structure Cleared (stack : List Tag) (left : Nat → Bool) (x y : SlotKey → Int) : Prop where
  same : ∀ height, left height = true → x (.stack height) = y (.stack height)
  zero : ∀ height, left height = false → varies stack height = false → x (.stack height) = 0

section Bodies

variable {options options' : CompileOptions} {left : Nat → Bool} {x y : SlotKey → Int}

theorem SameLive.of_varies {entries : List Entry} {height : Nat} (same : SameLive entries x y)
    (live : varies (entries.map Entry.tag) height = true) : x (.stack height) = y (.stack height) := by
  obtain ⟨inside, found⟩ := varies_tags_iff.mp live
  have := same _ found
  rwa [show entries.length - 1 - (entries.length - 1 - height) = height by omega] at this

theorem Cleared.of_eq {stack : List Tag} {x' y' : SlotKey → Int} (cleared : Cleared stack left x y)
    (first : ∀ height, x' (.stack height) = x (.stack height))
    (second : ∀ height, y' (.stack height) = y (.stack height)) : Cleared stack left x' y' := by
  constructor
  · intro height remains
    rw [first, second]
    exact cleared.same height remains
  · intro height nothing dead
    rw [first]
    exact cleared.zero height nothing dead

/-- One action in both loops. -/
theorem Cleared.step {action : Action} {s s' t t' : Sketch} {moves moves' : List Move}
    (cleared : Cleared (s.stack.map Entry.tag) left x y) (live : SameLive s.stack x y)
    (first : Lowers options action s moves s') (second : Lowers options' action t moves' t')
    (clears : options.clearFreedStackSlots = true) (stack : s.stack = t.stack) (stack' : s'.stack = t'.stack)
    (inputs : Inputs) :
    Cleared (s'.stack.map Entry.tag)
      (fun height => action.leaves (s.stack.map Entry.tag) (s'.stack.map Entry.tag) height (left height))
      (acts inputs moves x) (acts inputs moves' y) := by
  constructor
  · intro height remains
    simp only [Action.leaves, Bool.and_eq_true, Bool.not_eq_true', Bool.or_eq_true] at remains
    obtain ⟨⟨dead, notFreed⟩, before⟩ := remains
    have fate := second.fate height
    rw [← stack, ← stack'] at fate
    rw [(first.fate height).acts_eq dead notFreed, fate.acts_eq dead notFreed]
    rcases before with remains | alive
    · exact cleared.same height remains
    · exact live.of_varies alive
  · intro height nothing dead
    cases first.fate height with
    | holds alive => simp [dead] at alive
    | freed _ _ zero => exact zero clears inputs x
    | kept _ notFreed untouched =>
      simp only [Action.leaves, dead, notFreed, Bool.not_false, Bool.true_and, Bool.or_eq_false_iff] at nothing
      rw [Move.acts_of_not_dest untouched]
      exact cleared.zero height nothing.1 nothing.2

/-- A whole body in both loops. -/
theorem LowersAll.cleared {seen : Variable → Prop} {body : List Instruction} {s s' r r' : Sketch}
    {moves moves' : List Move} {t : Tagging} (first : LowersAll options body s moves s')
    (second : LowersAll options' body r moves' r') (clears : options.clearFreedStackSlots = true)
    (alike : s.Alike seen r) (loads : ∀ v, .load v ∈ body.filterMap Instruction.access? → seen v)
    (tags : s.Tagged t) (same : SameSlots seen s.stack x y) (cleared : Cleared t.stack left x y)
    (inputs : Inputs) :
    Cleared (s'.stack.map Entry.tag) (fun height => residue options.types height body t (left height))
      (acts inputs moves x) (acts inputs moves' y) := by
  induction first generalizing r moves' t left x y with
  | nil =>
    cases second
    rw [← tags.stack]
    exact cleared
  | @cons instr rest action s mid s' _ _ asked lowers _ ih =>
    cases second with
    | cons asked' lowers' others' =>
      obtain rfl := Option.some.inj (asked.symm.trans asked')
      have loadsFirst : ∀ v, action = .load v → seen v := by
        rintro v rfl
        exact loads v (mem_accesses_cons.mpr (.inl (Instruction.access?_eq_some_iff.mpr asked)))
      obtain ⟨t', performed, tags'⟩ := lowers.tagged tags instr.opcode
      have alike' := lowers.alike lowers' alike loadsFirst
      rw [tags.stack] at cleared
      have cleared' := cleared.step same.live lowers lowers' clears alike.stack alike'.stack inputs
      rw [← tags.stack, ← tags'.stack] at cleared'
      simp only [residue_cons asked performed, Move.acts_append]
      exact ih others' alike' (fun v loaded => loads v (mem_accesses_cons.mpr (.inr loaded))) tags'
        (lowers.sameSlots lowers' alike loadsFirst same) cleared'

/-- Where a body leaves something over, something was before or some move goes. -/
theorem LowersAll.exists_dest {body : List Instruction} {s s' : Sketch} {moves : List Move} {t : Tagging}
    {height : Nat} {left : Bool} (lowers : LowersAll options body s moves s') (tags : s.Tagged t)
    (remains : residue options.types height body t left = true) :
    left = true ∨ varies t.stack height = true ∨ ∃ m ∈ moves, m.dest = .stack height := by
  induction lowers generalizing t left with
  | nil => exact .inl remains
  | cons asked first _ ih =>
    obtain ⟨t', performed, tags'⟩ := first.tagged tags _
    rw [residue_cons asked performed] at remains
    rcases ih tags' remains with stays | alive | ⟨m, member, dest⟩
    · simp only [Action.leaves, Bool.and_eq_true, Bool.or_eq_true] at stays
      exact stays.2.imp_right .inl
    · rw [tags'.stack] at alive
      rw [tags.stack]
      cases first.fate height with
      | holds _ source =>
        refine .inr (source.imp_right ?_)
        rintro ⟨m, member, dest⟩
        exact ⟨m, List.mem_append_left _ member, dest⟩
      | freed dead | kept dead => simp [dead] at alive
    · exact .inr (.inr ⟨m, List.mem_append_right _ member, dest⟩)

end Bodies

/-! ### Whole runs -/

section Layouts

variable {options options' : CompileOptions} {counter : Variable} {body : List Instruction}
  {loop loop' : CompiledLoop} (first : Layout options counter body loop)
  (second : Layout options' counter body loop') (clears : options.clearFreedStackSlots = true)
  {inputs : Inputs}

theorem Layout.start_tagged : first.start.sketch.Tagged (.start counter body) :=
  first.announced.tagged fun unused loaded => not_accessed_of_unused (first.use_eq ▸ unused) loaded rfl

include clears

/-- One round in both loops. -/
theorem Layout.cleared_round {round : Nat} {left : Nat → Bool} {x y : SlotKey → Int}
    (hosts : ∀ v, v ≠ counter → x (.host v) = y (.host v)) (carries : first.Carries inputs round x)
    (carries' : second.Carries inputs round y) (cleared : Cleared [] left x y) :
    Cleared [] (fun height => residue options.types height body (.start counter body) (left height))
      (acts inputs (advancing counter first.use)
        (acts inputs first.moves (acts inputs (renewing counter first.use) x)))
      (acts inputs (advancing counter second.use)
        (acts inputs second.moves (acts inputs (renewing counter second.use) y))) := by
  have renewed : Cleared (Tagging.start counter body).stack left
      (acts inputs (renewing counter first.use) x) (acts inputs (renewing counter second.use) y) :=
    cleared.of_eq (fun height => acts_renewing_of_ne (by simp) (by simp))
      (fun height => acts_renewing_of_ne (by simp) (by simp))
  have lowered := first.lowers.cleared second.lowers clears (first.start_alike second)
    (fun v loaded => first.shared_of_accessed second loaded) first.start_tagged
    (first.sameSlots_renewed second hosts carries carries') renewed inputs
  rw [first.stack] at lowered
  exact lowered.of_eq (fun height => acts_advancing_of_ne (by simp) (by simp))
    (fun height => acts_advancing_of_ne (by simp) (by simp))

/-- Any number of rounds in both loops, from stack slots that are zero. -/
theorem Layout.cleared_slotsAfter (rounds : Nat) {values : SlotKey → Int}
    (zero : ∀ height, values (.stack height) = 0) :
    Cleared [] (fun height => (residue options.types height body (.start counter body))^[rounds] false)
      (first.slotsAfter inputs rounds values) (second.slotsAfter inputs rounds values) := by
  induction rounds with
  | zero =>
    constructor
    · intro height remains
      cases remains
    · intro height _ _
      rw [Layout.slotsAfter, Function.iterate_zero_apply, acts_opening_of_ne (by simp) (by simp)]
      exact zero height
  | succ rounds ih =>
    simp only [first.slotsAfter_succ, second.slotsAfter_succ, Function.iterate_succ_apply']
    exact first.cleared_round second clears (fun v other => first.slotsAfter_host second rounds values other)
      (first.carries_slotsAfter rounds values) (second.carries_slotsAfter rounds values) ih

/-- A run of one round or more leaves zero in a stack slot, or what a loop that clears nothing leaves there. -/
theorem Layout.acts_stack (rounds : 0 < inputs.shape.itersCount) {values : SlotKey → Int}
    (zero : ∀ height, values (.stack height) = 0) (height : Nat) :
    (loopMoves counter first.use first.moves).acts inputs values (.stack height) =
      if residue options.types height body (.start counter body) false then
        (loopMoves counter second.use second.moves).acts inputs values (.stack height)
      else 0 := by
  obtain ⟨before, count⟩ := Inputs.exists_last_round rounds
  have cleared : Cleared [] _ (first.slotsAfter inputs (before + 1) values) _ :=
    first.cleared_slotsAfter second clears (before + 1) zero
  simp only [residue_iterate] at cleared
  rw [first.acts_loopMoves, second.acts_loopMoves, count, acts_closing_of_ne (by simp) (by simp),
    acts_closing_of_ne (by simp) (by simp)]
  split
  · rename_i remains
    exact cleared.same height remains
  · rename_i nothing
    exact cleared.zero height (by simpa using nothing) rfl

end Layouts

/-- A state vector of a loop with nothing in its stack slots. -/
structure CompiledLoop.Rested (loop : CompiledLoop) (state : List Int) : Prop where
  size : state.length = loop.slots.length
  stack : ∀ depth n, loop.valueAt state (.stack depth) = some n → n = 0

theorem CompiledLoop.valueAt_zeros {loop : CompiledLoop} {size : Nat} {key : SlotKey} {n : Int}
    (found : loop.valueAt (List.replicate size 0) key = some n) : n = 0 := by
  obtain ⟨index, -, found⟩ := Option.bind_eq_some_iff.mp found
  exact List.eq_of_mem_replicate (List.mem_of_getElem? found)

theorem CompiledLoop.rested_zeros (loop : CompiledLoop) : loop.Rested (List.replicate loop.slots.length 0) :=
  ⟨List.length_replicate, fun _ _ found => valueAt_zeros found⟩

/-- State vectors of two loops that agree where both have a slot are one set of values. -/
theorem exists_values_of_agree {loop loop' : CompiledLoop} {moves moves' : MoveLoop} {keys keys' : List SlotKey}
    (laid : Laid loop moves keys) (laid' : Laid loop' moves' keys') {state state' : List Int}
    (rested : loop.Rested state) (rested' : loop'.Rested state')
    (agree : ∀ key n n', loop.valueAt state key = some n → loop'.valueAt state' key = some n' → n = n') :
    ∃ values, state = keys.map values ∧ state' = keys'.map values ∧ ∀ height, values (.stack height) = 0 := by
  obtain ⟨x, rfl⟩ := laid.exists_values rested.size
  obtain ⟨y, rfl⟩ := laid'.exists_values rested'.size
  refine ⟨fun key => if key ∈ keys then x key else if key ∈ keys' then y key else 0, ?_, ?_, ?_⟩
  · apply List.map_congr_left
    intro key known
    exact (if_pos known).symm
  · apply List.map_congr_left
    intro key known'
    split
    · rename_i known
      exact (agree key _ _ (laid.valueAt_map x known) (laid'.valueAt_map y known')).symm
    · rfl
  · intro height
    dsimp only
    split
    · rename_i known
      exact rested.stack height _ (laid.valueAt_map x known)
    · split
      · rename_i known'
        exact rested'.stack height _ (laid'.valueAt_map y known')
      · rfl

section Runs

variable {options options' : CompileOptions} {counter : Variable} {body : List Instruction}
  {loop loop' : CompiledLoop}

/-- Where something is left over there is a slot. -/
theorem Layout.stack_mem_slots (layout : Layout options counter body loop) {height : Nat}
    (remains : residue options.types height body (.start counter body) false = true) :
    .stack height ∈ layout.slots := by
  rcases layout.lowers.exists_dest layout.start_tagged remains with before | alive | ⟨m, member, dest⟩
  · cases before
  · cases alive
  · rw [← dest]
    exact layout.numbers.known m (by simp [MoveLoop.moves, loopMoves, member]) _ (.head _)

/-- The runs of two loops from one body, of which the first clears freed slots. -/
theorem Layout.exists_runs (first : Layout options counter body loop)
    (second : Layout options' counter body loop') (clears : options.clearFreedStackSlots = true)
    (types : options'.types = options.types) {ints : List Int} (constants : ints.length = loop.consts.length)
    {shape : LoopShape} (rounds : 0 < shape.itersCount) {state state' : List Int} (rested : loop.Rested state)
    (rested' : loop'.Rested state')
    (agree : ∀ key n n', loop.valueAt state key = some n → loop'.valueAt state' key = some n' → n = n')
    (engine : Engine) :
    ∃ code code' result result', CompiledLoop.resolve loop.code ints shape = .ok code ∧
      engine.run code state = .ok result ∧ CompiledLoop.resolve loop'.code ints shape = .ok code' ∧
      engine.run code' state' = .ok result' ∧
      ∀ depth, .stack depth ∈ loop.slots.map Slot.key →
        loop.valueAt result (.stack depth) =
          if residue options.types depth body (.start counter body) false then
            loop'.valueAt result' (.stack depth)
          else some 0 := by
  obtain ⟨values, rfl, rfl, zero⟩ := exists_values_of_agree first.laid second.laid rested rested' agree
  obtain ⟨code, result, resolved, ran, left⟩ := first.laid.exists_run rounds constants engine values
  obtain ⟨code', result', resolved', ran', left'⟩ :=
    second.laid.exists_run rounds (first.consts_eq second ▸ constants) engine values
  refine ⟨code, code', result, result', resolved, ran, resolved', ran', ?_⟩
  intro depth isSlot
  rw [first.laid.keys_eq] at isSlot
  rw [left _ isSlot, first.acts_stack second clears rounds zero]
  split
  · rename_i remains
    rw [left' _ (second.stack_mem_slots (types ▸ remains))]
  · rfl

end Runs

/-! ### Whole compilations -/

theorem leftover_eq {types : KindSet} {markers rest : List Instruction} {target : Instruction}
    {counter : Variable} {height : Nat} (marking : ∀ instr ∈ markers, instr.isMarker = true)
    (targets : target.access? = some (.store counter)) :
    leftover types (markers ++ target :: rest) height =
      residue types height rest (.start counter rest) false := by
  have stores : target.action? = some (.store counter) := Instruction.access?_eq_some_iff.mp targets
  rw [leftover, dropWhile_markers marking targets]
  simp only [stores]

/-- A body without rotations leaves nothing over. -/
theorem leftover_of_no_rotation {types : KindSet} {body : List Instruction} {height : Nat}
    (still : ∀ instr ∈ body, ∀ count, instr.action? ≠ some (.rotate count)) :
    leftover types body height = false := by
  unfold leftover
  split
  · rfl
  · rename_i target rest split
    split
    · apply residue_of_no_rotation
      intro instr member
      refine still instr ((List.dropWhile_sublist Instruction.isMarker).subset ?_)
      rw [split]
      exact .tail target member
    · rfl

/-- Freed stack slots, exactly. A body that compiles with freed slots cleared compiles without, and both loops
run from state vectors that agree and have nothing in their stack slots. Afterwards a stack slot of the first
loop holds zero, unless something is left over at its height: the flag has no effect there, and the slot holds
what it holds in the second loop. Nothing is left over by a body without rotations. -/
theorem stack_slots_after_run {body : List Instruction} {types : KindSet} {fold : Bool} {headLine : Option Nat}
    {loop : CompiledLoop} (compiled : CompiledLoop.compile body ⟨types, fold, true⟩ headLine = .ok loop) :
    (∃ plain, CompiledLoop.compile body ⟨types, fold, false⟩ headLine = .ok plain ∧
      ∀ (ints : List Int) (shape : LoopShape) (state state' : List Int) (engine : Engine),
        ints.length = loop.consts.length → 1 ≤ shape.itersCount → loop.Rested state → plain.Rested state' →
          (∀ key n n', loop.valueAt state key = some n → plain.valueAt state' key = some n' → n = n') →
            ∃ code code' result result', CompiledLoop.resolve loop.code ints shape = .ok code ∧
              engine.run code state = .ok result ∧ CompiledLoop.resolve plain.code ints shape = .ok code' ∧
              engine.run code' state' = .ok result' ∧
              ∀ depth, .stack depth ∈ loop.slots.map Slot.key →
                loop.valueAt result (.stack depth) =
                  if leftover types body depth then plain.valueAt result' (.stack depth) else some 0) ∧
    ((∀ instr ∈ body, ∀ count, instr.action? ≠ some (.rotate count)) →
      ∀ depth, leftover types body depth = false) := by
  refine ⟨?_, fun still depth => leftover_of_no_rotation still⟩
  obtain ⟨plain, compiled', same⟩ := compile_of_types compiled ⟨types, fold, false⟩ rfl
  refine ⟨plain, compiled', ?_⟩
  intro ints shape state state' engine constants rounds rested rested' agree
  rcases same with rfl | ⟨markers, target, after, counter, rfl, marking, targets, ⟨layout⟩, ⟨layout'⟩⟩
  · obtain ⟨markers, rest, rfl, marking, ⟨rfl, rfl⟩ | ⟨target, after, counter, rfl, targets, ⟨layout⟩⟩⟩ :=
      compile_cases compiled
    · obtain ⟨values, rfl, rfl, -⟩ := exists_values_of_agree laid_nothing laid_nothing rested rested' agree
      obtain ⟨code, result, resolved, ran, -⟩ := laid_nothing.exists_run rounds constants engine values
      exact ⟨code, code, result, result, resolved, ran, resolved, ran, by simp⟩
    · simp only [leftover_eq marking targets]
      exact layout.exists_runs layout rfl rfl constants rounds rested rested' agree engine
  · simp only [leftover_eq marking targets]
    exact layout.exists_runs layout' rfl rfl constants rounds rested rested' agree engine

/-- The target and a constant are swapped and dropped: the constant takes the place of a live entry. -/
def mixedSwap : List Instruction :=
  [⟨.store .fast, .name "i"⟩, ⟨.load .fast, .name "i"⟩, ⟨.loadConst, .const (.int 7)⟩, ⟨.rotTwo, .none⟩,
    ⟨.popTop, .none⟩, ⟨.popTop, .none⟩]

def mixedSwapLoop : CompiledLoop where
  code :=
    [.mov (.var 0) (.param .start), .loop (.param .itersCount), .mov (.var 1) (.var 0), .mov (.var 2) (.var 1),
      .mov (.var 2) (.value 0), .add (.var 0) (.param .step), .endLoop, .sub (.var 0) (.param .step)]
  slots := [⟨.host ⟨.fast, "i"⟩, true⟩, ⟨.stack 0, false⟩, ⟨.stack 1, false⟩]
  consts := []
  counter := some ⟨.fast, "i"⟩
  counterUse := .readOnly
  storeCounter := false

/-- The loop without clearing has one move less; the bottom slot is not cleared in either. -/
def mixedSwapPlainLoop : CompiledLoop :=
  { mixedSwapLoop with code := mixedSwapLoop.code.eraseIdx 4 }

/-- Not every stack slot is zero after a run: the last element is left in the one at the bottom. -/
theorem mixedSwap_not_cleared :
    CompiledLoop.compile mixedSwap default none = .ok mixedSwapLoop ∧
      mixedSwapLoop.Rested [0, 0, 0] ∧
      ∃ code result, CompiledLoop.resolve mixedSwapLoop.code [] ⟨5, 1, 3, none⟩ = .ok code ∧
        (default : Engine).run code [0, 0, 0] = .ok result ∧
        mixedSwapLoop.valueAt result (.stack 0) = some 7 := by
  have compiled : CompiledLoop.compile mixedSwap default none = .ok mixedSwapLoop := by decide +kernel
  exact ⟨compiled, mixedSwapLoop.rested_zeros, _, [7, 7, 0], rfl, by decide +kernel, by decide⟩

/-- It is left there by the loop without clearing, too; the other stack slot is cleared. -/
theorem mixedSwap_stack_slots_after_run :
    CompiledLoop.compile mixedSwap default none = .ok mixedSwapLoop ∧
      CompiledLoop.compile mixedSwap ⟨default, true, false⟩ none = .ok mixedSwapPlainLoop ∧
      leftover default mixedSwap 0 = true ∧ leftover default mixedSwap 1 = false ∧
      ∃ code code' result result',
        CompiledLoop.resolve mixedSwapLoop.code [] ⟨5, 1, 3, none⟩ = .ok code ∧
        (default : Engine).run code [0, 0, 0] = .ok result ∧
        CompiledLoop.resolve mixedSwapPlainLoop.code [] ⟨5, 1, 3, none⟩ = .ok code' ∧
        (default : Engine).run code' [0, 0, 0] = .ok result' ∧
        mixedSwapLoop.valueAt result (.stack 0) = mixedSwapPlainLoop.valueAt result' (.stack 0) ∧
        mixedSwapLoop.valueAt result (.stack 1) = some 0 := by
  have compiled : CompiledLoop.compile mixedSwap ⟨default, true, true⟩ none = .ok mixedSwapLoop := by
    decide +kernel
  have plain : CompiledLoop.compile mixedSwap ⟨default, true, false⟩ none = .ok mixedSwapPlainLoop := by
    decide +kernel
  have remains : leftover default mixedSwap 0 = true := by decide +kernel
  have nothing : leftover default mixedSwap 1 = false := by decide +kernel
  obtain ⟨⟨plainLoop, compiled', runs⟩, -⟩ := stack_slots_after_run compiled
  obtain rfl : mixedSwapPlainLoop = plainLoop := Except.ok.inj (plain.symm.trans compiled')
  obtain ⟨code, code', result, result', resolved, ran, resolved', ran', left⟩ :=
    runs [] ⟨5, 1, 3, none⟩ (List.replicate 3 0) (List.replicate 3 0) default rfl (by decide)
      mixedSwapLoop.rested_zeros mixedSwapPlainLoop.rested_zeros
      (fun _ _ _ found found' =>
        (CompiledLoop.valueAt_zeros found).trans (CompiledLoop.valueAt_zeros found').symm)
  refine ⟨compiled, plain, remains, nothing, code, code', result, result', resolved, ran, resolved', ran', ?_⟩
  constructor
  · rw [left 0 (by decide), remains, if_pos rfl]
  · rw [left 1 (by decide), nothing]
    rfl

end AffineLoops
