import AffineLoops.Proofs.CompilerCorrectness

/-!
No failure of the literal run is masked by the accelerated one. Arithmetic that can fail is arithmetic on
foldable entries, and unless an entry is popped it ends, alone or as a part of others, in a constant, which
the accelerated run computes before anything else. So the literal run can fail for a variable without a
value and for nothing else.

* `Lowers.evaluable`: entries have values if what lowering makes of them has.
* `Simulates.progress`: the literal machine can carry out an action that was lowered.
* `Simulates.exists_run`, `Between.exists_run`: hence the rest of a body, and all rounds.
-/

namespace AffineLoops

open ConstProgram (Evaluates Yields)
open Literal (Machine Performs)
open Move (acts)

/-! ### Entries with values -/

/-- Every foldable entry of a stack has a value. -/
def Context.Evaluable (c : Context) (stack : List Entry) : Prop :=
  ∀ program, .foldable program ∈ stack → ∃ value, Evaluates c.frame c.values program value

section Lowering

variable {c : Context} {options : CompileOptions} {action : Action} {s s' : Sketch} {moves : List Move}

theorem evaluable_foldable_cons {program : ConstProgram} {rest : List Entry} :
    c.Evaluable (.foldable program :: rest) ↔
      (∃ value, Evaluates c.frame c.values program value) ∧ c.Evaluable rest := by
  constructor
  · intro evaluable
    exact ⟨evaluable program (.head _), fun other member => evaluable other (.tail _ member)⟩
  · rintro ⟨top, below⟩ other member
    rcases List.mem_cons.mp member with same | member
    · cases same
      exact top
    · exact below other member

theorem evaluable_live_cons {rest : List Entry} : c.Evaluable (.live :: rest) ↔ c.Evaluable rest := by
  simp [Context.Evaluable]

/-- A program that has become a constant has a value. -/
theorem Context.exists_evaluates {consts : List ConstProgram} {program : ConstProgram}
    (yields : Yields consts.length program) (grown : program.addTo consts <+: c.consts) :
    ∃ value, Evaluates c.frame c.values program value := by
  cases again : program.alias? with
  | some index =>
    have old : consts <+: c.consts := (program.prefix_addTo consts).trans grown
    have within : index < c.consts.length := Nat.lt_of_lt_of_le (yields.alias_lt again) old.length_le
    obtain ⟨value, atIndex, -⟩ := c.evaluates index _ (List.getElem?_eq_getElem within)
    rw [ConstProgram.eq_folded_of_alias? again]
    exact ⟨value, ConstProgram.evaluates_folded_iff.mpr atIndex⟩
  | none =>
    obtain ⟨value, -, evaluates⟩ := c.evaluates _ _ (ConstProgram.getElem?_of_addTo again grown)
    exact ⟨value, evaluates⟩

/-- Lowering drops no entry without a constant for it, unless the entry is popped: the entries before have
values if those after and the constants have. -/
theorem Lowers.evaluable (lowers : Lowers options action s moves s') (kept : action ≠ .pop)
    (formed : s.Formed) (grown : s'.consts <+: c.consts) (evaluable : c.Evaluable s'.stack) :
    c.Evaluable s.stack := by
  have yields := formed.stack
  cases lowers with
  | skip | positive | negateLive => exact evaluable
  | popFoldable | popLive => exact absurd rfl kept
  | rotate => exact fun program member => evaluable program (mem_rotate_iff.mpr member)
  | duplicate => exact fun program member => evaluable program (mem_duplicate_iff.mpr member)
  | unaryFoldable =>
    obtain ⟨⟨value, evaluates⟩, below⟩ := evaluable_foldable_cons.mp evaluable
    obtain ⟨a, operand, -⟩ := evaluates.of_unary (yields _ (.head _)).one
    exact evaluable_foldable_cons.mpr ⟨⟨a, operand⟩, below⟩
  | binaryFoldable =>
    obtain ⟨⟨value, evaluates⟩, below⟩ := evaluable_foldable_cons.mp evaluable
    obtain ⟨a, b, left, right, -⟩ :=
      evaluates.of_binary (yields _ (.tail _ (.head _))).one (yields _ (.head _)).one
    exact evaluable_foldable_cons.mpr ⟨⟨b, right⟩, evaluable_foldable_cons.mpr ⟨⟨a, left⟩, below⟩⟩
  | binaryLeft =>
    have right := Context.exists_evaluates (yields _ (.head _)) grown
    exact evaluable_foldable_cons.mpr ⟨right, evaluable⟩
  | binaryRight =>
    have left := Context.exists_evaluates (yields _ (.tail _ (.head _))) grown
    have below := evaluable_live_cons.mp evaluable
    exact evaluable_live_cons.mpr (evaluable_foldable_cons.mpr ⟨left, below⟩)
  | binaryBoth => exact evaluable_live_cons.mpr evaluable
  | push | loadConst => exact (evaluable_foldable_cons.mp evaluable).2
  | loadSlot => exact evaluable_live_cons.mp evaluable
  | storeFoldable =>
    have stored := Context.exists_evaluates (yields _ (.head _)) grown
    exact evaluable_foldable_cons.mpr ⟨stored, evaluable⟩
  | storeLive => exact evaluable_live_cons.mpr evaluable

/-- Only `POP_TOP` pops. -/
theorem Instruction.action?_ne_pop {instr : Instruction} (other : instr.opcode ≠ .popTop) :
    instr.action? ≠ some .pop := by
  rcases instr with ⟨opcode, arg⟩
  cases opcode <;> cases arg <;> simp_all [Instruction.action?]

theorem LowersAll.evaluable {body : List Instruction} (lowers : LowersAll options body s moves s')
    (kept : ∀ instr ∈ body, instr.opcode ≠ .popTop) (formed : s.Formed) (grown : s'.consts <+: c.consts)
    (evaluable : c.Evaluable s'.stack) : c.Evaluable s.stack := by
  induction lowers with
  | nil => exact evaluable
  | @cons instr rest action s mid s' first others asked lowersFirst lowersRest ih =>
    have keeps : action ≠ .pop := by
      rintro rfl
      exact Instruction.action?_ne_pop (kept instr (.head _)) asked
    apply lowersFirst.evaluable keeps formed (lowersRest.consts_prefix.trans grown)
    exact ih (fun instr member => kept instr (.tail _ member)) (lowersFirst.formed formed) grown evaluable

/-! ### One action -/

variable {slots : SlotKey → Int} {m : Machine}

theorem Value.exists_positive (a : Value) : ∃ value, a.unary .positive = .ok value := by
  cases a <;> exact ⟨_, rfl⟩

/-- The top entry stands for the top value. -/
theorem StackHolds.exists_cons {frame : Frame} {values : List Value} {entry : Entry} {entries : List Entry}
    {stack : List Value} (holds : StackHolds frame values slots (entry :: entries) stack) :
    ∃ value rest, stack = value :: rest ∧ EntryHolds frame values slots entries.length entry value ∧
      StackHolds frame values slots entries rest := by
  obtain ⟨value, rest, rfl⟩ := List.exists_cons_of_length_eq_add_one holds.length.symm
  exact ⟨value, rest, rfl, stackHolds_cons_iff.mp holds⟩

/-- The literal machine can carry out an action that was lowered, if its result has a value and so has the
variable that it loads. -/
theorem Simulates.progress (sim : Simulates c s slots m) (lowers : Lowers options action s moves s')
    (formed : s.Formed) (grown : s'.consts <+: c.consts) (evaluable : c.Evaluable s'.stack)
    (defined : ∀ v, action = .load v → (m.frame.load? v).isSome) : ∃ m', Performs action m m' := by
  rcases m with ⟨stack, frame⟩
  have holds : StackHolds c.frame c.values slots s.stack stack := sim.stack
  cases lowers with
  | skip => exact ⟨_, .skip⟩
  | popFoldable | popLive =>
    obtain ⟨value, rest, rfl, -⟩ := holds.exists_cons
    exact ⟨_, .pop⟩
  | rotate positive room => exact ⟨_, .rotate (holds.length ▸ room)⟩
  | duplicate room => exact ⟨_, .duplicate (holds.length ▸ room)⟩
  | positive notEmpty =>
    obtain ⟨entry, entries, stack_eq⟩ := List.exists_cons_of_ne_nil notEmpty
    rw [stack_eq] at holds
    obtain ⟨a, rest, rfl, -⟩ := holds.exists_cons
    obtain ⟨value, computed⟩ := Value.exists_positive a
    exact ⟨_, .unary computed⟩
  | unaryFoldable =>
    obtain ⟨a, rest, rfl, ⟨constant, operand, same⟩, -⟩ := holds.exists_cons
    obtain ⟨⟨value, evaluates⟩, -⟩ := evaluable_foldable_cons.mp evaluable
    obtain ⟨constant', operand', computed⟩ := evaluates.of_unary (formed.stack _ (.head _)).one
    rw [operand'.unique operand, Value.unary_congr same] at computed
    exact ⟨_, .unary computed⟩
  | negateLive =>
    obtain ⟨a, rest, rfl, operand, -⟩ := holds.exists_cons
    exact ⟨_, .unary (unary_negative operand)⟩
  | binaryFoldable =>
    obtain ⟨b, tail, rfl, ⟨constantRight, right, sameRight⟩, below⟩ := holds.exists_cons
    obtain ⟨a, rest, rfl, ⟨constantLeft, left, sameLeft⟩, -⟩ := below.exists_cons
    obtain ⟨⟨value, evaluates⟩, -⟩ := evaluable_foldable_cons.mp evaluable
    obtain ⟨_, _, left', right', computed⟩ :=
      evaluates.of_binary (formed.stack _ (.tail _ (.head _))).one (formed.stack _ (.head _)).one
    rw [left'.unique left, right'.unique right, Value.binary_congr sameLeft sameRight] at computed
    exact ⟨_, .binary computed⟩
  | binaryLeft isAffine =>
    obtain ⟨b, tail, rfl, right, below⟩ := holds.exists_cons
    obtain ⟨a, rest, rfl, left, -⟩ := below.exists_cons
    exact ⟨_, .binary (binary_affine isAffine left (Context.reading_indexIn grown right))⟩
  | binaryRight isAffine =>
    obtain ⟨b, tail, rfl, right, below⟩ := holds.exists_cons
    obtain ⟨a, rest, rfl, left, -⟩ := below.exists_cons
    exact ⟨_, .binary (binary_affine isAffine (Context.reading_indexIn grown left) right)⟩
  | binaryBoth isAffine =>
    obtain ⟨b, tail, rfl, right, below⟩ := holds.exists_cons
    obtain ⟨a, rest, rfl, left, -⟩ := below.exists_cons
    exact ⟨_, .binary (binary_affine isAffine left right)⟩
  | push => exact ⟨_, .push⟩
  | loadConst | loadSlot =>
    obtain ⟨value, found⟩ := Option.isSome_iff_exists.mp (defined _ rfl)
    exact ⟨_, .load found⟩
  | storeFoldable | storeLive =>
    obtain ⟨value, rest, rfl, -⟩ := holds.exists_cons
    exact ⟨_, .store⟩

end Lowering

/-! ### Loads without a store before them -/

/-- The body loads the variable at a position with no store to it before. -/
def LoadsFirst (body : List Instruction) (v : Variable) : Prop :=
  ∃ before instr after, body = before ++ instr :: after ∧ instr.access? = some (.load v) ∧
    .store v ∉ before.filterMap Instruction.access?

theorem loadsFirst_cons_iff {instr : Instruction} {rest : List Instruction} {v : Variable} :
    LoadsFirst (instr :: rest) v ↔
      instr.access? = some (.load v) ∨ (instr.access? ≠ some (.store v) ∧ LoadsFirst rest v) := by
  constructor
  · rintro ⟨_ | ⟨first, before⟩, found, after, split, loads, fresh⟩
    · cases split
      exact .inl loads
    · cases split
      rw [mem_accesses_cons, not_or] at fresh
      exact .inr ⟨fresh.1, before, found, after, rfl, loads, fresh.2⟩
  · rintro (loads | ⟨other, before, found, after, rfl, loads, fresh⟩)
    · exact ⟨[], instr, rest, rfl, loads, by simp⟩
    · refine ⟨instr :: before, found, after, rfl, loads, ?_⟩
      rw [mem_accesses_cons, not_or]
      exact ⟨other, fresh⟩

theorem not_loadsFirst_nil {v : Variable} : ¬ LoadsFirst [] v := by
  rintro ⟨before, instr, after, split, -⟩
  simp at split

instance decidableLoadsFirst : (body : List Instruction) → (v : Variable) → Decidable (LoadsFirst body v)
  | [], _ => .isFalse not_loadsFirst_nil
  | _ :: rest, v =>
    have := decidableLoadsFirst rest v
    decidable_of_iff _ loadsFirst_cons_iff.symm

/-- The frame has a value for every variable that the body loads first. -/
def Supplies (frame : Frame) (body : List Instruction) : Prop :=
  ∀ v, LoadsFirst body v → (frame.load? v).isSome

theorem supplies_iff {frame : Frame} {body : List Instruction} :
    Supplies frame body ↔ ∀ access ∈ body.filterMap Instruction.access?,
      LoadsFirst body access.var → (frame.load? access.var).isSome := by
  constructor
  · intro supplies access _
    exact supplies access.var
  · intro listed v first
    have ⟨before, instr, after, split, loads, _⟩ := first
    exact listed (.load v) (List.mem_filterMap.mpr ⟨instr, by simp [split], loads⟩) first

instance (frame : Frame) (body : List Instruction) : Decidable (Supplies frame body) :=
  decidable_of_iff _ supplies_iff.symm

/-- Past the store to the target, the target is not loaded first. -/
theorem loadsFirst_of_rest {markers body : List Instruction} {target : Instruction} {counter v : Variable}
    (marking : ∀ instr ∈ markers, instr.isMarker = true) (targets : target.access? = some (.store counter))
    (other : v ≠ counter) (first : LoadsFirst body v) : LoadsFirst (markers ++ target :: body) v := by
  obtain ⟨before, instr, after, rfl, loads, fresh⟩ := first
  refine ⟨markers ++ target :: before, instr, after, by simp, loads, ?_⟩
  rw [mem_accesses_target marking targets, not_or]
  exact ⟨by simpa using other, fresh⟩

/-! ### Whole bodies and rounds -/

/-- The literal machine can carry out a body that was lowered, if no entry is popped, the entries that are
left have values, and so have the variables that are loaded first. -/
theorem Simulates.exists_run {c : Context} {options : CompileOptions} {body : List Instruction}
    {s s' : Sketch} {moves : List Move} {slots : SlotKey → Int} {m : Machine} (sim : Simulates c s slots m)
    (lowers : LowersAll options body s moves s') (formed : s.Formed) (grown : s'.consts <+: c.consts)
    (targets : ∀ v, .store v ∈ body.filterMap Instruction.access? → c.held v)
    (kept : ∀ instr ∈ body, instr.opcode ≠ .popTop) (evaluable : c.Evaluable s'.stack)
    (defined : ∀ v, LoadsFirst body v → (m.frame.load? v).isSome) : ∃ m', Machine.run body m = .ok m' := by
  induction lowers generalizing slots m with
  | nil => exact ⟨m, rfl⟩
  | @cons instr rest action s mid s' first others asked lowersFirst lowersRest ih =>
    have formedMid := lowersFirst.formed formed
    have keptRest : ∀ instr ∈ rest, instr.opcode ≠ .popTop := fun instr member => kept instr (.tail _ member)
    have grownMid := lowersRest.consts_prefix.trans grown
    have loads : ∀ v, action = .load v → (m.frame.load? v).isSome := by
      rintro v rfl
      exact defined v (loadsFirst_cons_iff.mpr (.inl (Instruction.access?_eq_some_iff.mpr asked)))
    obtain ⟨middle, performed⟩ :=
      sim.progress lowersFirst formed grownMid (lowersRest.evaluable keptRest formedMid grown evaluable) loads
    have stores : ∀ v, action = .store v → c.held v := by
      rintro v rfl
      exact targets v (mem_accesses_cons.mpr (.inl (Instruction.access?_eq_some_iff.mpr asked)))
    have simMid := sim.step lowersFirst performed grownMid stores
    have definedMid : ∀ v, LoadsFirst rest v → (middle.frame.load? v).isSome := by
      intro v loadsLater
      by_cases isStore : action = .store v
      · subst isStore
        cases performed
        simp [Frame.load?_store_self]
      · apply performed.load?_isSome
        refine defined v (loadsFirst_cons_iff.mpr (.inr ⟨fun stores => isStore ?_, loadsLater⟩))
        exact Option.some.inj (asked.symm.trans (Instruction.access?_eq_some_iff.mp stores))
    obtain ⟨m', ran⟩ := ih simMid formedMid grown
      (fun v stored => targets v (mem_accesses_cons.mpr (.inr stored))) keptRest evaluable definedMid
    exact ⟨m', Literal.run_cons_eq_ok_iff.mpr ⟨action, middle, asked, performed, ran⟩⟩

section Rounds

variable {options : CompileOptions} {counter : Variable} {body : List Instruction} {loop : CompiledLoop}
  {c : Context} {layout : Layout options counter body loop} {rounds : Nat} {slots : SlotKey → Int}
  {frame : Frame}

/-- Rounds of the literal run, one after the other. -/
theorem Between.exists_run {full : List Instruction} {p : Progression} {count : Nat}
    (between : Between c layout rounds slots frame) (of : c.Of layout)
    (kept : ∀ instr ∈ body, instr.opcode ≠ .popTop)
    (elements : ∀ index, p.element index = c.element index)
    (enters : ∀ element frame, Machine.run full ⟨[element], frame⟩ =
      Machine.run body ⟨[], frame.store counter element⟩)
    (defined : ∀ v, v ≠ counter → LoadsFirst body v → (frame.load? v).isSome) :
    ∃ frame', Literal.runRange full p count rounds frame = .ok frame' := by
  induction count generalizing rounds slots frame with
  | zero => exact ⟨frame, rfl⟩
  | succ count ih =>
    have stored : ∀ v, LoadsFirst body v →
        ((frame.store counter (.int (c.element rounds))).load? v).isSome := by
      intro v first
      by_cases isTarget : v = counter
      · subst isTarget
        simp [Frame.load?_store_self]
      · exact Frame.load?_store_isSome (defined v isTarget first) _ _
    have evaluable : c.Evaluable layout.finish.stack := by
      intro program member
      rw [layout.stack] at member
      cases member
    obtain ⟨⟨stack, mid⟩, ranBody⟩ := (between.enter of).exists_run layout.lowers layout.announced.formed
      (of.consts ▸ List.prefix_refl _) (fun v stores => of.held ▸ .inl stores) kept evaluable stored
    have first : Literal.round full (.int (p.element rounds)) frame = .ok mid := by
      rw [Literal.round_eq_ok_iff, enters, elements]
      exact ⟨stack, ranBody⟩
    obtain ⟨frame', others⟩ := ih (between.round of ranBody).1 fun v other loads =>
      Literal.machineRun_load?_isSome ranBody (Frame.load?_store_isSome (defined v other loads) _ _)
    exact ⟨frame', bind_eq_ok_iff.mpr ⟨mid, first, others⟩⟩

end Rounds

/-- Rounds of line markers alone do nothing. -/
theorem runRange_markers {markers : List Instruction} (marking : ∀ instr ∈ markers, instr.isMarker = true)
    (p : Progression) (count index : Nat) (frame : Frame) :
    Literal.runRange markers p count index frame = .ok frame := by
  have skips : ∀ m : Machine, Machine.run markers m = .ok m := by
    intro m
    induction markers with
    | nil => rfl
    | cons marker markers ih =>
      exact Literal.run_cons_eq_ok_iff.mpr ⟨_, m, action?_of_isMarker (marking marker (.head _)), .skip,
        ih fun instr member => marking instr (.tail _ member)⟩
  induction count generalizing index with
  | zero => rfl
  | succ count ih =>
    refine bind_eq_ok_iff.mpr ⟨frame, ?_, ih (index + 1)⟩
    exact Literal.round_eq_ok_iff.mpr ⟨_, skips _⟩

section Runs

variable {body : List Instruction} {options : CompileOptions} {headLine : Option Nat} {loop : CompiledLoop}
  {settings : Settings} {frame : Frame} {writeBack : WriteBack} {p : Progression}

theorem exists_literal_run (single : SingleScoped body) (kept : ∀ instr ∈ body, instr.opcode ≠ .popTop)
    (supplies : Supplies frame body)
    (compiled : CompiledLoop.compile body options headLine = .ok loop) (aligned : p.Aligned)
    (rounds : 0 < p.length) (executed : loop.execute p.shape frame settings = .ok writeBack) :
    ∃ frame', Literal.run body (.range p) frame = .ok frame' := by
  obtain ⟨markers, rest, rfl, marking, ⟨rfl, -⟩ | ⟨target, after, counter, rfl, targets, ⟨layout⟩⟩⟩ :=
    compile_cases compiled
  · rw [List.append_nil]
    exact ⟨frame, runRange_markers marking p _ 0 frame⟩
  · obtain ⟨c, rfl, context⟩ := layout.ran_of_execute marking targets single aligned rounds executed
    obtain ⟨state, loaded⟩ := context.loaded
    have keptRest : ∀ instr ∈ after, instr.opcode ≠ .popTop := fun instr member =>
      kept instr (List.mem_append_right _ (.tail _ member))
    exact (between_start context.toOf loaded).exists_run context.toOf keptRest context.element_eq
      (machineRun_target marking targets) fun v other first =>
        supplies v (loadsFirst_of_rest marking targets other first)

/-- No error is masked. Suppose that no name of the body has two scopes, the body pops nothing, and every
variable that it loads at a position with no store to it before has a value. If the body compiles and the
accelerated run over a progression with elements succeeds, then so does the literal run, and what it leaves
agrees with the stored results. -/
theorem literal_run_succeeds (single : SingleScoped body) (kept : ∀ instr ∈ body, instr.opcode ≠ .popTop)
    (supplies : Supplies frame body)
    (compiled : CompiledLoop.compile body options headLine = .ok loop) (built : p.Built)
    (elements : p.isEmpty = false) (executed : loop.execute p.shape frame settings = .ok writeBack) :
    ∃ frame', Literal.run body (.range p) frame = .ok frame' ∧ (writeBack.apply frame).Agree frame' := by
  have rounds := built.aligned.length_pos elements
  obtain ⟨frame', ran⟩ := exists_literal_run single kept supplies compiled built.aligned rounds executed
  exact ⟨frame', ran, apply_agree single compiled built.aligned rounds executed ran⟩

end Runs

/-- One round of `t = k // 2; s += t`. -/
def halfSum : List Instruction :=
  [⟨.store .fast, .name "i"⟩, ⟨.load .global, .name "k"⟩, ⟨.loadConst, .const (.int 2)⟩,
    ⟨.binary .floorDivide, .none⟩, ⟨.store .fast, .name "t"⟩, ⟨.load .fast, .name "s"⟩,
    ⟨.load .fast, .name "t"⟩, ⟨.inplace .add, .none⟩, ⟨.store .fast, .name "s"⟩]

def halfSumLoop : CompiledLoop where
  code :=
    [.loop (.param .itersCount), .mov (.var 0) (.const 1), .mov (.var 2) (.var 1), .add (.var 2) (.const 1),
      .mov (.var 1) (.var 2), .mov (.var 2) (.value 0), .endLoop]
  slots := [⟨.host ⟨.fast, "t"⟩, true⟩, ⟨.host ⟨.fast, "s"⟩, true⟩, ⟨.stack 0, false⟩]
  consts := [[.load ⟨.global, "k"⟩], [.folded 0, .push (.int 2), .binary .floorDivide]]
  counter := some ⟨.fast, "i"⟩
  counterUse := .unused
  storeCounter := true

/-- What the rounds for 2, 5 and 8 leave. -/
def halfSumResult : WriteBack :=
  ⟨[(⟨.fast, "t"⟩, .int 1), (⟨.fast, "s"⟩, .int 4)], some (⟨.fast, "i"⟩, .int 8)⟩

/-- The variable `t` has no value before the loop, but the body stores to it before it loads it. -/
theorem halfSum_literal_run_succeeds :
    CompiledLoop.compile halfSum default none = .ok halfSumLoop ∧
      Supplies (weightedSumFrame (.bool true)) halfSum ∧
      (weightedSumFrame (.bool true)).load? ⟨.fast, "t"⟩ = none ∧
      halfSumLoop.execute (Progression.shape ⟨2, 11, 3⟩) (weightedSumFrame (.bool true)) default =
        .ok halfSumResult ∧
      ∃ frame', Literal.run halfSum (.range ⟨2, 11, 3⟩) (weightedSumFrame (.bool true)) = .ok frame' ∧
        (halfSumResult.apply (weightedSumFrame (.bool true))).Agree frame' := by
  have compiled : CompiledLoop.compile halfSum default none = .ok halfSumLoop := by decide +kernel
  have supplies : Supplies (weightedSumFrame (.bool true)) halfSum := by decide +kernel
  have bounds : Progression.ofBounds 2 9 3 = .ok ⟨2, 11, 3⟩ := by decide
  have executed : halfSumLoop.execute (Progression.shape ⟨2, 11, 3⟩) (weightedSumFrame (.bool true))
      default = .ok halfSumResult := by decide +kernel
  exact ⟨compiled, supplies, by decide +kernel, executed,
    literal_run_succeeds (by decide +kernel) (by decide) supplies compiled (.ofBounds bounds) rfl executed⟩

end AffineLoops
