import AffineLoops.LoopBody.Literal
import AffineLoops.Proofs.Agreement
import AffineLoops.Proofs.Outcomes

/-!
What an instruction of a body asks for, and what the literal machine does about it. The many opcodes come
down to a few `Action`s, and `Performs` lists what each of them does to the stack and the variables;
`step_eq_ok_iff` says that this is all a step can do. From that list follow

* `Performs.congr`, `runItems_congr`, `run_congr`: machines and frames that agree go on agreeing, and a run
  that succeeds on one of them succeeds on the other;
* `machineRun_cell?_isSome`, `runItems_cell?_eq`: the cells that a body stores to are filled after a round,
  and a run leaves all others alone.
-/

namespace AffineLoops

/-- What an instruction asks for, whatever its opcode is called. -/
inductive Action where
  | skip
  | pop
  | rotate (count : Nat)
  | duplicate (count : Nat)
  | unary (op : UnaryOp)
  | binary (op : BinaryOp)
  | push (value : Value)
  | load (v : Variable)
  | store (v : Variable)
  deriving DecidableEq

/-- The action of an instruction; one that no loop body may hold has none. -/
def Instruction.action? (instr : Instruction) : Option Action :=
  match instr.opcode, instr.arg with
  | .nop, _ | .setLineno, _ => some .skip
  | .popTop, _ => some .pop
  | .rotTwo, _ => some (.rotate 2)
  | .rotThree, _ => some (.rotate 3)
  | .rotFour, _ => some (.rotate 4)
  | .dupTop, _ => some (.duplicate 1)
  | .dupTopX, .count n => some (.duplicate n)
  | .unary op, _ => some (.unary op)
  | .binary op, _ | .inplace op, _ => some (.binary op)
  | .loadConst, .const value => some (.push value)
  | .load scope, .name name => some (.load ⟨scope, name⟩)
  | .store scope, .name name => some (.store ⟨scope, name⟩)
  | _, _ => none

theorem action?_of_isMarker {instr : Instruction} (marker : instr.isMarker = true) :
    instr.action? = some .skip := by
  rcases instr with ⟨opcode, arg⟩
  obtain rfl : opcode = .setLineno := by simpa [Instruction.isMarker] using marker
  rfl

/-- The accesses to variables are the loads and stores among the actions. -/
theorem Instruction.access?_eq_some_iff {instr : Instruction} {access : Access} :
    instr.access? = some access ↔
      instr.action? = some (match access with | .load v => .load v | .store v => .store v) := by
  rcases instr with ⟨opcode, arg⟩
  rcases access with v | v <;> cases opcode <;> cases arg <;> simp [access?, action?]

theorem mem_accesses_cons {instr : Instruction} {rest : List Instruction} {access : Access} :
    access ∈ (instr :: rest).filterMap Instruction.access? ↔
      instr.access? = some access ∨ access ∈ rest.filterMap Instruction.access? := by
  simp only [List.mem_filterMap, List.mem_cons]
  constructor
  · rintro ⟨instr', rfl | member, found⟩
    · exact .inl found
    · exact .inr ⟨instr', member, found⟩
  · rintro (found | ⟨instr', member, found⟩)
    · exact ⟨instr, .inl rfl, found⟩
    · exact ⟨instr', .inr member, found⟩

namespace Stack

variable {α β : Type}

theorem rotate_map (f : α → β) (count : Nat) (stack : List α) :
    rotate count (stack.map f) = (rotate count stack).map f := by
  cases stack <;> simp [rotate]

theorem duplicate_map (f : α → β) (count : Nat) (stack : List α) :
    duplicate count (stack.map f) = (duplicate count stack).map f := by
  simp [duplicate]

end Stack

namespace Literal

/-- What the literal machine does for an action. -/
inductive Performs : Action → Machine → Machine → Prop where
  | skip {m : Machine} : Performs .skip m m
  | pop {value : Value} {rest : List Value} {frame : Frame} :
      Performs .pop ⟨value :: rest, frame⟩ ⟨rest, frame⟩
  | rotate {count : Nat} {stack : List Value} {frame : Frame} :
      count ≤ stack.length → Performs (.rotate count) ⟨stack, frame⟩ ⟨Stack.rotate count stack, frame⟩
  | duplicate {count : Nat} {stack : List Value} {frame : Frame} :
      count ≤ stack.length →
        Performs (.duplicate count) ⟨stack, frame⟩ ⟨Stack.duplicate count stack, frame⟩
  | unary {op : UnaryOp} {a value : Value} {rest : List Value} {frame : Frame} :
      a.unary op = .ok value → Performs (.unary op) ⟨a :: rest, frame⟩ ⟨value :: rest, frame⟩
  | binary {op : BinaryOp} {a b value : Value} {rest : List Value} {frame : Frame} :
      a.binary op b = .ok value →
        Performs (.binary op) ⟨b :: a :: rest, frame⟩ ⟨value :: rest, frame⟩
  | push {value : Value} {stack : List Value} {frame : Frame} :
      Performs (.push value) ⟨stack, frame⟩ ⟨value :: stack, frame⟩
  | load {v : Variable} {value : Value} {stack : List Value} {frame : Frame} :
      frame.load? v = some value → Performs (.load v) ⟨stack, frame⟩ ⟨value :: stack, frame⟩
  | store {v : Variable} {value : Value} {rest : List Value} {frame : Frame} :
      Performs (.store v) ⟨value :: rest, frame⟩ ⟨rest, frame.store v value⟩

theorem rotate_eq_ok_iff {m m' : Machine} {instr : Instruction} {count : Nat} :
    m.rotate instr count = .ok m' ↔ Performs (.rotate count) m m' := by
  rcases m with ⟨stack, frame⟩
  by_cases room : count ≤ stack.length
  · rw [Machine.rotate, if_neg (by simpa using room)]
    constructor
    · rintro ⟨⟩
      exact .rotate room
    · rintro ⟨⟩
      rfl
  · rw [Machine.rotate, if_pos (by simpa using room)]
    constructor
    · rintro ⟨⟩
    · rintro ⟨⟩
      contradiction

theorem duplicate_eq_ok_iff {m m' : Machine} {instr : Instruction} {count : Nat} :
    m.duplicate instr count = .ok m' ↔ Performs (.duplicate count) m m' := by
  rcases m with ⟨stack, frame⟩
  by_cases room : count ≤ stack.length
  · rw [Machine.duplicate, if_neg (by simpa using room)]
    constructor
    · rintro ⟨⟩
      exact .duplicate room
    · rintro ⟨⟩
      rfl
  · rw [Machine.duplicate, if_pos (by simpa using room)]
    constructor
    · rintro ⟨⟩
    · rintro ⟨⟩
      contradiction

/-- A step does nothing but what its action asks for. -/
theorem performs_of_step {instr : Instruction} {m m' : Machine} (stepped : m.step instr = .ok m') :
    ∃ action, instr.action? = some action ∧ Performs action m m' := by
  rcases instr with ⟨opcode, arg⟩
  rcases m with ⟨stack, frame⟩
  cases opcode
  case nop | setLineno =>
    cases stepped
    exact ⟨_, rfl, .skip⟩
  case popTop =>
    cases stack <;> cases stepped
    exact ⟨_, rfl, .pop⟩
  case rotTwo | rotThree | rotFour => exact ⟨_, rfl, rotate_eq_ok_iff.mp stepped⟩
  case dupTop => exact ⟨_, rfl, duplicate_eq_ok_iff.mp stepped⟩
  case dupTopX =>
    cases arg with
    | count n => exact ⟨_, rfl, duplicate_eq_ok_iff.mp stepped⟩
    | _ => cases stepped
  case unary op =>
    cases stack with
    | nil => cases stepped
    | cons a rest =>
      obtain ⟨value, computed, rfl⟩ := map_eq_ok_iff.mp stepped
      exact ⟨_, rfl, .unary (mapError_eq_ok_iff.mp computed)⟩
  case binary op | inplace op =>
    rcases stack with _ | ⟨b, _ | ⟨a, rest⟩⟩
    · cases stepped
    · cases stepped
    · obtain ⟨value, computed, rfl⟩ := map_eq_ok_iff.mp stepped
      exact ⟨_, rfl, .binary (mapError_eq_ok_iff.mp computed)⟩
  case loadConst =>
    cases arg <;> cases stepped
    exact ⟨_, rfl, .push⟩
  case load scope =>
    cases arg with
    | name name =>
      simp only [Machine.step] at stepped
      split at stepped <;> cases stepped
      exact ⟨_, rfl, .load ‹_›⟩
    | _ => cases stepped
  case store scope =>
    cases arg with
    | name name =>
      cases stack <;> cases stepped
      exact ⟨_, rfl, .store⟩
    | _ => cases stepped
  all_goals cases stepped

/-- A step does what its action asks for. -/
theorem step_of_performs {instr : Instruction} {action : Action} {m m' : Machine}
    (asked : instr.action? = some action) (performed : Performs action m m') :
    m.step instr = .ok m' := by
  rcases instr with ⟨opcode, arg⟩
  cases opcode
  case nop | setLineno =>
    cases asked
    cases performed
    rfl
  case popTop =>
    cases asked
    cases performed
    rfl
  case rotTwo | rotThree | rotFour =>
    cases asked
    exact rotate_eq_ok_iff.mpr performed
  case dupTop =>
    cases asked
    exact duplicate_eq_ok_iff.mpr performed
  case dupTopX =>
    cases arg <;> cases asked
    exact duplicate_eq_ok_iff.mpr performed
  case unary op =>
    cases asked
    cases performed with
    | unary computed => simp [Machine.step, computed, Except.map, Except.mapError]
  case binary op | inplace op =>
    cases asked
    cases performed with
    | binary computed => simp [Machine.step, computed, Except.map, Except.mapError]
  case loadConst =>
    cases arg <;> cases asked
    cases performed
    rfl
  case load scope =>
    cases arg <;> cases asked
    cases performed with
    | load defined => simp [Machine.step, Machine.push, defined]
  case store scope =>
    cases arg <;> cases asked
    cases performed
    rfl
  all_goals cases asked

theorem run_cons_eq_ok_iff {instr : Instruction} {rest : List Instruction} {m m' : Machine} :
    Machine.run (instr :: rest) m = .ok m' ↔
      ∃ action mid, instr.action? = some action ∧ Performs action m mid ∧ Machine.run rest mid = .ok m' := by
  constructor
  · intro ran
    rw [Machine.run] at ran
    split at ran
    · rename_i mid stepped
      obtain ⟨action, asked, performed⟩ := performs_of_step stepped
      exact ⟨action, mid, asked, performed, ran⟩
    · cases ran
  · rintro ⟨action, mid, asked, performed, ran⟩
    rw [Machine.run, step_of_performs asked performed]
    exact ran

/-! ### Agreement -/

/-- Machines whose stacks and variables agree. -/
structure Machine.Agree (m n : Machine) : Prop where
  stack : m.stack.map Value.reading = n.stack.map Value.reading
  frame : m.frame.Agree n.frame

/-- An action cannot tell agreeing machines apart. -/
theorem Performs.congr {action : Action} {m m' n : Machine} (performed : Performs action m m')
    (agree : m.Agree n) : ∃ n', Performs action n n' ∧ m'.Agree n' := by
  rcases n with ⟨stack', frame'⟩
  obtain ⟨sameStack, frames⟩ := agree
  cases performed with
  | skip => exact ⟨_, .skip, sameStack, frames⟩
  | pop =>
    obtain ⟨value', rest', rfl, -, rests⟩ := List.map_eq_cons_iff.mp sameStack.symm
    exact ⟨_, .pop, rests.symm, frames⟩
  | @rotate count stack frame room =>
    have lengths : stack.length = stack'.length := by simpa using congrArg List.length sameStack
    refine ⟨_, .rotate (lengths ▸ room), ?_, frames⟩
    rw [← Stack.rotate_map, ← Stack.rotate_map, sameStack]
  | @duplicate count stack frame room =>
    have lengths : stack.length = stack'.length := by simpa using congrArg List.length sameStack
    refine ⟨_, .duplicate (lengths ▸ room), ?_, frames⟩
    rw [← Stack.duplicate_map, ← Stack.duplicate_map, sameStack]
  | unary computed =>
    obtain ⟨a', rest', rfl, same, rests⟩ := List.map_eq_cons_iff.mp sameStack.symm
    have computed' := (Value.unary_congr same _).trans computed
    exact ⟨_, .unary computed', by simp [rests], frames⟩
  | binary computed =>
    obtain ⟨b', tail', rfl, sameRight, tails⟩ := List.map_eq_cons_iff.mp sameStack.symm
    obtain ⟨a', rest', rfl, sameLeft, rests⟩ := List.map_eq_cons_iff.mp tails
    have computed' := (Value.binary_congr sameLeft sameRight _).trans computed
    exact ⟨_, .binary computed', by simp [rests], frames⟩
  | push => exact ⟨_, .push, by simp [sameStack], frames⟩
  | @load v value stack frame defined =>
    have same := frames.load? v
    rw [defined] at same
    obtain ⟨value', defined', reads⟩ := Option.map_eq_some_iff.mp same.symm
    exact ⟨_, .load defined', by simp [sameStack, reads], frames⟩
  | store =>
    obtain ⟨value', rest', rfl, same, rests⟩ := List.map_eq_cons_iff.mp sameStack.symm
    exact ⟨_, .store, rests.symm, frames.store _ same.symm⟩

theorem machineRun_congr {body : List Instruction} {m m' n : Machine} (ran : Machine.run body m = .ok m')
    (agree : m.Agree n) : ∃ n', Machine.run body n = .ok n' ∧ m'.Agree n' := by
  induction body generalizing m n with
  | nil =>
    cases ran
    exact ⟨n, rfl, agree⟩
  | cons instr rest ih =>
    obtain ⟨action, mid, asked, performed, ranRest⟩ := run_cons_eq_ok_iff.mp ran
    obtain ⟨mid', performed', agreeMid⟩ := performed.congr agree
    obtain ⟨n', ranRest', agree'⟩ := ih ranRest agreeMid
    exact ⟨n', run_cons_eq_ok_iff.mpr ⟨action, mid', asked, performed', ranRest'⟩, agree'⟩

theorem round_eq_ok_iff {body : List Instruction} {element : Value} {frame frame' : Frame} :
    round body element frame = .ok frame' ↔
      ∃ stack, Machine.run body ⟨[element], frame⟩ = .ok ⟨stack, frame'⟩ := by
  rw [round, map_eq_ok_iff]
  constructor
  · rintro ⟨⟨stack, _⟩, ran, rfl⟩
    exact ⟨stack, ran⟩
  · rintro ⟨stack, ran⟩
    exact ⟨_, ran, rfl⟩

/-- A run over the same elements from agreeing frames succeeds on both or on none, and leaves agreeing
frames. -/
theorem runItems_congr {body : List Instruction} {items : List Value} {A A' B : Frame}
    (ran : runItems body items A = .ok A') (agree : A.Agree B) :
    ∃ B', runItems body items B = .ok B' ∧ A'.Agree B' := by
  induction items generalizing A B with
  | nil =>
    cases ran
    exact ⟨B, rfl, agree⟩
  | cons element rest ih =>
    obtain ⟨mid, first, others⟩ := bind_eq_ok_iff.mp ran
    obtain ⟨stack, ranBody⟩ := round_eq_ok_iff.mp first
    have start : Machine.Agree ⟨[element], A⟩ ⟨[element], B⟩ := ⟨rfl, agree⟩
    obtain ⟨⟨stack', mid'⟩, ranBody', agreeMid⟩ := machineRun_congr ranBody start
    obtain ⟨B', others', agree'⟩ := ih others agreeMid.frame
    exact ⟨B', bind_eq_ok_iff.mpr ⟨mid', round_eq_ok_iff.mpr ⟨stack', ranBody'⟩, others'⟩, agree'⟩

theorem run_congr {body : List Instruction} {iterable : Iterable} {A A' B : Frame}
    (ran : run body iterable A = .ok A') (agree : A.Agree B) :
    ∃ B', run body iterable B = .ok B' ∧ A'.Agree B' := by
  rw [run_eq_runItems] at ran ⊢
  exact runItems_congr ran agree

/-! ### The cells that a run fills -/

/-- Some instruction of the body stores to the cell of a variable. -/
def Stores (body : List Instruction) (u : Variable) : Prop :=
  ∃ v, .store v ∈ body.filterMap Instruction.access? ∧ u.SharesCell v

theorem stores_cons_iff {instr : Instruction} {rest : List Instruction} {u : Variable} :
    Stores (instr :: rest) u ↔
      (∃ v, instr.action? = some (.store v) ∧ u.SharesCell v) ∨ Stores rest u := by
  simp only [Stores, mem_accesses_cons, Instruction.access?_eq_some_iff, or_and_right, exists_or]

/-- Only a store changes a cell, and only its own. -/
theorem Performs.cell?_eq {action : Action} {m m' : Machine} (performed : Performs action m m')
    {u : Variable} (others : ∀ v, action = .store v → ¬ u.SharesCell v) :
    m'.frame.cell? u = m.frame.cell? u := by
  cases performed with
  | store => rw [Frame.cell?_store, if_neg (others _ rfl)]
  | _ => rfl

/-- Only a store to the same name changes what a variable reads as. -/
theorem Performs.load?_eq {action : Action} {m m' : Machine} (performed : Performs action m m')
    {u : Variable} (others : ∀ v, action = .store v → u.name ≠ v.name) :
    m'.frame.load? u = m.frame.load? u := by
  cases performed with
  | store => exact Frame.load?_store_of_name_ne _ (others _ rfl) _
  | _ => rfl

/-- A cell that is filled, by this action or before it, stays filled. -/
theorem Performs.cell?_isSome {action : Action} {m m' : Machine} (performed : Performs action m m')
    {u : Variable}
    (filled : (m.frame.cell? u).isSome ∨ ∃ v, action = .store v ∧ u.SharesCell v) :
    (m'.frame.cell? u).isSome := by
  by_cases stores : ∃ v, action = .store v ∧ u.SharesCell v
  · obtain ⟨v, rfl, shared⟩ := stores
    cases performed
    rw [Frame.cell?_store, if_pos shared]
    rfl
  · rw [performed.cell?_eq fun v store shared => stores ⟨v, store, shared⟩]
    exact filled.resolve_right stores

/-- A variable that has a value keeps having one. -/
theorem Performs.load?_isSome {action : Action} {m m' : Machine} (performed : Performs action m m')
    {u : Variable} (defined : (m.frame.load? u).isSome) : (m'.frame.load? u).isSome := by
  cases performed with
  | store => exact Frame.load?_store_isSome defined _ _
  | _ => exact defined

theorem machineRun_load?_isSome {body : List Instruction} {m m' : Machine}
    (ran : Machine.run body m = .ok m') {u : Variable} (defined : (m.frame.load? u).isSome) :
    (m'.frame.load? u).isSome := by
  induction body generalizing m with
  | nil =>
    cases ran
    exact defined
  | cons instr rest ih =>
    obtain ⟨action, mid, asked, performed, ranRest⟩ := run_cons_eq_ok_iff.mp ran
    exact ih ranRest (performed.load?_isSome defined)

theorem machineRun_load?_eq {body : List Instruction} {m m' : Machine}
    (ran : Machine.run body m = .ok m') {u : Variable}
    (others : ∀ v, .store v ∈ body.filterMap Instruction.access? → u.name ≠ v.name) :
    m'.frame.load? u = m.frame.load? u := by
  induction body generalizing m with
  | nil =>
    cases ran
    rfl
  | cons instr rest ih =>
    obtain ⟨action, mid, asked, performed, ranRest⟩ := run_cons_eq_ok_iff.mp ran
    rw [ih ranRest fun v stored => others v (mem_accesses_cons.mpr (.inr stored))]
    refine performed.load?_eq ?_
    rintro v rfl
    exact others v (mem_accesses_cons.mpr (.inl (Instruction.access?_eq_some_iff.mpr asked)))

theorem machineRun_cell?_eq {body : List Instruction} {m m' : Machine}
    (ran : Machine.run body m = .ok m') {u : Variable} (untouched : ¬ Stores body u) :
    m'.frame.cell? u = m.frame.cell? u := by
  induction body generalizing m with
  | nil =>
    cases ran
    rfl
  | cons instr rest ih =>
    obtain ⟨action, mid, asked, performed, ranRest⟩ := run_cons_eq_ok_iff.mp ran
    rw [ih ranRest fun stores => untouched (stores_cons_iff.mpr (.inr stores))]
    refine performed.cell?_eq ?_
    rintro v rfl shared
    exact untouched (stores_cons_iff.mpr (.inl ⟨v, asked, shared⟩))

theorem machineRun_cell?_isSome {body : List Instruction} {m m' : Machine}
    (ran : Machine.run body m = .ok m') {u : Variable}
    (filled : (m.frame.cell? u).isSome ∨ Stores body u) : (m'.frame.cell? u).isSome := by
  induction body generalizing m with
  | nil =>
    cases ran
    rcases filled with before | ⟨v, stored, -⟩
    · exact before
    · simp at stored
  | cons instr rest ih =>
    obtain ⟨action, mid, asked, performed, ranRest⟩ := run_cons_eq_ok_iff.mp ran
    refine ih ranRest ?_
    rcases filled with before | stores
    · exact .inl (performed.cell?_isSome (.inl before))
    · rcases stores_cons_iff.mp stores with ⟨v, asks, shared⟩ | later
      · have action_eq : action = .store v := Option.some.inj (asked.symm.trans asks)
        exact .inl (performed.cell?_isSome (.inr ⟨v, action_eq, shared⟩))
      · exact .inr later

/-- A run leaves the cells alone that its body does not store to. -/
theorem runItems_cell?_eq {body : List Instruction} {items : List Value} {frame frame' : Frame}
    (ran : runItems body items frame = .ok frame') {u : Variable} (untouched : ¬ Stores body u) :
    frame'.cell? u = frame.cell? u := by
  induction items generalizing frame with
  | nil =>
    cases ran
    rfl
  | cons element rest ih =>
    obtain ⟨mid, first, others⟩ := bind_eq_ok_iff.mp ran
    obtain ⟨stack, ranBody⟩ := round_eq_ok_iff.mp first
    rw [ih others]
    exact machineRun_cell?_eq ranBody untouched

/-- A run of one round or more fills every cell that the body stores to. -/
theorem runItems_cell?_isSome {body : List Instruction} {items : List Value} {frame frame' : Frame}
    (ran : runItems body items frame = .ok frame') {u : Variable}
    (filled : (frame.cell? u).isSome ∨ (items ≠ [] ∧ Stores body u)) : (frame'.cell? u).isSome := by
  induction items generalizing frame with
  | nil =>
    cases ran
    exact filled.resolve_right fun ⟨rounds, _⟩ => rounds rfl
  | cons element rest ih =>
    obtain ⟨mid, first, others⟩ := bind_eq_ok_iff.mp ran
    obtain ⟨stack, ranBody⟩ := round_eq_ok_iff.mp first
    exact ih others (.inl (machineRun_cell?_isSome ranBody (filled.imp_right And.right)))

end Literal

end AffineLoops
