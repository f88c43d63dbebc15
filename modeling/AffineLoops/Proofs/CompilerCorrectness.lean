import AffineLoops.Proofs.LoopRounds
import AffineLoops.Proofs.Progressions

/-!
An accelerated run leaves the frame that the literal run leaves, up to truth values read as integers.

* `WriteBack.cell?_apply`, `WriteBack.cell?_apply_of_not_stored`: what storing the results does to a cell.
* `Layout.mem_stores_iff`: the results are the numbers of the variables that the loop stores to.
* `apply_agree`: for a compiled loop and a progression of one element or more, storing the results gives a
  frame that agrees with the frame of the literal run.
-/

namespace AffineLoops

open Literal (Machine Stores)
open Move (acts)

/-! ### Bodies -/

/-- No name occurs in the body under two scopes. -/
def SingleScoped (body : List Instruction) : Prop :=
  ∀ a ∈ body.filterMap Instruction.access?, ∀ b ∈ body.filterMap Instruction.access?,
    a.var.name = b.var.name → a.var.scope = b.var.scope

instance (body : List Instruction) : Decidable (SingleScoped body) :=
  inferInstanceAs (Decidable (∀ a ∈ _, ∀ b ∈ _, _ → _))

/-- A variable of the body is known by its name. -/
theorem SingleScoped.var_eq {body : List Instruction} (single : SingleScoped body) {a b : Access}
    (ha : a ∈ body.filterMap Instruction.access?) (hb : b ∈ body.filterMap Instruction.access?)
    (names : a.var.name = b.var.name) : a.var = b.var := by
  have scopes := single a ha b hb names
  cases hu : a.var
  cases hv : b.var
  simp_all

section Target

variable {markers body : List Instruction} {target : Instruction} {counter : Variable}
  (marking : ∀ instr ∈ markers, instr.isMarker = true) (targets : target.access? = some (.store counter))

include marking

/-- Line markers access nothing. -/
theorem accesses_markers : markers.filterMap Instruction.access? = [] := by
  refine List.filterMap_eq_nil_iff.mpr fun instr member => ?_
  cases found : instr.access? with
  | none => rfl
  | some access =>
    rw [Instruction.access?_eq_some_iff, action?_of_isMarker (marking instr member)] at found
    cases access <;> cases found

include targets

/-- A round begins with the store of its element. -/
theorem machineRun_target (element : Value) (frame : Frame) :
    Machine.run (markers ++ target :: body) ⟨[element], frame⟩ =
      Machine.run body ⟨[], frame.store counter element⟩ := by
  induction markers with
  | nil =>
    have stepped : Machine.step target ⟨[element], frame⟩ = .ok ⟨[], frame.store counter element⟩ :=
      Literal.step_of_performs (Instruction.access?_eq_some_iff.mp targets) .store
    rw [List.nil_append, Machine.run, stepped]
  | cons marker markers ih =>
    have stepped : Machine.step marker ⟨[element], frame⟩ = .ok ⟨[element], frame⟩ :=
      Literal.step_of_performs (action?_of_isMarker (marking marker (.head _))) .skip
    rw [List.cons_append, Machine.run, stepped]
    exact ih fun instr member => marking instr (.tail _ member)

theorem mem_accesses_target {access : Access} :
    access ∈ (markers ++ target :: body).filterMap Instruction.access? ↔
      access = .store counter ∨ access ∈ body.filterMap Instruction.access? := by
  rw [List.filterMap_append, accesses_markers marking, List.nil_append, mem_accesses_cons, targets,
    Option.some.injEq, eq_comm]

/-- The cells that the loop stores to are those of its target and of what lives in slots. -/
theorem stores_target_iff {use : CounterUse} {u : Variable} :
    Stores (markers ++ target :: body) u ↔
      ∃ v, (Held body counter use v ∨ v = counter) ∧ u.SharesCell v := by
  simp only [Stores, mem_accesses_target marking targets, Access.store.injEq]
  constructor
  · rintro ⟨v, isTarget | stored, shared⟩
    · exact ⟨v, .inr isTarget, shared⟩
    · exact ⟨v, .inl (.inl stored), shared⟩
  · rintro ⟨v, (stored | ⟨isTarget, -⟩) | isTarget, shared⟩
    · exact ⟨v, .inr stored, shared⟩
    · exact ⟨v, .inl isTarget, shared⟩
    · exact ⟨v, .inl isTarget, shared⟩

/-- The loop knows its variables by their names. -/
theorem loopVariable_eq (single : SingleScoped (markers ++ target :: body)) {u v : Variable}
    (hu : LoopVariable body counter u) (hv : LoopVariable body counter v) (names : u.name = v.name) :
    u = v := by
  have accessed : ∀ w, LoopVariable body counter w →
      ∃ access ∈ (markers ++ target :: body).filterMap Instruction.access?, access.var = w := by
    rintro w (rfl | ⟨access, member, isVar⟩)
    · exact ⟨_, (mem_accesses_target marking targets).mpr (.inl rfl), rfl⟩
    · exact ⟨access, (mem_accesses_target marking targets).mpr (.inr member), isVar⟩
  obtain ⟨a, ha, rfl⟩ := accessed u hu
  obtain ⟨b, hb, rfl⟩ := accessed v hv
  exact single.var_eq ha hb names

end Target

/-! ### Storing the results -/

namespace WriteBack

variable {w : WriteBack} {u : Variable}

/-- A cell that no result is stored to keeps its content. -/
theorem cell?_apply_of_not_stored (frame : Frame) (others : ∀ entry ∈ w.stores, ¬ u.SharesCell entry.1) :
    (w.apply frame).cell? u = frame.cell? u := by
  rw [apply]
  generalize w.stores = stores at others
  induction stores generalizing frame with
  | nil => rfl
  | cons entry stores ih =>
    rw [List.foldl_cons, ih _ fun entry' member => others entry' (.tail _ member), Frame.cell?_store,
      if_neg (others entry (.head _))]

/-- A cell holds the result that is stored to it, if all the results for it are the same. -/
theorem cell?_apply (frame : Frame) {value : Value}
    (same : ∀ entry ∈ w.stores, u.SharesCell entry.1 → entry.2 = value)
    (stored : ∃ entry ∈ w.stores, u.SharesCell entry.1) : (w.apply frame).cell? u = some value := by
  -- for the induction: a cell that already holds the result keeps it
  have filled : frame.cell? u = some value ∨ ∃ entry ∈ w.stores, u.SharesCell entry.1 := .inr stored
  clear stored
  rw [apply]
  generalize w.stores = stores at same filled
  induction stores generalizing frame with
  | nil => simpa using filled
  | cons entry stores ih =>
    rw [List.foldl_cons]
    refine ih _ (fun entry' member => same entry' (.tail _ member)) ?_
    rw [Frame.cell?_store]
    by_cases shared : u.SharesCell entry.1
    · rw [if_pos shared, same entry (.head _) shared]
      exact .inl rfl
    · rw [if_neg shared]
      refine filled.imp_right ?_
      rintro ⟨entry', member, shared'⟩
      rcases List.mem_cons.mp member with rfl | later
      · exact absurd shared' shared
      · exact ⟨entry', later, shared'⟩

end WriteBack

theorem mem_hostValues_iff {keys : List SlotKey} {values : SlotKey → Int} {v : Variable} {value : Value} :
    (v, value) ∈ hostValues keys values ↔ .host v ∈ keys ∧ value = .int (values (.host v)) := by
  rw [hostValues, List.mem_filterMap]
  constructor
  · rintro ⟨key, member, found⟩
    cases key with
    | host u =>
      cases found
      exact ⟨member, rfl⟩
    | _ => cases found
  · rintro ⟨member, rfl⟩
    exact ⟨_, member, rfl⟩

section Results

variable {options : CompileOptions} {counter : Variable} {body : List Instruction} {loop : CompiledLoop}
  {c : Context} {layout : Layout options counter body loop} {slots : SlotKey → Int} {last : Nat}

/-- What goes back to the frame when the rounds are through. -/
def Layout.writeBack (layout : Layout options counter body loop) (c : Context) (slots : SlotKey → Int) :
    WriteBack :=
  ⟨hostValues layout.slots (acts c.inputs (closing counter layout.use) slots),
    loop.finalCounter c.inputs.shape⟩

/-- The target is stored on its own exactly if it has no slot. -/
theorem Layout.finalCounter_eq (layout : Layout options counter body loop) {shape : LoopShape} {element : Int}
    (isLast : shape.last = some element) :
    loop.finalCounter shape = if layout.use = .unused then some (counter, .int element) else none := by
  have isTarget : loop.counter = some counter := congrArg CompiledLoop.counter layout.loop_eq
  have apart : loop.storeCounter = decide (layout.use = .unused) :=
    congrArg CompiledLoop.storeCounter layout.loop_eq
  rw [CompiledLoop.finalCounter, isTarget, isLast, apart]
  simp

theorem Layout.mem_stores_iff (layout : Layout options counter body loop)
    (isLast : c.inputs.shape.last = some (c.element last)) {v : Variable} {value : Value} :
    (v, value) ∈ (layout.writeBack c slots).stores ↔
      (Held body counter layout.use v ∨ v = counter) ∧ value = .int (layout.result c last slots v) := by
  rw [WriteBack.stores, Layout.writeBack, List.mem_append, mem_hostValues_iff, layout.host_mem_slots_iff,
    layout.finalCounter_eq isLast, Layout.result]
  by_cases unused : layout.use = .unused
  · have apart : Held body counter layout.use v → v ≠ counter := by
      rintro held rfl
      exact layout.held_counter_iff.mp held unused
    by_cases isTarget : v = counter
    · have noSlot : ¬ Held body counter layout.use v := fun held => apart held isTarget
      simp [unused, isTarget, unused ▸ isTarget ▸ noSlot]
    · simp [unused, isTarget]
  · have held : v = counter → Held body counter layout.use v := by
      rintro rfl
      exact layout.held_counter_iff.mpr unused
    simp only [unused, if_false, Option.toList_none, List.not_mem_nil, or_false, false_and,
      or_iff_left_of_imp held]

/-- The cell of a variable that the loop stores to holds its number once the results are stored. -/
theorem Layout.cell?_writeBack (layout : Layout options counter body loop) (of : c.Of layout)
    (isLast : c.inputs.shape.last = some (c.element last)) (frame : Frame) {u v : Variable}
    (settles : Held body counter layout.use v ∨ v = counter) (shared : u.SharesCell v) :
    ((layout.writeBack c slots).apply frame).cell? u = some (.int (layout.result c last slots v)) := by
  have known : ∀ w, Held body counter layout.use w ∨ w = counter → c.known w := by
    rintro w (held | isTarget)
    · exact of.known ▸ held.loopVariable
    · exact of.known ▸ .inl isTarget
  refine WriteBack.cell?_apply frame ?_ ⟨(v, _), (layout.mem_stores_iff isLast).mpr ⟨settles, rfl⟩, shared⟩
  rintro ⟨w, value'⟩ member shared'
  obtain ⟨settles', rfl⟩ := (layout.mem_stores_iff isLast).mp member
  -- one name, one variable: the other entries for this cell are entries for `v`
  rw [c.apart w v (known w settles') (known v settles) (shared'.1.symm.trans shared.1)]

/-- Any other cell keeps its content. -/
theorem Layout.cell?_writeBack_of_not (layout : Layout options counter body loop)
    (isLast : c.inputs.shape.last = some (c.element last)) (frame : Frame) {u : Variable}
    (others : ∀ v, Held body counter layout.use v ∨ v = counter → ¬ u.SharesCell v) :
    ((layout.writeBack c slots).apply frame).cell? u = frame.cell? u := by
  apply WriteBack.cell?_apply_of_not_stored
  rintro ⟨v, value⟩ member
  exact others v ((layout.mem_stores_iff isLast).mp member).1

/-- Frames agree once the results are stored, if the literal run filled the same cells. -/
theorem Settled.agree {frame frame' : Frame} {full : List Instruction}
    (settled : Settled c layout last slots frame') (of : c.Of layout)
    (isLast : c.inputs.shape.last = some (c.element last))
    (stores : ∀ u, Stores full u ↔
      ∃ v, (Held body counter layout.use v ∨ v = counter) ∧ u.SharesCell v)
    (filled : ∀ u, Stores full u → (frame'.cell? u).isSome)
    (untouched : ∀ u, ¬ Stores full u → frame'.cell? u = frame.cell? u) :
    ((layout.writeBack c slots).apply frame).Agree frame' := by
  refine Frame.agree_iff_cell?.mpr fun u => ?_
  by_cases storing : Stores full u
  · obtain ⟨v, settles, shared⟩ := (stores u).mp storing
    obtain ⟨value, found⟩ := Option.isSome_iff_exists.mp (filled u storing)
    have reading : value.reading = .inl (layout.result c last slots v) := by
      refine settled v settles value (Frame.load?_of_cell? ?_)
      rw [← Frame.cell?_congr frame' shared]
      exact found
    rw [layout.cell?_writeBack of isLast frame settles shared, found, Option.map_some, Option.map_some,
      reading, Value.reading_int]
  · rw [untouched u storing, layout.cell?_writeBack_of_not isLast]
    intro v settles shared
    exact storing ((stores u).mpr ⟨v, settles, shared⟩)

end Results

/-! ### Whole runs -/

section Runs

variable {body : List Instruction} {options : CompileOptions} {headLine : Option Nat} {loop : CompiledLoop}
  {settings : Settings} {frame frame' : Frame} {writeBack : WriteBack} {p : Progression}

/-- The numbers of a run over a whole progression. -/
def Progression.shape (p : Progression) : LoopShape := ⟨p.start, p.step, p.length, p.last?⟩

/-- A run of one round or more goes over at least one element. -/
theorem toList_ne_nil (rounds : 0 < p.length) : (Iterable.range p).toList ≠ [] := by
  have positive : p.length.toNat ≠ 0 := by omega
  simp [Iterable.toList, Progression.toList, positive]

/-- A literal run over a progression fills the cells that the body stores to, and no others. -/
theorem run_fills (ran : Literal.run body (.range p) frame = .ok frame') (rounds : 0 < p.length)
    (u : Variable) :
    (Stores body u → (frame'.cell? u).isSome) ∧ (¬ Stores body u → frame'.cell? u = frame.cell? u) := by
  rw [Literal.run_eq_runItems] at ran
  exact ⟨fun stores => Literal.runItems_cell?_isSome ran (.inr ⟨toList_ne_nil rounds, stores⟩),
    fun untouched => Literal.runItems_cell?_eq ran untouched⟩

/-- The context of a run over a progression, and what the run returns. -/
structure Context.Ran {counter : Variable} (c : Context) (layout : Layout options counter body loop)
    (p : Progression) (types : KindSet) (writeBack : WriteBack) : Prop extends c.Of layout where
  shape : c.inputs.shape = p.shape
  loaded : ∃ state, loop.loadState c.frame types = .ok state
  folded : loop.foldedInts c.frame types = .ok c.inputs.folded
  last : c.inputs.shape.last = some (c.element (p.length.toNat - 1))
  result : writeBack =
    layout.writeBack c (layout.slotsAfter c.inputs p.length.toNat (initialValues c.frame types))

theorem Context.Ran.element_eq {counter : Variable} {c : Context} {layout : Layout options counter body loop}
    {types : KindSet} (ran : c.Ran layout p types writeBack) (index : Nat) :
    p.element index = c.element index := by
  rw [Context.element, Inputs.element, ran.shape]
  rfl

/-- A run that succeeds has a context. -/
theorem Layout.ran_of_execute {counter : Variable} {markers : List Instruction} {target : Instruction}
    (layout : Layout options counter body loop) (marking : ∀ instr ∈ markers, instr.isMarker = true)
    (targets : target.access? = some (.store counter)) (single : SingleScoped (markers ++ target :: body))
    (aligned : p.Aligned) (rounds : 0 < p.length)
    (executed : loop.execute p.shape frame settings = .ok writeBack) :
    ∃ c : Context, c.frame = frame ∧ c.Ran layout p settings.types writeBack := by
  obtain ⟨state, ints, loaded, folded, rfl⟩ := layout.laid.of_execute_eq_ok rounds executed
  obtain ⟨values, computed, converted⟩ := bind_eq_ok_iff.mp folded
  let c := layout.context frame p.shape computed converted fun u v => loopVariable_eq marking targets single
  have last : p.shape.last = some (c.element (p.length.toNat - 1)) := by
    have isLast : p.last? = some (p.start + p.step * (p.length - 1)) := aligned.last?_eq rounds
    rwa [show p.length - 1 = ((p.length.toNat - 1 : Nat) : Int) by omega] at isLast
  exact ⟨c, rfl, ⟨⟨congrArg CompiledLoop.consts layout.loop_eq, rfl, rfl⟩, rfl, ⟨state, loaded⟩, folded, last,
    rfl⟩⟩

/-- A loop that was compiled from a target and the rest of a body leaves what the literal run leaves. -/
theorem Layout.apply_agree {counter : Variable} {markers : List Instruction} {target : Instruction}
    (layout : Layout options counter body loop) (marking : ∀ instr ∈ markers, instr.isMarker = true)
    (targets : target.access? = some (.store counter)) (single : SingleScoped (markers ++ target :: body))
    (aligned : p.Aligned) (rounds : 0 < p.length)
    (executed : loop.execute p.shape frame settings = .ok writeBack)
    (ran : Literal.run (markers ++ target :: body) (.range p) frame = .ok frame') :
    (writeBack.apply frame).Agree frame' := by
  obtain ⟨c, rfl, context⟩ := layout.ran_of_execute marking targets single aligned rounds executed
  obtain ⟨state, loaded⟩ := context.loaded
  have count_eq : p.length.toNat = p.length.toNat - 1 + 1 := by omega
  have ranRounds : Literal.runRange (markers ++ target :: body) p (p.length.toNat - 1 + 1) 0 c.frame =
      .ok frame' := count_eq ▸ ran
  have settled := (between_start context.toOf loaded).settled context.toOf context.element_eq
    (machineRun_target marking targets) ranRounds
  rw [← count_eq, Nat.zero_add] at settled
  rw [context.result]
  exact settled.agree context.toOf context.last (fun u => stores_target_iff marking targets)
    (fun u => (run_fills ran rounds u).1) (fun u => (run_fills ran rounds u).2)

/-- Storing the results of an accelerated run gives what the literal run leaves. -/
theorem apply_agree (single : SingleScoped body)
    (compiled : CompiledLoop.compile body options headLine = .ok loop) (aligned : p.Aligned)
    (rounds : 0 < p.length) (executed : loop.execute p.shape frame settings = .ok writeBack)
    (ran : Literal.run body (.range p) frame = .ok frame') : (writeBack.apply frame).Agree frame' := by
  obtain ⟨markers, rest, rfl, marking, ⟨rfl, rfl⟩ | ⟨target, after, counter, rfl, targets, ⟨layout⟩⟩⟩ :=
    compile_cases compiled
  · obtain ⟨state, ints, -, -, rfl⟩ := laid_nothing.of_execute_eq_ok rounds executed
    refine Frame.agree_iff_cell?.mpr fun u => ?_
    have untouched : ¬ Stores (markers ++ []) u := by
      rintro ⟨v, stored, -⟩
      rw [List.append_nil, accesses_markers marking] at stored
      cases stored
    rw [(run_fills ran rounds u).2 untouched]
    rfl
  · exact layout.apply_agree marking targets single aligned rounds executed ran

/-- Compiler correctness. If no name of the body has two scopes, the body compiles, and both the accelerated
and the literal run over a progression with elements succeed, then storing the results defines the same
locals and globals as the literal run, and the two values of each agree. The options of the compilation and
the settings of the run need not fit together. -/
theorem compiled_run_agrees (single : SingleScoped body)
    (compiled : CompiledLoop.compile body options headLine = .ok loop) (built : p.Built)
    (elements : p.isEmpty = false) (executed : loop.execute p.shape frame settings = .ok writeBack)
    (ran : Literal.run body (.range p) frame = .ok frame') : (writeBack.apply frame).Agree frame' :=
  apply_agree single compiled built.aligned (built.aligned.length_pos elements) executed ran

end Runs

/-- One round of `s += i * k`, where `k` is a global that the loop leaves alone. -/
def weightedSum : List Instruction :=
  [⟨.store .fast, .name "i"⟩, ⟨.load .fast, .name "s"⟩, ⟨.load .fast, .name "i"⟩, ⟨.load .global, .name "k"⟩,
    ⟨.binary .multiply, .none⟩, ⟨.inplace .add, .none⟩, ⟨.store .fast, .name "s"⟩]

def weightedSumLoop : CompiledLoop where
  code :=
    [.mov (.var 0) (.param .start), .loop (.param .itersCount), .mov (.var 2) (.var 1),
      .mov (.var 3) (.var 0), .mul (.var 3) (.const 0), .add (.var 2) (.var 3), .mov (.var 3) (.value 0),
      .mov (.var 1) (.var 2), .mov (.var 2) (.value 0), .add (.var 0) (.param .step), .endLoop,
      .sub (.var 0) (.param .step)]
  slots :=
    [⟨.host ⟨.fast, "i"⟩, true⟩, ⟨.host ⟨.fast, "s"⟩, true⟩, ⟨.stack 0, false⟩, ⟨.stack 1, false⟩]
  consts := [[.load ⟨.global, "k"⟩]]
  counter := some ⟨.fast, "i"⟩
  counterUse := .readOnly
  storeCounter := false

/-- The variables of the loop, with the given sum to start from. -/
def weightedSumFrame (sum : Value) : Frame :=
  (Frame.empty.store ⟨.fast, "s"⟩ sum).store ⟨.global, "k"⟩ (.int 3)

/-- What the rounds for 2, 5 and 8 leave. -/
def weightedSumResult : WriteBack := ⟨[(⟨.fast, "i"⟩, .int 8), (⟨.fast, "s"⟩, .int 46)], none⟩

/-- The sum starts from a truth value. -/
theorem weightedSum_run_agrees :
    CompiledLoop.compile weightedSum default none = .ok weightedSumLoop ∧
      Progression.ofBounds 2 9 3 = .ok ⟨2, 11, 3⟩ ∧
      weightedSumLoop.execute (Progression.shape ⟨2, 11, 3⟩) (weightedSumFrame (.bool true)) default =
        .ok weightedSumResult ∧
      ∃ frame', Literal.run weightedSum (.range ⟨2, 11, 3⟩) (weightedSumFrame (.bool true)) = .ok frame' ∧
        (weightedSumResult.apply (weightedSumFrame (.bool true))).Agree frame' := by
  have compiled : CompiledLoop.compile weightedSum default none = .ok weightedSumLoop := by decide +kernel
  have bounds : Progression.ofBounds 2 9 3 = .ok ⟨2, 11, 3⟩ := by decide
  have executed : weightedSumLoop.execute (Progression.shape ⟨2, 11, 3⟩) (weightedSumFrame (.bool true))
      default = .ok weightedSumResult := by decide +kernel
  have succeeds : (Literal.run weightedSum (.range ⟨2, 11, 3⟩)
      (weightedSumFrame (.bool true))).toOption.isSome := by decide +kernel
  obtain ⟨frame', ran⟩ := exists_eq_ok succeeds
  exact ⟨compiled, bounds, executed, frame', ran,
    compiled_run_agrees (by decide +kernel) compiled (.ofBounds bounds) rfl executed ran⟩

end AffineLoops
