import AffineLoops.Proofs.LoweringSteps

/-!
The layout of a compiled loop. A body's variables are announced before any code is emitted: what the loop
stores to lives in a slot, what it only reads is a constant. The code is then one counted loop whose block
is the lowered body, between the moves that keep the loop target.

* `announced_registerAll`: slots, bindings and constants after the announcements.
* `layout_of_compileRest`: the parts of a compiled loop and where they come from.
-/

namespace AffineLoops

open Draft (Emits Numbers)

/-! ### Announcements -/

/-- The variables seen so far have been announced, those that are stored to as slots and the others as
constants that read them. -/
structure Announced (stored seen : Variable → Prop) (d : Draft) : Prop where
  stack : d.stack = []
  code : d.code = []
  nodup : d.slots.Nodup
  slots : ∀ key, key ∈ d.slots ↔ ∃ v, key = .host v ∧ seen v ∧ stored v
  bound : ∀ v, (d.bindings.lookup v).isSome ↔ seen v
  slot : ∀ v, d.bindings.lookup v = some .slot → stored v
  const : ∀ v index, d.bindings.lookup v = some (.const index) →
    ¬ stored v ∧ d.consts[index]? = some [.load v]
  consts : ∀ program ∈ d.consts, ∃ v, program = [.load v]

namespace Announced

variable {stored seen seen' : Variable → Prop} {d : Draft}

theorem congr (announced : Announced stored seen d) (same : ∀ v, seen v ↔ seen' v) :
    Announced stored seen' d := by
  have eq : seen = seen' := funext fun v => propext (same v)
  exact eq ▸ announced

theorem empty : Announced stored (fun _ => False) Draft.empty := by
  constructor <;> simp [Draft.empty]

theorem lookup_bind (d : Draft) (u v : Variable) (binding : Binding) :
    (d.bind v binding).bindings.lookup u = if u = v then some binding else d.bindings.lookup u := by
  rw [Draft.bind, List.lookup_cons]
  by_cases same : u = v
  · simp [same]
  · simp [same, beq_eq_false_iff_ne.mpr same]

/-- A variable that is stored to gets a slot. -/
theorem bindSlot (announced : Announced stored seen d) {v : Variable} (isStored : stored v) :
    Announced stored (fun u => seen u ∨ u = v) ((d.slot (.host v)).2.bind v .slot) := by
  rw [Draft.slot_eq]
  refine ⟨announced.stack, announced.code, Draft.nodup_withKey announced.nodup _, ?_, ?_, ?_, ?_,
    announced.consts⟩
  · intro key
    rw [Draft.bind, Draft.mem_withKey, announced.slots]
    constructor
    · rintro (⟨u, rfl, seenU, storedU⟩ | rfl)
      · exact ⟨u, rfl, .inl seenU, storedU⟩
      · exact ⟨v, rfl, .inr rfl, isStored⟩
    · rintro ⟨u, rfl, seenU | rfl, storedU⟩
      · exact .inl ⟨u, rfl, seenU, storedU⟩
      · exact .inr rfl
  · intro u
    rw [lookup_bind, ← announced.bound u]
    split <;> simp_all
  · intro u
    rw [lookup_bind]
    split
    · simp_all
    · exact announced.slot u
  · intro u index
    rw [lookup_bind]
    split
    · simp
    · exact announced.const u index

/-- A variable that is only read becomes a constant. -/
theorem bindConst (announced : Announced stored seen d) {v : Variable} (readOnly : ¬ stored v) :
    Announced stored (fun u => seen u ∨ u = v)
      ((d.constant [.load v]).2.bind v (.const (d.constant [.load v]).1)) := by
  have constant : d.constant [.load v] = (d.consts.length, { d with consts := d.consts ++ [[.load v]] }) := rfl
  rw [constant]
  refine ⟨announced.stack, announced.code, announced.nodup, ?_, ?_, ?_, ?_, ?_⟩
  · intro key
    rw [Draft.bind, announced.slots]
    constructor
    · rintro ⟨u, rfl, seenU, storedU⟩
      exact ⟨u, rfl, .inl seenU, storedU⟩
    · rintro ⟨u, rfl, seenU | rfl, storedU⟩
      · exact ⟨u, rfl, seenU, storedU⟩
      · contradiction
  · intro u
    rw [lookup_bind, ← announced.bound u]
    split <;> simp_all
  · intro u
    rw [lookup_bind]
    split
    · simp
    · exact announced.slot u
  · intro u index
    rw [lookup_bind]
    split
    · rename_i same
      rintro ⟨⟩
      exact ⟨same ▸ readOnly, by simp [Draft.bind, same]⟩
    · intro bound
      obtain ⟨notStored, reads⟩ := announced.const u index bound
      refine ⟨notStored, ?_⟩
      rw [Draft.bind, List.getElem?_append_left (List.getElem?_eq_some_iff.mp reads).1]
      exact reads
  · intro program member
    rcases List.mem_append.mp member with old | new
    · exact announced.consts program old
    · exact ⟨v, List.mem_singleton.mp new⟩

/-- One more variable is announced. -/
theorem register (announced : Announced stored seen d) {v : Variable} {flag : Bool}
    (sound : flag = true → stored v) (complete : flag = false → stored v → seen v) :
    Announced stored (fun u => seen u ∨ u = v) (d.register v flag) := by
  have again : seen v → Announced stored (fun u => seen u ∨ u = v) d := fun seenV =>
    announced.congr fun u => ⟨.inl, fun either => either.elim id fun same => same ▸ seenV⟩
  have seen_of_bound : ∀ binding, d.bindings.lookup v = some binding → seen v := fun binding bound =>
    (announced.bound v).mp (by simp [bound])
  cases bound : d.bindings.lookup v with
  | none =>
    have new : ¬ seen v := fun seenV => by simpa [bound] using (announced.bound v).mpr seenV
    cases flag with
    | true =>
      simp only [Draft.register, Draft.binding?, bound]
      exact announced.bindSlot (sound rfl)
    | false =>
      simp only [Draft.register, Draft.binding?, bound]
      exact announced.bindConst fun isStored => new (complete rfl isStored)
  | some binding =>
    cases flag with
    | true =>
      cases binding with
      | slot =>
        simp only [Draft.register, Draft.binding?, bound]
        exact again (seen_of_bound _ bound)
      | const index => exact absurd (sound rfl) (announced.const v index bound).1
    | false =>
      simp only [Draft.register, Draft.binding?, bound]
      exact again (seen_of_bound _ bound)

theorem foldl_register (announced : Announced stored seen d) (flag : Variable → Bool)
    (accesses : List Access) (sound : ∀ v, flag v = true → stored v)
    (complete : ∀ v, flag v = false → stored v → seen v) :
    Announced stored (fun u => seen u ∨ ∃ access ∈ accesses, access.var = u)
      (accesses.foldl (fun d access => d.register access.var (flag access.var)) d) := by
  induction accesses generalizing d seen with
  | nil => exact announced.congr fun u => by simp
  | cons access rest ih =>
    have first := announced.register (sound access.var) (complete access.var)
    have others := ih first fun v off isStored => .inl (complete v off isStored)
    exact others.congr fun u => by simp [or_assoc, eq_comm]

end Announced

/-- The variables whose values live in slots while the loop runs: those that the rest of the body stores
to, and the loop target unless nothing looks at it. -/
def Held (body : List Instruction) (counter : Variable) (use : CounterUse) (v : Variable) : Prop :=
  .store v ∈ body.filterMap Instruction.access? ∨ (v = counter ∧ use ≠ .unused)

/-- The variables of a compiled body. -/
def Accessed (body : List Instruction) (counter : Variable) (use : CounterUse) (v : Variable) : Prop :=
  (∃ access ∈ body.filterMap Instruction.access?, access.var = v) ∨ (v = counter ∧ use ≠ .unused)

theorem Held.accessed {body : List Instruction} {counter : Variable} {use : CounterUse} {v : Variable}
    (held : Held body counter use v) : Accessed body counter use v :=
  held.imp_left fun stored => ⟨_, stored, rfl⟩

theorem announced_registerAll (body : List Instruction) (counter : Variable) (use : CounterUse) :
    Announced (Held body counter use) (Accessed body counter use)
      (CompiledLoop.registerAll body
        (if use = .unused then Draft.empty else Draft.empty.register counter true)) := by
  have target : Announced (Held body counter use) (fun v => v = counter ∧ use ≠ .unused)
      (if use = .unused then Draft.empty else Draft.empty.register counter true) := by
    split
    · rename_i unused
      exact Announced.empty.congr fun v => by simp [unused]
    · rename_i looked
      have registered : Announced (Held body counter use) _ (Draft.empty.register counter true) :=
        Announced.empty.register (fun _ => .inr ⟨rfl, looked⟩) (by simp)
      exact registered.congr fun v => by simp [looked]
  have all := target.foldl_register (fun v => decide (.store v ∈ body.filterMap Instruction.access?))
    (body.filterMap Instruction.access?) (fun v on => .inl (of_decide_eq_true on))
    (fun v off held => held.resolve_left (of_decide_eq_false off))
  exact all.congr fun v => or_comm

/-! ### The use of the target -/

/-- A target that the body stores to is kept as an overwritten one. -/
theorem not_stored_of_counterUse {options : CompileOptions} {counter : Variable} {body : List Instruction}
    (notMutated : CompiledLoop.counterUseOf options counter body ≠ .mutated) :
    .store counter ∉ body.filterMap Instruction.access? := by
  intro stored
  refine notMutated ?_
  unfold CompiledLoop.counterUseOf CounterUse.classify
  split
  · exact if_pos stored
  · rfl

/-- A target that the body accesses is looked at. -/
theorem not_accessed_of_unused {options : CompileOptions} {counter : Variable} {body : List Instruction}
    (unused : CompiledLoop.counterUseOf options counter body = .unused) {access : Access}
    (member : access ∈ body.filterMap Instruction.access?) : access.var ≠ counter := by
  unfold CompiledLoop.counterUseOf CounterUse.classify at unused
  rintro rfl
  split at unused
  · dsimp only at unused
    split at unused
    · cases unused
    · split at unused
      · cases unused
      · rename_i notStored notLoaded
        cases access
        · exact notLoaded member
        · exact notStored member
  · cases unused

/-! ### The parts of a compiled loop -/

section Target

variable (counter : Variable) (use : CounterUse)

/-- The progression starts in its slot. -/
def opening : List Move :=
  match CompiledLoop.serviceSlot counter use with
  | some key => [⟨.mov, key, .param .start⟩]
  | none => []

/-- A target that the body overwrites is set anew in every round. -/
def renewing : List Move :=
  match use with
  | .mutated => [⟨.mov, .host counter, .slot .counter⟩]
  | _ => []

/-- The progression goes on by a step. -/
def advancing : List Move :=
  match CompiledLoop.serviceSlot counter use with
  | some key => [⟨.add, key, .param .step⟩]
  | none => []

/-- A target that carries the progression goes back to the last element. -/
def closing : List Move :=
  match use with
  | .readOnly => [⟨.sub, .host counter, .param .step⟩]
  | _ => []

/-- The moves of a compiled loop around those of its body. -/
def loopMoves (moves : List Move) : MoveLoop :=
  ⟨opening counter use, renewing counter use ++ (moves ++ advancing counter use), closing counter use⟩

/-- A move that keeps the loop target: it names the target and the progression at most, and it neither
multiplies nor reads a constant. -/
structure KeepsTarget (m : Move) : Prop where
  looked : use ≠ .unused
  keys : ∀ key ∈ m.keys, key = .host counter ∨ key = .counter
  verb : m.verb ≠ .mul
  src : ∀ index, m.src ≠ .const index

variable {counter use}

theorem mem_loopMoves {moves : List Move} {m : Move} (within : m ∈ (loopMoves counter use moves).moves) :
    m ∈ moves ∨ KeepsTarget counter use m := by
  cases use with
  | unused => exact .inl (by simpa [MoveLoop.moves, loopMoves, opening, renewing, advancing, closing,
      CompiledLoop.serviceSlot] using within)
  | readOnly =>
    simp only [MoveLoop.moves, loopMoves, opening, renewing, advancing, closing, CompiledLoop.serviceSlot,
      List.mem_append, List.mem_cons, List.not_mem_nil, or_false, false_or] at within
    rcases within with (rfl | inBody | rfl) | rfl
    case inr.inl => exact .inl inBody
    all_goals exact .inr ⟨by simp, by simp [Move.keys, Place.keys], by simp, by simp⟩
  | mutated =>
    simp only [MoveLoop.moves, loopMoves, opening, renewing, advancing, closing, CompiledLoop.serviceSlot,
      List.mem_append, List.mem_cons, List.not_mem_nil, or_false] at within
    rcases within with rfl | rfl | inBody | rfl
    case inr.inr.inl => exact .inl inBody
    all_goals exact .inr ⟨by simp, by simp [Move.keys, Place.keys], by simp, by simp⟩

end Target

/-- A loop emitted in its three parts is a loop of moves in numbered slots. -/
theorem emits_loop (loop : MoveLoop) {start opened closed finish : Draft.Output}
    (before : Emits loop.before start opened)
    (block : Emits loop.block ⟨opened.slots, opened.code ++ [.loop (.param .itersCount)]⟩ closed)
    (after : Emits loop.after ⟨closed.slots, closed.code ++ [.endLoop]⟩ finish) :
    Numbers loop.moves start.slots finish.slots ∧ finish.code = start.code ++ loop.number finish.slots := by
  refine ⟨(before.toNumbers.trans block.toNumbers).trans after.toNumbers, ?_⟩
  rw [after.code, block.code, before.code, MoveLoop.number, MoveLoop.code,
    Move.map_number_of_prefix after.grown block.known,
    Move.map_number_of_prefix (block.grown.trans after.grown) before.known]
  simp

namespace Draft

theorem prologue_draws (counter : Variable) (use : CounterUse) (d : Draft) :
    ∃ opened, Draws (opening counter use) d opened ∧
      Draws (renewing counter use) (opened.push (.loop (.param .itersCount)))
        (CompiledLoop.prologue counter use d) := by
  cases use with
  | unused => exact ⟨d, ⟨.refl _, rfl⟩, ⟨.refl _, rfl⟩⟩
  | readOnly => exact ⟨_, emit_draws .mov (.host counter) (.param .start) d, ⟨.refl _, rfl⟩⟩
  | mutated =>
    exact ⟨_, emit_draws .mov .counter (.param .start) d,
      emit_draws .mov (.host counter) (.slot .counter) _⟩

theorem epilogue_draws (counter : Variable) (use : CounterUse) (d : Draft) :
    ∃ closed, Draws (advancing counter use) d closed ∧
      Draws (closing counter use) (closed.push .endLoop) (CompiledLoop.epilogue counter use d) := by
  cases use with
  | unused => exact ⟨d, ⟨.refl _, rfl⟩, ⟨.refl _, rfl⟩⟩
  | readOnly =>
    exact ⟨_, emit_draws .add (.host counter) (.param .step) d,
      emit_draws .sub (.host counter) (.param .step) _⟩
  | mutated => exact ⟨_, emit_draws .add .counter (.param .step) d, ⟨.refl _, rfl⟩⟩

end Draft

/-- How a compiled loop comes about: from the announcement of its variables, by the lowering of what follows
the store into the loop target. -/
structure Layout (options : CompileOptions) (counter : Variable) (body : List Instruction)
    (loop : CompiledLoop) where
  use : CounterUse
  start : Draft
  moves : List Move
  finish : Sketch
  slots : List SlotKey
  use_eq : use = CompiledLoop.counterUseOf options counter body
  start_eq : start = CompiledLoop.registerAll body
    (if use = .unused then Draft.empty else Draft.empty.register counter true)
  announced : Announced (Held body counter use) (Accessed body counter use) start
  lowers : LowersAll options body start.sketch moves finish
  stack : finish.stack = []
  numbers : Numbers (loopMoves counter use moves).moves start.slots slots
  loop_eq : loop = ⟨(loopMoves counter use moves).number slots, slots.map fun key => ⟨key, key.isHost⟩,
    finish.consts, some counter, use, decide (use = .unused)⟩

theorem layout_of_compileRest {options : CompileOptions} {line : Option Nat} {counter : Variable}
    {body : List Instruction} {loop : CompiledLoop}
    (compiled : CompiledLoop.compileRest options line counter body = .ok loop) :
    Nonempty (Layout options counter body loop) := by
  unfold CompiledLoop.compileRest at compiled
  obtain ⟨⟨line', lowered⟩, loweredBody, finished⟩ := bind_eq_ok_iff.mp compiled
  have announced := announced_registerAll body counter (CompiledLoop.counterUseOf options counter body)
  generalize use_eq : CompiledLoop.counterUseOf options counter body = use at *
  generalize start_eq : CompiledLoop.registerAll body _ = start at *
  obtain ⟨opened, opens, renews⟩ := Draft.prologue_draws counter use start
  have sketch : (CompiledLoop.prologue counter use start).sketch = start.sketch :=
    renews.sketch.trans opens.sketch
  obtain ⟨moves, lowers, emits⟩ := lowersAll_of_lowerBody loweredBody fun v accessed => by
    rw [show (CompiledLoop.prologue counter use start).bindings = start.bindings from
      congrArg Sketch.bindings sketch]
    exact (announced.bound v).mpr (.inl ⟨_, accessed, rfl⟩)
  obtain ⟨closed, advances, closes⟩ := Draft.epilogue_draws counter use lowered
  dsimp only at finished
  split at finished
  · rename_i isEmpty
    have block : Emits (loopMoves counter use moves).block _ _ :=
      renews.emits.trans (emits.trans advances.emits)
    obtain ⟨numbers, code⟩ := emits_loop (loopMoves counter use moves) opens.emits block closes.emits
    have consts : (CompiledLoop.epilogue counter use lowered).consts = lowered.consts :=
      congrArg Sketch.consts (closes.sketch.trans advances.sketch)
    rw [sketch] at lowers
    cases finished
    refine ⟨⟨use, start, moves, lowered.sketch, _, use_eq.symm, start_eq.symm, announced, lowers,
      List.isEmpty_iff.mp isEmpty, numbers, ?_⟩⟩
    rw [show start.output.code = [] from announced.code, List.nil_append] at code
    rw [CompiledLoop.ofDraft, consts, ← code]
    simp [Draft.output, Draft.sketch]
  · cases finished

namespace Layout

variable {options : CompileOptions} {counter : Variable} {body : List Instruction} {loop : CompiledLoop}

theorem nodup (layout : Layout options counter body loop) : layout.slots.Nodup :=
  layout.numbers.nodup layout.announced.nodup

/-- The slots are those of the variables that live in slots, the progression's own and the stack's. -/
theorem key_cases (layout : Layout options counter body loop) {key : SlotKey}
    (member : key ∈ layout.slots) :
    (∃ v, Held body counter layout.use v ∧ key = .host v) ∨ key = .counter ∨ ∃ depth, key = .stack depth := by
  rcases layout.numbers.fresh key member with announced | ⟨m, within, named⟩
  · obtain ⟨v, rfl, -, held⟩ := (layout.announced.slots key).mp announced
    exact .inl ⟨v, held, rfl⟩
  · rcases mem_loopMoves within with inBody | keeps
    · rcases layout.lowers.keys layout.announced.slot (fun v stored => .inl stored) inBody named with
        onStack | ⟨v, held, rfl⟩
      · exact .inr (.inr onStack)
      · exact .inl ⟨v, held, rfl⟩
    · rcases keeps.keys key named with rfl | rfl
      · exact .inl ⟨counter, .inr ⟨rfl, keeps.looked⟩, rfl⟩
      · exact .inr (.inl rfl)

/-- The variables with a slot are those that live in slots. -/
theorem host_mem_slots_iff (layout : Layout options counter body loop) {v : Variable} :
    .host v ∈ layout.slots ↔ Held body counter layout.use v := by
  constructor
  · intro member
    rcases layout.key_cases member with ⟨u, held, same⟩ | same | ⟨depth, same⟩
    · cases same
      exact held
    · cases same
    · cases same
  · intro held
    exact layout.numbers.grown.subset ((layout.announced.slots _).mpr ⟨v, rfl, held.accessed, held⟩)

end Layout

/-! ### Bodies with a target and without -/

theorem skipMarkers_eq {line line' : Option Nat} {body rest : List Instruction}
    (skipped : CompiledLoop.skipMarkers line body = (line', rest)) :
    ∃ markers, body = markers ++ rest ∧ ∀ instr ∈ markers, instr.isMarker = true := by
  induction body generalizing line with
  | nil =>
    cases skipped
    exact ⟨[], rfl, by simp⟩
  | cons instr body ih =>
    rw [CompiledLoop.skipMarkers] at skipped
    split at skipped
    · rename_i marker
      obtain ⟨markers, rfl, all⟩ := ih skipped
      exact ⟨instr :: markers, rfl, by simpa [marker] using all⟩
    · cases skipped
      exact ⟨[], rfl, by simp⟩

/-- What follows the leading line markers of a body starts with the store into its target. -/
theorem dropWhile_markers {markers rest : List Instruction} {target : Instruction} {counter : Variable}
    (marking : ∀ instr ∈ markers, instr.isMarker = true) (targets : target.access? = some (.store counter)) :
    (markers ++ target :: rest).dropWhile Instruction.isMarker = target :: rest := by
  have notMarker : ¬ target.isMarker = true := by
    intro marker
    rw [Instruction.access?_eq_some_iff, action?_of_isMarker marker] at targets
    cases targets
  rw [List.dropWhile_append_of_pos marking, List.dropWhile_cons_of_neg notMarker]

/-- A body that compiles is line markers and then nothing, or a store to the loop target and a rest that
compiles. -/
theorem compile_cases {body : List Instruction} {options : CompileOptions} {headLine : Option Nat}
    {loop : CompiledLoop} (compiled : CompiledLoop.compile body options headLine = .ok loop) :
    ∃ markers rest, body = markers ++ rest ∧ (∀ instr ∈ markers, instr.isMarker = true) ∧
      ((rest = [] ∧ loop = ⟨(⟨[], [], []⟩ : MoveLoop).number [], [], [], none, .unused, false⟩) ∨
        ∃ target after counter, rest = target :: after ∧ target.access? = some (.store counter) ∧
          Nonempty (Layout options counter after loop)) := by
  unfold CompiledLoop.compile at compiled
  split at compiled
  · rename_i skipped
    obtain ⟨markers, rfl, all⟩ := skipMarkers_eq skipped
    cases compiled
    exact ⟨markers, [], rfl, all, .inl ⟨rfl, rfl⟩⟩
  · rename_i line target after skipped
    obtain ⟨markers, rfl, all⟩ := skipMarkers_eq skipped
    split at compiled
    · rename_i counter access
      exact ⟨markers, _, rfl, all, .inr ⟨target, after, counter, rfl, access, layout_of_compileRest compiled⟩⟩
    · cases compiled

end AffineLoops
