import AffineLoops.Proofs.CompilerCorrectness

/-!
What a run writes. The keys of a compiled loop's slots are distinct, the host variables among them are those
that live in slots, and a target that has no slot is stored on its own. So the results of a run name every
variable that the body stores to, each of them once, and no other; and storing them changes no other cell.

* `nodup_hostValues`, `mem_hostValues_variables`: the variables that go back from the slots.
* `Layout.nodup_variables`, `Layout.mem_variables_iff`: with the target that is kept outside the slots.
-/

namespace AffineLoops

/-- The variables that results are stored to, the target last. -/
def WriteBack.variables (w : WriteBack) : List Variable := w.stores.map Prod.fst

/-! ### The variables of the slots -/

section Slots

variable {keys : List SlotKey}

theorem mem_hostValues_variables {values : SlotKey → Int} {v : Variable} :
    v ∈ (hostValues keys values).map Prod.fst ↔ .host v ∈ keys := by
  rw [List.mem_map]
  constructor
  · rintro ⟨⟨u, value⟩, stored, rfl⟩
    exact (mem_hostValues_iff.mp stored).1
  · intro member
    exact ⟨(v, .int (values (.host v))), mem_hostValues_iff.mpr ⟨member, rfl⟩, rfl⟩

/-- Distinct slots go back to distinct variables. -/
theorem nodup_hostValues (nodup : keys.Nodup) (values : SlotKey → Int) :
    ((hostValues keys values).map Prod.fst).Nodup := by
  rw [hostValues, List.map_filterMap]
  refine nodup.filterMap ?_
  intro key key' v found found'
  cases key <;> cases key' <;> simp_all

end Slots

/-! ### The variables of a compiled loop -/

namespace Layout

variable {options : CompileOptions} {counter : Variable} {body : List Instruction} {loop : CompiledLoop}
  (layout : Layout options counter body loop) (values : SlotKey → Int) {shape : LoopShape} {last : Int}
  (isLast : shape.last = some last)

include isLast

theorem mem_variables_iff {v : Variable} :
    v ∈ (⟨hostValues layout.slots values, loop.finalCounter shape⟩ : WriteBack).variables ↔
      Held body counter layout.use v ∨ v = counter := by
  rw [WriteBack.variables, WriteBack.stores, List.map_append, List.mem_append, mem_hostValues_variables,
    layout.host_mem_slots_iff, layout.finalCounter_eq isLast]
  by_cases unused : layout.use = .unused
  · simp [unused]
  · -- a target that is looked at has a slot, so that nothing is stored beside the slots
    have held : v = counter → Held body counter layout.use v := by
      rintro rfl
      exact layout.held_counter_iff.mpr unused
    simp [unused, or_iff_left_of_imp held]

/-- A target that is stored on its own has no slot. -/
theorem nodup_variables :
    (⟨hostValues layout.slots values, loop.finalCounter shape⟩ : WriteBack).variables.Nodup := by
  rw [WriteBack.variables, WriteBack.stores, List.map_append, layout.finalCounter_eq isLast]
  have slots := nodup_hostValues layout.nodup values
  by_cases unused : layout.use = .unused
  · rw [if_pos unused]
    refine List.nodup_append.mpr ⟨slots, List.nodup_singleton counter, ?_⟩
    rintro v fromSlot w isTarget rfl
    obtain rfl : v = counter := List.mem_singleton.mp isTarget
    have held := layout.host_mem_slots_iff.mp (mem_hostValues_variables.mp fromSlot)
    exact layout.held_counter_iff.mp held unused
  · rw [if_neg unused]
    simpa using slots

end Layout

/-! ### Whole bodies -/

/-- The stores of a body are the one to its target and those of the rest, wherever the target is kept. -/
theorem store_mem_target_iff {markers body : List Instruction} {target : Instruction} {counter v : Variable}
    {use : CounterUse} (marking : ∀ instr ∈ markers, instr.isMarker = true)
    (targets : target.access? = some (.store counter)) :
    .store v ∈ (markers ++ target :: body).filterMap Instruction.access? ↔
      Held body counter use v ∨ v = counter := by
  rw [mem_accesses_target marking targets, Access.store.injEq]
  constructor
  · rintro (isTarget | stored)
    · exact .inr isTarget
    · exact .inl (.inl stored)
  · rintro ((stored | ⟨isTarget, -⟩) | isTarget)
    · exact .inr stored
    · exact .inl isTarget
    · exact .inl isTarget

section Bodies

variable {body : List Instruction} {options : CompileOptions} {headLine : Option Nat} {loop : CompiledLoop}
  {shape : LoopShape} {frame : Frame} {settings : Settings} {writeBack : WriteBack}

/-- A run of one round or more names the variables that the body stores to, each of them once. -/
theorem variables_of_execute (compiled : CompiledLoop.compile body options headLine = .ok loop) {last : Int}
    (isLast : shape.last = some last) (rounds : 0 < shape.itersCount)
    (executed : loop.execute shape frame settings = .ok writeBack) :
    writeBack.variables.Nodup ∧
      ∀ v, v ∈ writeBack.variables ↔ .store v ∈ body.filterMap Instruction.access? := by
  obtain ⟨markers, rest, rfl, marking, ⟨rfl, rfl⟩ | ⟨target, after, counter, rfl, targets, ⟨layout⟩⟩⟩ :=
    compile_cases compiled
  · obtain ⟨state, ints, -, -, rfl⟩ := laid_nothing.of_execute_eq_ok rounds executed
    rw [List.append_nil, accesses_markers marking]
    simp [WriteBack.variables, WriteBack.stores, hostValues, CompiledLoop.finalCounter]
  · obtain ⟨state, ints, -, -, rfl⟩ := layout.laid.of_execute_eq_ok rounds executed
    constructor
    · exact layout.nodup_variables _ isLast
    · intro v
      rw [store_mem_target_iff marking targets]
      exact layout.mem_variables_iff _ isLast

/-- Exact write set. The keys of a compiled loop's slots are distinct. The results of a run over a progression
with elements are for the variables that the body stores to, its target among them, and name each of them
once; a body of line markers has none. Storing the results leaves every local and every global alone that is
not the storage of such a variable. -/
theorem write_set_exact (compiled : CompiledLoop.compile body options headLine = .ok loop) :
    (loop.slots.map Slot.key).Nodup ∧
    ∀ (p : Progression) (frame : Frame) (settings : Settings) (writeBack : WriteBack),
      p.Built → p.isEmpty = false → loop.execute p.shape frame settings = .ok writeBack →
        writeBack.variables.Nodup ∧
        (∀ v, v ∈ writeBack.variables ↔ .store v ∈ body.filterMap Instruction.access?) ∧
        (∀ name, (∀ v, .store v ∈ body.filterMap Instruction.access? → v.scope ≠ .global → v.name ≠ name) →
          (writeBack.apply frame).local? name = frame.local? name) ∧
        ∀ name, (∀ v, .store v ∈ body.filterMap Instruction.access? → v.scope = .global → v.name ≠ name) →
          (writeBack.apply frame).global? name = frame.global? name := by
  constructor
  · obtain ⟨moves, keys, laid⟩ := laid_of_compile compiled
    exact laid.keys_eq.symm ▸ laid.nodup
  · intro p frame settings writeBack built elements executed
    have rounds := built.aligned.length_pos elements
    obtain ⟨nodup, exact⟩ :=
      variables_of_execute compiled (built.aligned.last?_eq rounds) rounds executed
    have stored : ∀ entry ∈ writeBack.stores, .store entry.1 ∈ body.filterMap Instruction.access? :=
      fun entry member => (exact entry.1).mp (List.mem_map_of_mem member)
    refine ⟨nodup, exact, ?_, ?_⟩
    · intro name others
      refine WriteBack.cell?_apply_of_not_stored (u := ⟨.fast, name⟩) frame ?_
      rintro entry member ⟨names, scopes⟩
      exact others entry.1 (stored entry member) (fun global => by simpa using scopes.mpr global) names.symm
    · intro name others
      refine WriteBack.cell?_apply_of_not_stored (u := ⟨.global, name⟩) frame ?_
      rintro entry member ⟨names, scopes⟩
      exact others entry.1 (stored entry member) (scopes.mp rfl) names.symm

end Bodies

/-- One round of `g = s = s + k`, where `g` and `k` are globals and the target is not looked at. -/
def sharedSum : List Instruction :=
  [⟨.setLineno, .line 3⟩, ⟨.store .fast, .name "i"⟩, ⟨.load .fast, .name "s"⟩, ⟨.load .global, .name "k"⟩,
    ⟨.binary .add, .none⟩, ⟨.dupTop, .none⟩, ⟨.store .fast, .name "s"⟩, ⟨.store .global, .name "g"⟩]

def sharedSumLoop : CompiledLoop where
  code :=
    [.loop (.param .itersCount), .mov (.var 2) (.var 0), .add (.var 2) (.const 0), .mov (.var 3) (.var 2),
      .mov (.var 0) (.var 3), .mov (.var 3) (.value 0), .mov (.var 1) (.var 2), .mov (.var 2) (.value 0),
      .endLoop]
  slots :=
    [⟨.host ⟨.fast, "s"⟩, true⟩, ⟨.host ⟨.global, "g"⟩, true⟩, ⟨.stack 0, false⟩, ⟨.stack 1, false⟩]
  consts := [[.load ⟨.global, "k"⟩]]
  counter := some ⟨.fast, "i"⟩
  counterUse := .unused
  storeCounter := true

def sharedSumFrame : Frame :=
  (Frame.empty.store ⟨.fast, "g"⟩ (.int 7)).store ⟨.global, "k"⟩ (.int 3)

/-- The global `g` is written to, and the local of the same name is not. -/
theorem sharedSum_write_set :
    CompiledLoop.compile sharedSum default none = .ok sharedSumLoop ∧
      ∃ writeBack, sharedSumLoop.execute (Progression.shape ⟨2, 11, 3⟩) sharedSumFrame default =
          .ok writeBack ∧
        writeBack.variables.Nodup ∧ ⟨.global, "g"⟩ ∈ writeBack.variables ∧
        ⟨.fast, "i"⟩ ∈ writeBack.variables ∧
        (writeBack.apply sharedSumFrame).local? "g" = sharedSumFrame.local? "g" := by
  have compiled : CompiledLoop.compile sharedSum default none = .ok sharedSumLoop := by decide +kernel
  have bounds : Progression.ofBounds 2 9 3 = .ok ⟨2, 11, 3⟩ := by decide
  have executed : sharedSumLoop.execute (Progression.shape ⟨2, 11, 3⟩) sharedSumFrame default =
      .ok ⟨[(⟨.fast, "s"⟩, .int 9), (⟨.global, "g"⟩, .int 9)], some (⟨.fast, "i"⟩, .int 8)⟩ := by
    decide +kernel
  obtain ⟨-, writes⟩ := write_set_exact compiled
  obtain ⟨nodup, exact, locals, -⟩ := writes _ _ default _ (.ofBounds bounds) rfl executed
  refine ⟨compiled, _, executed, nodup, (exact _).mpr (by decide), (exact _).mpr (by decide), ?_⟩
  refine locals "g" ?_
  intro v stored notGlobal
  have known : ⟨.fast, "i"⟩ = v ∨ ⟨.fast, "s"⟩ = v ∨ ⟨.global, "g"⟩ = v := by
    simpa [sharedSum, Instruction.access?] using stored
  rcases known with rfl | rfl | rfl
  · decide
  · decide
  · exact absurd rfl notGlobal

end AffineLoops
