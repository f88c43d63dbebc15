import AffineLoops.Proofs.Acceptance
import AffineLoops.Proofs.CompilerCorrectness
import AffineLoops.Proofs.SlotAgreement

/-!
The flags of the compiler never change a result. One flag clears freed stack slots, the other decides how the
loop target is kept: outside the slots, in its own slot with a step back at the end, or copied from a slot of
its own in every round. Two compilations of one body under different flags have their sketches alike, and
slots that start from the same values hold the same values for all variables after every round, the target
apart; the target comes out as the last element or as what the last round stored to it.

* `Layout.closed_host`: what two compiled loops leave in the slots of the variables.
* `Layout.execute_eq_execute`: runs of loops that keep the target alike are the same, failures included.
* `Layout.apply_eq_apply`: runs that keep it in different ways leave the same frame if both succeed.
-/

namespace AffineLoops

open Move (acts)

/-! ### Announcements -/

namespace Sketch.Alike

variable {seen : Variable → Prop} {d d' : Draft}

theorem refl (s : Sketch) : s.Alike seen s := ⟨rfl, rfl, fun _ _ => rfl⟩

theorem symm {s t : Sketch} (alike : s.Alike seen t) : t.Alike seen s :=
  ⟨alike.stack.symm, alike.consts.symm, fun v looked => (alike.lookup v looked).symm⟩

theorem bind (alike : d.sketch.Alike seen d'.sketch) (v : Variable) (binding : Binding) :
    (d.bind v binding).sketch.Alike seen (d'.bind v binding).sketch := by
  refine ⟨alike.stack, alike.consts, fun u looked => ?_⟩
  have same : d.bindings.lookup u = d'.bindings.lookup u := alike.lookup u looked
  show (d.bind v binding).bindings.lookup u = (d'.bind v binding).bindings.lookup u
  rw [Announced.lookup_bind, Announced.lookup_bind, same]

/-- Drafts that are alike go on being alike when a variable is announced in both. -/
theorem register (alike : d.sketch.Alike seen d'.sketch) {v : Variable} (looked : seen v) (stored : Bool) :
    (d.register v stored).sketch.Alike seen (d'.register v stored).sketch := by
  have same : d.binding? v = d'.binding? v := alike.lookup v looked
  have slotted : ((d.slot (.host v)).2.bind v .slot).sketch.Alike seen
      ((d'.slot (.host v)).2.bind v .slot).sketch := by
    rw [Draft.slot_eq, Draft.slot_eq]
    apply bind
    exact ⟨alike.stack, alike.consts, alike.lookup⟩
  have added : ((d.constant [.load v]).2.bind v (.const (d.constant [.load v]).1)).sketch.Alike seen
      ((d'.constant [.load v]).2.bind v (.const (d'.constant [.load v]).1)).sketch := by
    have consts : d.consts = d'.consts := alike.consts
    rw [Draft.constant_eq, Draft.constant_eq, consts]
    apply bind
    exact ⟨alike.stack, rfl, alike.lookup⟩
  unfold Draft.register
  rw [same]
  cases stored with
  | true =>
    rcases d'.binding? v with _ | (_ | index)
    · exact slotted
    · exact alike
    · exact slotted
  | false =>
    cases d'.binding? v with
    | none => exact added
    | some binding => exact alike

theorem registerAll (alike : d.sketch.Alike seen d'.sketch) (body : List Instruction)
    (accessed : ∀ access ∈ body.filterMap Instruction.access?, seen access.var) :
    (CompiledLoop.registerAll body d).sketch.Alike seen (CompiledLoop.registerAll body d').sketch := by
  -- which variables are stored to is settled for the whole body, the announcements go one by one
  have all : ∀ (stored : Variable → Bool) (accesses : List Access) (d d' : Draft),
      (∀ access ∈ accesses, seen access.var) → d.sketch.Alike seen d'.sketch →
        (accesses.foldl (fun d access => d.register access.var (stored access.var)) d).sketch.Alike seen
          (accesses.foldl (fun d access => d.register access.var (stored access.var)) d').sketch := by
    intro stored accesses
    induction accesses with
    | nil =>
      intro d d' _ alike
      exact alike
    | cons access rest ih =>
      intro d d' accessed alike
      exact ih _ _ (fun access' member => accessed access' (.tail _ member))
        (alike.register (accessed access (.head _)) (stored access.var))
  exact all (fun v => decide (.store v ∈ body.filterMap Instruction.access?)) _ d d' accessed alike

end Sketch.Alike

/-! ### Two loops from one body -/

section Layouts

variable {options options' : CompileOptions} {counter : Variable} {body : List Instruction}
  {loop loop' : CompiledLoop} (first : Layout options counter body loop)
  (second : Layout options' counter body loop')

/-- The variables that have their values in slots of both loops, if they have one: all but a target that
one of the loops does not look at. -/
def Layout.Shared (v : Variable) : Prop :=
  v = counter → first.use ≠ .unused ∧ second.use ≠ .unused

theorem Layout.shared_of_accessed {access : Access} (member : access ∈ body.filterMap Instruction.access?) :
    first.Shared second access.var := by
  intro isTarget
  constructor
  · exact fun unused => not_accessed_of_unused (first.use_eq ▸ unused) member isTarget
  · exact fun unused => not_accessed_of_unused (second.use_eq ▸ unused) member isTarget

theorem Layout.start_alike : first.start.sketch.Alike (first.Shared second) second.start.sketch := by
  have target : ∀ seen : Variable → Prop, (∀ v, seen v → v ≠ counter) →
      Draft.empty.sketch.Alike seen (Draft.empty.register counter true).sketch := by
    intro seen others
    refine ⟨rfl, rfl, fun v looked => ?_⟩
    exact (Announced.lookup_bind _ v counter .slot).trans (if_neg (others v looked)) |>.symm
  rw [first.start_eq, second.start_eq]
  refine Sketch.Alike.registerAll ?_ body fun access member => first.shared_of_accessed second member
  by_cases unused : first.use = .unused
  · by_cases unused' : second.use = .unused
    · rw [if_pos unused, if_pos unused']
      exact .refl _
    · rw [if_pos unused, if_neg unused']
      exact target _ fun v shared isTarget => (shared isTarget).1 unused
  · by_cases unused' : second.use = .unused
    · rw [if_neg unused, if_pos unused']
      exact (target _ fun v shared isTarget => (shared isTarget).2 unused').symm
    · rw [if_neg unused, if_neg unused']
      exact .refl _

theorem Layout.finish_alike : first.finish.Alike (first.Shared second) second.finish :=
  (first.lowers.alike second.lowers (first.start_alike second) fun _ loaded =>
    first.shared_of_accessed second loaded).1

theorem Layout.consts_eq (first : Layout options counter body loop)
    (second : Layout options' counter body loop') : loop.consts = loop'.consts := by
  rw [show loop.consts = first.finish.consts from congrArg CompiledLoop.consts first.loop_eq,
    show loop'.consts = second.finish.consts from congrArg CompiledLoop.consts second.loop_eq]
  exact (first.finish_alike second).consts

/-! ### Rounds -/

variable {inputs : Inputs}

/-- Both loops go into the body of a round with the same values. -/
theorem Layout.sameSlots_renewed {round : Nat} {x y : SlotKey → Int}
    (hosts : ∀ v, v ≠ counter → x (.host v) = y (.host v)) (carries : first.Carries inputs round x)
    (carries' : second.Carries inputs round y) :
    SameSlots (first.Shared second) first.start.sketch.stack (acts inputs (renewing counter first.use) x)
      (acts inputs (renewing counter second.use) y) := by
  constructor
  · intro u shared
    by_cases isTarget : u = counter
    · obtain ⟨looked, looked'⟩ := shared isTarget
      rw [isTarget, carries.renewed looked, carries'.renewed looked']
    · rw [acts_renewing_of_ne (host_ne isTarget) (by simp), acts_renewing_of_ne (host_ne isTarget) (by simp),
        hosts u isTarget]
  · rw [show first.start.sketch.stack = [] from first.announced.stack]
    exact sameLive_nil

/-- In the course of a round both loops have the same values, whatever was left in freed slots. -/
theorem Layout.body_agrees {round : Nat} {x y : SlotKey → Int}
    (hosts : ∀ v, v ≠ counter → x (.host v) = y (.host v)) (carries : first.Carries inputs round x)
    (carries' : second.Carries inputs round y) {v : Variable} (shared : first.Shared second v) :
    acts inputs first.moves (acts inputs (renewing counter first.use) x) (.host v) =
      acts inputs second.moves (acts inputs (renewing counter second.use) y) (.host v) := by
  obtain ⟨-, agrees⟩ := first.lowers.alike second.lowers (first.start_alike second) fun _ loaded =>
    first.shared_of_accessed second loaded
  exact (agrees inputs _ _ (first.sameSlots_renewed second hosts carries carries')).host v shared

/-- After every round the variables have the same values in both loops, the target apart. -/
theorem Layout.slotsAfter_host (rounds : Nat) (values : SlotKey → Int) {v : Variable} (other : v ≠ counter) :
    first.slotsAfter inputs rounds values (.host v) = second.slotsAfter inputs rounds values (.host v) := by
  induction rounds generalizing v with
  | zero =>
    rw [Layout.slotsAfter, Layout.slotsAfter, Function.iterate_zero_apply, Function.iterate_zero_apply,
      acts_opening_of_ne (host_ne other) (by simp), acts_opening_of_ne (host_ne other) (by simp)]
  | succ rounds ih =>
    rw [first.slotsAfter_succ, second.slotsAfter_succ, acts_advancing_of_ne (host_ne other) (by simp),
      acts_advancing_of_ne (host_ne other) (by simp)]
    exact first.body_agrees second (fun u other => ih other) (first.carries_slotsAfter rounds values)
      (second.carries_slotsAfter rounds values) fun isTarget => absurd isTarget other

/-- What a run of one round or more leaves for a variable is the same in both loops. -/
theorem Layout.closed_host (rounds : Nat) (values : SlotKey → Int) {v : Variable}
    (shared : first.Shared second v) :
    acts inputs (closing counter first.use) (first.slotsAfter inputs (rounds + 1) values) (.host v) =
      acts inputs (closing counter second.use) (second.slotsAfter inputs (rounds + 1) values) (.host v) := by
  rw [first.slotsAfter_succ, second.slotsAfter_succ, closing_advancing, closing_advancing]
  exact first.body_agrees second (fun u other => first.slotsAfter_host second rounds values other)
    (first.carries_slotsAfter rounds values) (second.carries_slotsAfter rounds values) shared

/-! ### Loops that keep the target alike -/

/-- Host slots are all announced, so that no code adds to them. -/
theorem Layout.host_not_mem_fresh {fresh : List SlotKey} (slots : first.start.slots ++ fresh = first.slots)
    {v : Variable} : .host v ∉ fresh := by
  intro member
  have held := first.host_mem_slots_iff.mp (slots ▸ List.mem_append_right _ member)
  have announced : .host v ∈ first.start.slots :=
    (first.announced.slots _).mpr ⟨v, rfl, held.accessed, held⟩
  have nodup := first.nodup
  rw [← slots, List.nodup_append] at nodup
  exact nodup.2.2 _ announced _ member rfl

theorem Layout.hostValues_eq (values : SlotKey → Int) :
    hostValues first.slots values = hostValues first.start.slots values := by
  obtain ⟨fresh, slots⟩ := first.numbers.grown
  have none : hostValues fresh values = [] := by
    apply List.filterMap_eq_nil_iff.mpr
    intro key member
    cases key with
    | host v => exact absurd member (first.host_not_mem_fresh slots)
    | counter | stack => rfl
  rw [← slots, hostValues, List.filterMap_append, ← hostValues, ← hostValues, none, List.append_nil]

/-- Loading the state fails, if at all, at a slot that was announced. -/
theorem Layout.loadState_eq (frame : Frame) (types : KindSet) :
    ∃ zeros, loop.loadState frame types =
      (first.start.slots.mapM (CompiledLoop.slotValue frame types)).map (· ++ zeros) := by
  obtain ⟨fresh, slots⟩ := first.numbers.grown
  have keys : loop.loadState frame types = first.slots.mapM (CompiledLoop.slotValue frame types) := by
    rw [CompiledLoop.loadState, first.laid.slots, List.mapM_map]
    rfl
  have zeros : fresh.mapM (CompiledLoop.slotValue frame types) = .ok (fresh.map fun _ => 0) := by
    rw [mapM_eq_ok_iff, List.forall₂_map_right_iff, List.forall₂_same]
    intro key member
    cases key with
    | host v => exact absurd member (first.host_not_mem_fresh slots)
    | counter | stack => rfl
  refine ⟨fresh.map fun _ => 0, ?_⟩
  rw [keys, ← slots, List.mapM_append, zeros]
  cases first.start.slots.mapM (CompiledLoop.slotValue frame types) <;> rfl

theorem hostValues_congr {keys : List SlotKey} {x y : SlotKey → Int}
    (same : ∀ v, .host v ∈ keys → x (.host v) = y (.host v)) : hostValues keys x = hostValues keys y := by
  refine List.filterMap_congr fun key member => ?_
  cases key with
  | host v => rw [same v member]
  | counter | stack => rfl

/-- The values that go back to the frame are the same in loops that keep the target alike. -/
theorem Layout.hostValues_acts (use : first.use = second.use) (inputs : Inputs)
    (rounds : 0 < inputs.shape.itersCount) (values : SlotKey → Int) :
    hostValues first.slots ((loopMoves counter first.use first.moves).acts inputs values) =
      hostValues second.slots ((loopMoves counter second.use second.moves).acts inputs values) := by
  obtain ⟨count, positive⟩ := Inputs.exists_last_round rounds
  have start : second.start = first.start := by rw [second.start_eq, ← use, ← first.start_eq]
  rw [first.hostValues_eq, second.hostValues_eq, start]
  apply hostValues_congr
  intro u announced
  obtain ⟨_, ⟨⟩, -, held⟩ := (first.announced.slots _).mp announced
  have shared : first.Shared second u := by
    rintro rfl
    have looked := first.held_counter_iff.mp held
    exact ⟨looked, use ▸ looked⟩
  rw [first.acts_loopMoves, second.acts_loopMoves, positive]
  exact first.closed_host second count values shared

/-- Loops that keep the target alike run alike, and fail alike. -/
theorem Layout.execute_eq_execute (use : first.use = second.use) (shape : LoopShape) (frame : Frame)
    (settings : Settings) : loop.execute shape frame settings = loop'.execute shape frame settings := by
  by_cases rounds : 0 < shape.itersCount
  · obtain ⟨zeros, loaded⟩ := first.loadState_eq frame settings.types
    obtain ⟨zeros', loaded'⟩ := second.loadState_eq frame settings.types
    have start : second.start = first.start := by rw [second.start_eq, ← use, ← first.start_eq]
    have folded : loop'.foldedInts frame settings.types = loop.foldedInts frame settings.types := by
      rw [CompiledLoop.foldedInts, CompiledLoop.foldedInts, first.consts_eq second]
    have finalCounter : loop.finalCounter shape = loop'.finalCounter shape := by
      rw [first.loop_eq, second.loop_eq, use]
      rfl
    rw [first.laid.execute_eq_bind rounds, second.laid.execute_eq_bind rounds, loaded, loaded', start, folded,
      finalCounter]
    have values (ints : List Int) := first.hostValues_acts second use ⟨ints, shape⟩ rounds
    simp only [values]
    cases first.start.slots.mapM (CompiledLoop.slotValue frame settings.types) <;> rfl
  · rw [CompiledLoop.execute, CompiledLoop.execute, if_pos (by omega), if_pos (by omega)]

/-! ### Loops that keep the target in different ways -/

/-- A target that the body does not store to is left at the last element, with a slot or without. -/
theorem Layout.result_target (c : Context) (rounds : Nat) (values : SlotKey → Int)
    (notStored : .store counter ∉ body.filterMap Instruction.access?) :
    first.result c rounds (first.slotsAfter c.inputs (rounds + 1) values) counter = c.element rounds := by
  unfold Layout.result
  by_cases unused : first.use = .unused
  · rw [if_pos ⟨unused, rfl⟩]
  · rw [if_neg fun both => unused both.1]
    exact first.closed_target rounds values unused notStored

theorem not_stored_of_unused (unused : first.use = .unused) :
    .store counter ∉ body.filterMap Instruction.access? :=
  fun stored => not_accessed_of_unused (first.use_eq ▸ unused) stored rfl

/-- The number that goes back to the frame for a variable is the same, however the target is kept. -/
theorem Layout.result_eq_result {c c' : Context} (inputs : c.inputs = c'.inputs) (rounds : Nat)
    (values : SlotKey → Int) (v : Variable) :
    first.result c rounds (first.slotsAfter c.inputs (rounds + 1) values) v =
      second.result c' rounds (second.slotsAfter c'.inputs (rounds + 1) values) v := by
  have element : c.element rounds = c'.element rounds := by rw [Context.element, Context.element, inputs]
  by_cases shared : first.Shared second v
  · have looked : ¬ (first.use = .unused ∧ v = counter) := by
      rintro ⟨unused, isTarget⟩
      exact (shared isTarget).1 unused
    have looked' : ¬ (second.use = .unused ∧ v = counter) := by
      rintro ⟨unused, isTarget⟩
      exact (shared isTarget).2 unused
    rw [Layout.result, Layout.result, if_neg looked, if_neg looked', inputs]
    exact first.closed_host second rounds values shared
  · -- one of the loops does not look at the target, so the body does not store to it
    obtain ⟨rfl, unused⟩ : v = counter ∧ (first.use = .unused ∨ second.use = .unused) := by
      unfold Layout.Shared at shared
      tauto
    have notStored : .store v ∉ body.filterMap Instruction.access? :=
      unused.elim (not_stored_of_unused first) (not_stored_of_unused second)
    rw [first.result_target c rounds values notStored, second.result_target c' rounds values notStored,
      element]

/-- The variables that a loop stores to do not depend on how the target is kept. -/
theorem held_or_target_iff {use use' : CounterUse} {v : Variable} :
    Held body counter use v ∨ v = counter ↔ Held body counter use' v ∨ v = counter := by
  unfold Held
  tauto

/-- Runs that succeed leave the same frame, however the target is kept. -/
theorem Layout.apply_eq_apply {c c' : Context} {p : Progression} {types : KindSet} {w w' : WriteBack}
    (rounds : 0 < p.length) (ran : c.Ran first p types w) (ran' : c'.Ran second p types w')
    (frame : c.frame = c'.frame) : w.apply c.frame = w'.apply c.frame := by
  have folded : c.inputs.folded = c'.inputs.folded := by
    have both := ran.folded
    rw [CompiledLoop.foldedInts, first.consts_eq second, frame] at both
    exact Except.ok.inj (both.symm.trans ran'.folded)
  have inputs : c.inputs = c'.inputs := by
    have shape := ran.shape.trans ran'.shape.symm
    rcases hc : c.inputs with ⟨ints, numbers⟩
    rcases hc' : c'.inputs with ⟨ints', numbers'⟩
    simp_all
  have results := first.result_eq_result second inputs (p.length.toNat - 1) (initialValues c.frame types)
  rw [show p.length.toNat - 1 + 1 = p.length.toNat by omega] at results
  rw [ran.result, ran'.result, ← frame]
  apply Frame.ext_cell?
  intro u
  by_cases stored : ∃ v, (Held body counter first.use v ∨ v = counter) ∧ u.SharesCell v
  · obtain ⟨v, settles, shared⟩ := stored
    rw [first.cell?_writeBack ran.toOf ran.last c.frame settles shared,
      second.cell?_writeBack ran'.toOf ran'.last c.frame (held_or_target_iff.mp settles) shared, results v]
  · rw [first.cell?_writeBack_of_not ran.last c.frame fun v settles shared => stored ⟨v, settles, shared⟩,
      second.cell?_writeBack_of_not ran'.last c.frame fun v settles shared =>
        stored ⟨v, held_or_target_iff.mp settles, shared⟩]

end Layouts

/-! ### Whole compilations -/

section Compilations

variable {body : List Instruction} {options : CompileOptions} {headLine : Option Nat} {loop : CompiledLoop}

/-- Flags have no say in whether a body compiles. -/
theorem compileRest_of_types {line : Option Nat} {counter : Variable}
    (compiled : CompiledLoop.compileRest options line counter body = .ok loop) (options' : CompileOptions)
    (types : options'.types = options.types) :
    ∃ loop', CompiledLoop.compileRest options' line counter body = .ok loop' := by
  have outcome := compileRest_outcome options line counter body
  have outcome' := compileRest_outcome options' line counter body
  rw [types, ← outcome, compiled] at outcome'
  obtain ⟨loop', compiled', -⟩ := map_eq_ok_iff.mp outcome'
  exact ⟨loop', compiled'⟩

/-- A body that compiles does so under all flags, to the same loop of nothing or to loops of the same target
and rest. -/
theorem compile_of_types (compiled : CompiledLoop.compile body options headLine = .ok loop)
    (options' : CompileOptions) (types : options'.types = options.types) :
    ∃ loop', CompiledLoop.compile body options' headLine = .ok loop' ∧
      (loop' = loop ∨
        ∃ markers target after counter, body = markers ++ target :: after ∧
          (∀ instr ∈ markers, instr.isMarker = true) ∧ target.access? = some (.store counter) ∧
          Nonempty (Layout options counter after loop) ∧ Nonempty (Layout options' counter after loop')) := by
  unfold CompiledLoop.compile at compiled ⊢
  split at compiled
  · cases compiled
    exact ⟨_, rfl, .inl rfl⟩
  · rename_i line target after skipped
    obtain ⟨markers, rfl, marking⟩ := skipMarkers_eq skipped
    split at compiled
    · rename_i counter targets
      obtain ⟨loop', compiled'⟩ := compileRest_of_types compiled options' types
      exact ⟨loop', compiled', .inr ⟨markers, target, after, counter, rfl, marking, targets,
        layout_of_compileRest compiled, layout_of_compileRest compiled'⟩⟩
    · cases compiled

/-- Of the settings, a run looks at the kinds alone: rows that the engine folds make no difference. -/
theorem execute_of_types {moves : MoveLoop} {keys : List SlotKey} (laid : Laid loop moves keys)
    {settings settings' : Settings} (types : settings'.types = settings.types) (shape : LoopShape)
    (frame : Frame) : loop.execute shape frame settings' = loop.execute shape frame settings := by
  by_cases rounds : 0 < shape.itersCount
  · rw [laid.execute_eq_bind rounds, laid.execute_eq_bind rounds, types]
  · rw [CompiledLoop.execute, CompiledLoop.execute, if_pos (by omega), if_pos (by omega)]

/-- The flags never change a result. A body that compiles under some flags does so under all.
First, with freed stack slots cleared or not, the loops have the same runs, failures included. Second, if no
name of the body has two scopes, the loops of any two choices of flags leave the same frame where both runs
succeed, whether or not the literal run does. Runs may differ in their settings, as long as they allow
the same kinds. -/
theorem flags_keep_results {types : KindSet} {fold clear : Bool}
    (compiled : CompiledLoop.compile body ⟨types, fold, clear⟩ headLine = .ok loop) :
    (∀ clear', ∃ loop', CompiledLoop.compile body ⟨types, fold, clear'⟩ headLine = .ok loop' ∧
      ∀ (shape : LoopShape) (frame : Frame) (settings settings' : Settings),
        settings'.types = settings.types →
          loop'.execute shape frame settings' = loop.execute shape frame settings) ∧
    (SingleScoped body → ∀ fold' clear', ∃ loop',
      CompiledLoop.compile body ⟨types, fold', clear'⟩ headLine = .ok loop' ∧
      ∀ (p : Progression) (frame : Frame) (settings settings' : Settings) (writeBack writeBack' : WriteBack),
        p.Built → p.isEmpty = false → settings'.types = settings.types →
          loop.execute p.shape frame settings = .ok writeBack →
          loop'.execute p.shape frame settings' = .ok writeBack' →
            writeBack'.apply frame = writeBack.apply frame) := by
  obtain ⟨moves, keys, laid⟩ := laid_of_compile compiled
  constructor
  · intro clear'
    obtain ⟨loop', compiled', same⟩ := compile_of_types compiled ⟨types, fold, clear'⟩ rfl
    refine ⟨loop', compiled', fun shape frame settings settings' kinds => ?_⟩
    rcases same with rfl | ⟨markers, target, after, counter, -, -, -, ⟨layout⟩, ⟨layout'⟩⟩
    · exact execute_of_types laid kinds shape frame
    · have use : layout'.use = layout.use := layout'.use_eq.trans layout.use_eq.symm
      rw [layout'.execute_eq_execute layout use, execute_of_types laid kinds]
  · intro single fold' clear'
    obtain ⟨loop', compiled', same⟩ := compile_of_types compiled ⟨types, fold', clear'⟩ rfl
    refine ⟨loop', compiled', fun p frame settings settings' w w' built elements kinds ran ran' => ?_⟩
    rcases same with rfl | ⟨markers, target, after, counter, rfl, marking, targets, ⟨layout⟩, ⟨layout'⟩⟩
    · rw [execute_of_types laid kinds, ran] at ran'
      cases ran'
      rfl
    · have aligned := built.aligned
      have rounds := aligned.length_pos elements
      obtain ⟨c, rfl, context⟩ := layout.ran_of_execute marking targets single aligned rounds ran
      obtain ⟨c', frame, context'⟩ := layout'.ran_of_execute marking targets single aligned rounds ran'
      rw [kinds] at context'
      exact (layout.apply_eq_apply layout' rounds context context' frame.symm).symm

end Compilations

/-- One round of `s += k`, which does not look at its target. -/
def steadySum : List Instruction :=
  [⟨.store .fast, .name "i"⟩, ⟨.load .fast, .name "s"⟩, ⟨.load .global, .name "k"⟩, ⟨.inplace .add, .none⟩,
    ⟨.store .fast, .name "s"⟩]

def steadySumLoop : CompiledLoop where
  code :=
    [.loop (.param .itersCount), .mov (.var 1) (.var 0), .add (.var 1) (.const 0), .mov (.var 0) (.var 1),
      .mov (.var 1) (.value 0), .endLoop]
  slots := [⟨.host ⟨.fast, "s"⟩, true⟩, ⟨.stack 0, false⟩]
  consts := [[.load ⟨.global, "k"⟩]]
  counter := some ⟨.fast, "i"⟩
  counterUse := .unused
  storeCounter := true

/-- The loop with both flags off: the target has a slot, and so has the progression. -/
def steadySumPlainLoop : CompiledLoop where
  code :=
    [.mov (.var 2) (.param .start), .loop (.param .itersCount), .mov (.var 0) (.var 2),
      .mov (.var 3) (.var 1), .add (.var 3) (.const 0), .mov (.var 1) (.var 3),
      .add (.var 2) (.param .step), .endLoop]
  slots :=
    [⟨.host ⟨.fast, "i"⟩, true⟩, ⟨.host ⟨.fast, "s"⟩, true⟩, ⟨.counter, false⟩, ⟨.stack 0, false⟩]
  consts := [[.load ⟨.global, "k"⟩]]
  counter := some ⟨.fast, "i"⟩
  counterUse := .mutated
  storeCounter := false

/-- The sum has no value, so that the literal run fails; the accelerated ones start it from zero. -/
def steadySumFrame : Frame := Frame.empty.store ⟨.global, "k"⟩ (.int 3)

/-- The two loops give different lists of results, which come to the same frame. -/
theorem steadySum_flags_keep_results :
    CompiledLoop.compile steadySum ⟨default, true, true⟩ none = .ok steadySumLoop ∧
      CompiledLoop.compile steadySum ⟨default, false, false⟩ none = .ok steadySumPlainLoop ∧
      (Literal.run steadySum (.range ⟨2, 11, 3⟩) steadySumFrame).isOk = false ∧
      ∃ writeBack writeBack',
        steadySumLoop.execute (Progression.shape ⟨2, 11, 3⟩) steadySumFrame default = .ok writeBack ∧
        steadySumPlainLoop.execute (Progression.shape ⟨2, 11, 3⟩) steadySumFrame
          { (default : Settings) with foldConstantRows := false } = .ok writeBack' ∧
        writeBack ≠ writeBack' ∧ writeBack'.apply steadySumFrame = writeBack.apply steadySumFrame := by
  have compiled : CompiledLoop.compile steadySum ⟨default, true, true⟩ none = .ok steadySumLoop := by
    decide +kernel
  have plain : CompiledLoop.compile steadySum ⟨default, false, false⟩ none = .ok steadySumPlainLoop := by
    decide +kernel
  have bounds : Progression.ofBounds 2 9 3 = .ok ⟨2, 11, 3⟩ := by decide
  have executed : steadySumLoop.execute (Progression.shape ⟨2, 11, 3⟩) steadySumFrame default =
      .ok ⟨[(⟨.fast, "s"⟩, .int 9)], some (⟨.fast, "i"⟩, .int 8)⟩ := by decide +kernel
  have executed' : steadySumPlainLoop.execute (Progression.shape ⟨2, 11, 3⟩) steadySumFrame
      { (default : Settings) with foldConstantRows := false } =
        .ok ⟨[(⟨.fast, "i"⟩, .int 8), (⟨.fast, "s"⟩, .int 9)], none⟩ := by decide +kernel
  obtain ⟨-, anyFlags⟩ := flags_keep_results compiled
  obtain ⟨loop', compiled', same⟩ := anyFlags (by decide +kernel) false false
  obtain rfl : steadySumPlainLoop = loop' := Except.ok.inj (plain.symm.trans compiled')
  exact ⟨compiled, plain, by decide +kernel, _, _, executed, executed', by decide +kernel,
    same _ _ default { (default : Settings) with foldConstantRows := false } _ _ (.ofBounds bounds) rfl rfl
      executed executed'⟩

end AffineLoops
