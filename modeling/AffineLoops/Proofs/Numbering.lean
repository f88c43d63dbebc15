import AffineLoops.Proofs.EngineMeaning
import AffineLoops.Proofs.KeyedMoves
import AffineLoops.Proofs.Outcomes

/-!
Slots get their numbers as they are first used. `Emits` says that a draft has grown by the code of some moves:
old slots keep their numbers, every slot that the moves name has one, and no other slot is new.

* `emit_emits`: a draft emits a move by numbering its destination and its source.
* `update_resolved`: a numbered update acts on the state vector as the move does on the slots.
* `MoveLoop.run_resolved`: the engine carries a counted loop of moves out on the slots.
-/

namespace AffineLoops

open MatrixCode

/-! ### Numbers -/

/-- The operand that a place becomes when slots are numbered in the given order. -/
def Place.number (slots : List SlotKey) : Place → Operand
  | .value n => .value n
  | .const index => .const index
  | .param p => .param p
  | .slot key => .var (slots.idxOf key)

/-- A key keeps its number when more keys follow. -/
theorem idxOf_of_prefix {slots more : List SlotKey} (grown : slots <+: more) {key : SlotKey}
    (known : key ∈ slots) : more.idxOf key = slots.idxOf key := by
  obtain ⟨fresh, rfl⟩ := grown
  exact List.idxOf_append_of_mem known

theorem Place.number_of_prefix {slots more : List SlotKey} (grown : slots <+: more) {place : Place}
    (known : ∀ key ∈ place.keys, key ∈ slots) : place.number more = place.number slots := by
  cases place with
  | slot key => rw [number, number, idxOf_of_prefix grown (known key (by simp [keys]))]
  | _ => rfl

namespace Move

/-- The update that a move becomes when slots are numbered in the given order. -/
def number (slots : List SlotKey) (m : Move) : Instr Operand :=
  m.verb.instr (.var (slots.idxOf m.dest)) (m.src.number slots)

theorem number_of_prefix {slots more : List SlotKey} (grown : slots <+: more) {m : Move}
    (known : ∀ key ∈ m.keys, key ∈ slots) : m.number more = m.number slots := by
  have dest := known m.dest (by simp [keys])
  have src := Place.number_of_prefix grown fun key member => known key (List.mem_cons_of_mem _ member)
  rw [number, number, idxOf_of_prefix grown dest, src]

theorem map_number_of_prefix {slots more : List SlotKey} (grown : slots <+: more) {moves : List Move}
    (known : ∀ m ∈ moves, ∀ key ∈ m.keys, key ∈ slots) :
    moves.map (number more) = moves.map (number slots) :=
  List.map_congr_left fun m member => number_of_prefix grown (known m member)

end Move

namespace Draft

/-- The slots with a key in, at the end if it is new. -/
def withKey (slots : List SlotKey) (key : SlotKey) : List SlotKey :=
  if key ∈ slots then slots else slots ++ [key]

theorem prefix_withKey (slots : List SlotKey) (key : SlotKey) : slots <+: withKey slots key := by
  unfold withKey
  split
  · exact List.prefix_refl slots
  · exact List.prefix_append slots [key]

theorem mem_withKey {slots : List SlotKey} {key other : SlotKey} :
    other ∈ withKey slots key ↔ other ∈ slots ∨ other = key := by
  unfold withKey
  split
  · simp_all
  · simp

theorem nodup_withKey {slots : List SlotKey} (nodup : slots.Nodup) (key : SlotKey) :
    (withKey slots key).Nodup := by
  unfold withKey
  split
  · exact nodup
  · rename_i fresh
    rw [List.nodup_append]
    refine ⟨nodup, List.nodup_singleton key, ?_⟩
    intro other member last isLast same
    rw [List.mem_singleton] at isLast
    exact fresh (isLast ▸ same ▸ member)

theorem slot_eq (d : Draft) (key : SlotKey) :
    d.slot key = ((withKey d.slots key).idxOf key, { d with slots := withKey d.slots key }) := by
  unfold slot withKey
  split
  · rename_i index found
    have known : key ∈ d.slots := List.isSome_idxOf?.mp (by simp [found])
    rw [if_pos known, List.idxOf_eq_getD_idxOf?, found, Option.getD_some]
  · rename_i missing
    have fresh := List.idxOf?_eq_none_iff.mp missing
    rw [if_neg fresh, List.idxOf_append, if_neg fresh]
    simp

/-- The slots after the numbering of a place. -/
def withPlace (slots : List SlotKey) : Place → List SlotKey
  | .slot key => withKey slots key
  | _ => slots

theorem operand_eq (d : Draft) (place : Place) :
    d.operand place =
      (place.number (withPlace d.slots place), { d with slots := withPlace d.slots place }) := by
  cases place with
  | slot key => simp only [operand, slot_eq, Place.number, withPlace]
  | _ => rfl

theorem prefix_withPlace (slots : List SlotKey) (place : Place) : slots <+: withPlace slots place := by
  cases place with
  | slot key => exact prefix_withKey slots key
  | _ => exact List.prefix_refl slots

theorem mem_withPlace {slots : List SlotKey} {place : Place} {key : SlotKey} :
    key ∈ withPlace slots place ↔ key ∈ slots ∨ key ∈ place.keys := by
  cases place with
  | slot key => simp [withPlace, mem_withKey, Place.keys]
  | _ => simp [withPlace, Place.keys]

theorem nodup_withPlace {slots : List SlotKey} (nodup : slots.Nodup) (place : Place) :
    (withPlace slots place).Nodup := by
  cases place with
  | slot key => exact nodup_withKey nodup key
  | _ => exact nodup

/-! ### Emitted code -/

/-- The parts of a draft that grow with the code. -/
structure Output where
  slots : List SlotKey
  code : List (Instr Operand)

def output (d : Draft) : Output := ⟨d.slots, d.code⟩

/-- The slots have grown by those that the moves name. -/
structure Numbers (moves : List Move) (before after : List SlotKey) : Prop where
  grown : before <+: after
  nodup : before.Nodup → after.Nodup
  known : ∀ m ∈ moves, ∀ key ∈ m.keys, key ∈ after
  fresh : ∀ key ∈ after, key ∈ before ∨ ∃ m ∈ moves, key ∈ m.keys

theorem Numbers.trans {first second : List Move} {a b c : List SlotKey} (left : Numbers first a b)
    (right : Numbers second b c) : Numbers (first ++ second) a c where
  grown := left.grown.trans right.grown
  nodup := right.nodup ∘ left.nodup
  known := by
    intro m member key named
    rcases List.mem_append.mp member with inFirst | inSecond
    · exact right.grown.subset (left.known m inFirst key named)
    · exact right.known m inSecond key named
  fresh := by
    intro key member
    rcases right.fresh key member with before | ⟨m, inSecond, named⟩
    · rcases left.fresh key before with old | ⟨m, inFirst, named⟩
      · exact .inl old
      · exact .inr ⟨m, List.mem_append_left _ inFirst, named⟩
    · exact .inr ⟨m, List.mem_append_right _ inSecond, named⟩

/-- The code of the moves is added, and the slots they name are numbered. -/
structure Emits (moves : List Move) (before after : Output) : Prop
    extends Numbers moves before.slots after.slots where
  code : after.code = before.code ++ moves.map (Move.number after.slots)

theorem Emits.refl (output : Output) : Emits [] output output where
  grown := List.prefix_refl _
  nodup := id
  known := by simp
  fresh := fun _ => .inl
  code := by simp

theorem Emits.trans {first second : List Move} {a b c : Output} (left : Emits first a b)
    (right : Emits second b c) : Emits (first ++ second) a c where
  toNumbers := left.toNumbers.trans right.toNumbers
  code := by
    rw [right.code, left.code, List.map_append, List.append_assoc,
      Move.map_number_of_prefix right.grown left.known]

theorem output_emit (update : Operand → Operand → Instr Operand) (dest : SlotKey) (src : Place)
    (d : Draft) :
    (d.emit update (.slot dest) src).output =
      ⟨withPlace (withKey d.slots dest) src,
        d.code ++ [update (.var ((withKey d.slots dest).idxOf dest))
          (src.number (withPlace (withKey d.slots dest) src))]⟩ := by
  simp only [emit, operand_eq]
  rfl

/-- An update is emitted by numbering its destination first and its source second. -/
theorem emit_emits (verb : Verb) (dest : SlotKey) (src : Place) (d : Draft) :
    Emits [⟨verb, dest, src⟩] d.output (d.emit verb.instr (.slot dest) src).output := by
  have grown := prefix_withPlace (withKey d.slots dest) src
  have known : dest ∈ withKey d.slots dest := mem_withKey.mpr (.inr rfl)
  have keys : ∀ key, key ∈ withPlace (withKey d.slots dest) src ↔
      key ∈ d.slots ∨ key ∈ (⟨verb, dest, src⟩ : Move).keys := by
    intro key
    rw [mem_withPlace, mem_withKey, or_assoc, Move.keys, List.mem_cons]
  rw [output_emit]
  refine ⟨⟨(prefix_withKey _ _).trans grown, fun nodup => nodup_withPlace (nodup_withKey nodup _) _,
    ?_, ?_⟩, ?_⟩
  · simp only [List.mem_singleton, forall_eq]
    exact fun key named => (keys key).mpr (.inr named)
  · simp only [List.mem_singleton, exists_eq_left]
    exact fun key member => (keys key).mp member
  · rw [List.map_singleton, Move.number, idxOf_of_prefix grown known]
    rfl

/-- Constants and slots are numbered apart, so the constant may as well come first. -/
theorem emitFolded_eq (d : Draft) (update : Operand → Operand → Instr Operand) (depth : Nat)
    (program : ConstProgram) :
    d.emitFolded update depth program =
      (d.constant program).2.emit update (entrySlot depth) (.const (d.constant program).1) := by
  simp only [emitFolded, emit, entrySlot, operand_eq]
  unfold constant
  split <;> rfl

/-- The moves that set a freed stack slot to zero. -/
def clearing (options : CompileOptions) (depth : Nat) : List Move :=
  if options.clearFreedStackSlots then [⟨.mov, .stack depth, .value 0⟩] else []

end Draft

/-! ### Numbered code at work -/

/-- The operand of a place once the inputs of a run are known. -/
def Place.resolved (inputs : Inputs) (slots : List SlotKey) : Place → Resolved
  | .value n => .value n
  | .const index => .value (inputs.folded.getD index 0)
  | .param p => .value (inputs.shape.param p)
  | .slot key => .var (slots.idxOf key)

namespace Move

/-- The update of a move once the inputs of a run are known. -/
def resolved (inputs : Inputs) (slots : List SlotKey) (m : Move) : Instr Resolved :=
  m.verb.instr (.var (slots.idxOf m.dest)) (m.src.resolved inputs slots)

/-- The move reads one of the first `consts` constants, if any, and multiplies by no slot. -/
structure Sound (consts : Nat) (m : Move) : Prop where
  const : ∀ index, m.src = .const index → index < consts
  scalar : m.verb = .mul → m.src.keys = []

theorem Sound.mono {consts consts' : Nat} {m : Move} (sound : m.Sound consts) (le : consts ≤ consts') :
    m.Sound consts' :=
  ⟨fun index src => Nat.lt_of_lt_of_le (sound.const index src) le, sound.scalar⟩

variable {inputs : Inputs} {slots : List SlotKey} {m : Move}

theorem traverse_instr {ε α β : Type} {f : α → Except ε β} {a b : α} {a' b' : β} (verb : Verb)
    (left : f a = .ok a') (right : f b = .ok b') :
    (verb.instr a b).traverse f = .ok (verb.instr a' b') := by
  cases verb <;> simp [Verb.instr, Instr.traverse, left, right, bind, Except.bind, pure, Except.pure]

/-- A move over the constants there are resolves. -/
theorem traverse_number (sound : m.Sound inputs.folded.length) :
    (m.number slots).traverse (CompiledLoop.resolveOperand inputs.folded inputs.shape) =
      .ok (m.resolved inputs slots) := by
  refine traverse_instr m.verb rfl ?_
  cases src : m.src with
  | const index =>
    have bound := sound.const index src
    simp [Place.number, Place.resolved, CompiledLoop.resolveOperand, List.getElem?_eq_getElem bound]
  | _ => rfl

theorem isUpdate_resolved : (m.resolved inputs slots).isUpdate = true := by
  rcases m with ⟨_ | _ | _ | _, _, _⟩ <;> rfl

theorem fits_resolved (sound : m.Sound inputs.folded.length) (known : ∀ key ∈ m.keys, key ∈ slots) :
    Engine.Fits slots.length (m.resolved inputs slots) := by
  have dest : Engine.IsSlot slots.length (.var (slots.idxOf m.dest)) :=
    List.idxOf_lt_length_iff.mpr (known m.dest (by simp [keys]))
  have src : Engine.IsTerm slots.length (m.src.resolved inputs slots) := by
    cases place : m.src with
    | slot key => exact List.idxOf_lt_length_iff.mpr (known key (by simp [keys, place, Place.keys]))
    | _ => trivial
  have scalar : m.verb = .mul → Engine.IsNumber (m.src.resolved inputs slots) := by
    intro isMul
    have none := sound.scalar isMul
    cases place : m.src with
    | slot key => simp [place, Place.keys] at none
    | _ => trivial
  cases verb : m.verb with
  | mul => simpa only [resolved, verb] using ⟨dest, scalar verb⟩
  | _ => simpa only [resolved, verb] using ⟨dest, src⟩

theorem read_slot (values : SlotKey → Int) {key : SlotKey} (known : key ∈ slots) :
    MatrixCode.read (slots.map values) (.var (slots.idxOf key)) = some (values key) := by
  simp [MatrixCode.read, List.getElem?_map, List.getElem?_idxOf known]

theorem read_resolved (values : SlotKey → Int) {place : Place} (known : ∀ key ∈ place.keys, key ∈ slots) :
    MatrixCode.read (slots.map values) (place.resolved inputs slots) = some (place.eval inputs values) := by
  cases place with
  | slot key => exact read_slot values (known key (by simp [Place.keys]))
  | _ => rfl

/-- A number is written to the slot of a key, and to no other. -/
theorem write_slot (nodup : slots.Nodup) (values : SlotKey → Int) {key : SlotKey} (known : key ∈ slots)
    (n : Int) :
    MatrixCode.write (slots.map values) n (.var (slots.idxOf key)) =
      some (slots.map (Function.update values key n)) := by
  have bound : slots.idxOf key < (slots.map values).length := by
    rw [List.length_map]
    exact List.idxOf_lt_length_iff.mpr known
  rw [MatrixCode.write, if_pos bound, Option.some.injEq]
  refine List.ext_getElem (by simp) fun i hi _ => ?_
  have inside : i < slots.length := by simpa using hi
  rw [List.getElem_set, List.getElem_map, List.getElem_map]
  -- the number of a key is found at the key alone, since no key occurs twice
  by_cases same : slots[i] = key
  · rw [if_pos (same ▸ nodup.idxOf_getElem i inside), same, Function.update_self]
  · have ne : slots.idxOf key ≠ i := by
      rintro rfl
      exact same (List.getElem_idxOf inside)
    rw [if_neg ne, Function.update_of_ne same]

/-- A numbered update acts on the state vector as the move does on the slots. -/
theorem update_resolved (nodup : slots.Nodup) (known : ∀ key ∈ m.keys, key ∈ slots)
    (values : SlotKey → Int) :
    MatrixCode.update (slots.map values) (m.resolved inputs slots) =
      some (slots.map (m.act inputs values)) := by
  have dest : m.dest ∈ slots := known m.dest (by simp [keys])
  have readDest := read_slot values dest
  have readSrc : MatrixCode.read (slots.map values) (m.src.resolved inputs slots) =
      some (m.src.eval inputs values) :=
    read_resolved values fun key member => known key (List.mem_cons_of_mem _ member)
  cases verb : m.verb <;>
    simp [resolved, verb, Verb.instr, MatrixCode.update, readDest, readSrc, write_slot nodup values dest,
      act, Verb.result]

end Move

/-! ### Counted loops -/

/-- Moves that are carried out once, a block of moves that is carried out in every round, and moves that are
carried out once after it. -/
structure MoveLoop where
  before : List Move
  block : List Move
  after : List Move

namespace MoveLoop

variable (loop : MoveLoop)

def moves : List Move := loop.before ++ loop.block ++ loop.after

/-- The code of a loop with the given count, once each move has been turned into an update. -/
def code {α : Type} (count : α) (update : Move → Instr α) : List (Instr α) :=
  loop.before.map update ++ (.loop count :: loop.block.map update ++ .endLoop :: loop.after.map update)

/-- The code that a draft holds. -/
def number (slots : List SlotKey) : List (Instr Operand) :=
  loop.code (.param .itersCount) (Move.number slots)

/-- The code that the engine is given. -/
def resolved (inputs : Inputs) (slots : List SlotKey) : List (Instr Resolved) :=
  loop.code (.value inputs.shape.itersCount) (Move.resolved inputs slots)

/-- The values of the slots after the loop. -/
def acts (inputs : Inputs) (values : SlotKey → Int) : SlotKey → Int :=
  Move.acts inputs loop.after
    ((Move.acts inputs loop.block)^[inputs.shape.itersCount.toNat] (Move.acts inputs loop.before values))

variable {loop} {inputs : Inputs} {slots : List SlotKey}

theorem mem_code {α : Type} {count : α} {update : Move → Instr α} {instr : Instr α}
    (member : instr ∈ loop.code count update) :
    (∃ m ∈ loop.moves, update m = instr) ∨ instr = .loop count ∨ instr = .endLoop := by
  simp only [code, moves, List.mem_append, List.mem_cons, List.mem_map] at member ⊢
  rcases member with ⟨m, within, rfl⟩ | (rfl | ⟨m, within, rfl⟩) | rfl | ⟨m, within, rfl⟩
  · exact .inl ⟨m, .inl (.inl within), rfl⟩
  · exact .inr (.inl rfl)
  · exact .inl ⟨m, .inl (.inr within), rfl⟩
  · exact .inr (.inr rfl)
  · exact .inl ⟨m, .inr within, rfl⟩

/-- The code resolves once the inputs of a run are known. -/
theorem resolve_number (inputs : Inputs) (sound : ∀ m ∈ loop.moves, m.Sound inputs.folded.length) :
    CompiledLoop.resolve (loop.number slots) inputs.folded inputs.shape = .ok (loop.resolved inputs slots) := by
  have each : ∀ moves ⊆ loop.moves, List.Forall₂ (fun instr instr' =>
        instr.traverse (CompiledLoop.resolveOperand inputs.folded inputs.shape) = .ok instr')
      (moves.map (Move.number slots)) (moves.map (Move.resolved inputs slots)) := by
    intro moves within
    rw [List.forall₂_map_left_iff, List.forall₂_map_right_iff, List.forall₂_same]
    exact fun m member => Move.traverse_number (sound m (within member))
  rw [CompiledLoop.resolve, mapM_eq_ok_iff]
  refine List.rel_append (each loop.before (by simp [moves])) (.cons rfl ?_)
  refine List.rel_append (each loop.block (by simp [moves])) (.cons rfl ?_)
  exact each loop.after (by simp [moves])

theorem balanced_append (moves : List Move) {rest : List (Instr Resolved)} (balanced : Balanced rest) :
    Balanced (moves.map (Move.resolved inputs slots) ++ rest) := by
  induction moves with
  | nil => exact balanced
  | cons m moves ih => exact .update Move.isUpdate_resolved ih

theorem balanced_moves (moves : List Move) : Balanced (moves.map (Move.resolved inputs slots)) := by
  simpa using balanced_append moves .nil

theorem fits_resolved (known : ∀ m ∈ loop.moves, ∀ key ∈ m.keys, key ∈ slots)
    (sound : ∀ m ∈ loop.moves, m.Sound inputs.folded.length) (count : 0 ≤ inputs.shape.itersCount) :
    ∀ instr ∈ loop.resolved inputs slots, Engine.Fits slots.length instr := by
  intro instr member
  rcases mem_code member with ⟨m, within, rfl⟩ | rfl | rfl
  · exact Move.fits_resolved (sound m within) (known m within)
  · exact count
  · trivial

theorem interpret_append (nodup : slots.Nodup) {moves : List Move}
    (known : ∀ m ∈ moves, ∀ key ∈ m.keys, key ∈ slots) (rest : List (Instr Resolved))
    (values : SlotKey → Int) :
    interpret (moves.map (Move.resolved inputs slots) ++ rest) (slots.map values) =
      interpret rest (slots.map (Move.acts inputs moves values)) := by
  induction moves generalizing values with
  | nil => rfl
  | cons m moves ih =>
    rw [List.map_cons, List.cons_append, interpret_update Move.isUpdate_resolved,
      Move.update_resolved nodup (known m (.head moves)), Option.bind_some,
      ih fun m' member => known m' (.tail m member)]
    rfl

theorem interpret_moves (nodup : slots.Nodup) {moves : List Move}
    (known : ∀ m ∈ moves, ∀ key ∈ m.keys, key ∈ slots) (values : SlotKey → Int) :
    interpret (moves.map (Move.resolved inputs slots)) (slots.map values) =
      some (slots.map (Move.acts inputs moves values)) := by
  simpa using interpret_append nodup known [] values

theorem repeated_moves (nodup : slots.Nodup) {moves : List Move}
    (known : ∀ m ∈ moves, ∀ key ∈ m.keys, key ∈ slots) (count : Nat) (values : SlotKey → Int) :
    repeated (interpret (moves.map (Move.resolved inputs slots))) count (slots.map values) =
      some (slots.map ((Move.acts inputs moves)^[count] values)) := by
  induction count generalizing values with
  | zero => rfl
  | succ count ih =>
    rw [repeated, interpret_moves nodup known]
    exact ih _

/-- The engine carries the loop out on the slots. -/
theorem run_resolved (nodup : slots.Nodup) (known : ∀ m ∈ loop.moves, ∀ key ∈ m.keys, key ∈ slots)
    (sound : ∀ m ∈ loop.moves, m.Sound inputs.folded.length) (count : 0 ≤ inputs.shape.itersCount)
    (engine : Engine) (values : SlotKey → Int) :
    engine.run (loop.resolved inputs slots) (slots.map values) =
      .ok (slots.map (loop.acts inputs values)) := by
  have within : ∀ moves ⊆ loop.moves, ∀ m ∈ moves, ∀ key ∈ m.keys, key ∈ slots :=
    fun moves sub m member => known m (sub member)
  have balanced : Balanced (loop.resolved inputs slots) :=
    balanced_append loop.before (.loop (balanced_moves loop.block) (balanced_moves loop.after))
  have fits : ∀ instr ∈ loop.resolved inputs slots, Engine.Fits (slots.map values).length instr := by
    rw [List.length_map]
    exact fits_resolved known sound count
  obtain ⟨result, ran, -, interpreted⟩ := Engine.run_of_fits engine balanced fits
  rw [resolved, code, interpret_append nodup (within loop.before (by simp [moves])),
    interpret_loop (balanced_moves loop.block), rounds?, if_neg (by omega), Option.bind_some,
    repeated_moves nodup (within loop.block (by simp [moves])), Option.bind_some,
    interpret_moves nodup (within loop.after (by simp [moves]))] at interpreted
  rw [ran, Except.ok.injEq]
  exact (Option.some.inj interpreted).symm

end MoveLoop

end AffineLoops
