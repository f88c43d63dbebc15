import AffineLoops.CompiledLoop.Compile
import AffineLoops.Proofs.LiteralSteps
import AffineLoops.Proofs.Numbering

/-!
What the lowering of an instruction can do. A draft has two sides: its `Sketch` is the symbolic stack with
what is known about variables and constants, and its output is the code with the slots of the code.
`Lowers` lists, for each action, the sketches it applies to, the moves it emits and the sketch it leaves;
`Draft.realizes_lower` and `lowersAll_of_lowerBody` say that lowering does nothing else.
-/

namespace AffineLoops

open Draft (clearing Emits)

/-- The symbolic side of a draft. -/
structure Sketch where
  /-- Top first. -/
  stack : List Entry
  bindings : List (Variable × Binding)
  consts : List ConstProgram

def Draft.sketch (d : Draft) : Sketch := ⟨d.stack, d.bindings, d.consts⟩

/-! ### Constants -/

namespace ConstProgram

/-- The number of a program among the constants. -/
def indexIn (program : ConstProgram) (consts : List ConstProgram) : Nat :=
  program.alias?.getD consts.length

/-- The constants with a program in. -/
def addTo (program : ConstProgram) (consts : List ConstProgram) : List ConstProgram :=
  if program.alias?.isSome then consts else consts ++ [program]

theorem prefix_addTo (program : ConstProgram) (consts : List ConstProgram) :
    consts <+: program.addTo consts := by
  unfold addTo
  split
  · exact List.prefix_refl consts
  · exact List.prefix_append consts _

/-- A program that is new among the constants stands after those before it. -/
theorem getElem?_of_addTo {program : ConstProgram} {consts all : List ConstProgram}
    (fresh : program.alias? = none) (grown : program.addTo consts <+: all) :
    all[consts.length]? = some program := by
  obtain ⟨others, rfl⟩ := grown
  simp [addTo, fresh]

end ConstProgram

theorem Draft.constant_eq (d : Draft) (program : ConstProgram) :
    d.constant program = (program.indexIn d.consts, { d with consts := program.addTo d.consts }) := by
  unfold constant ConstProgram.indexIn ConstProgram.addTo
  split <;> simp_all

/-! ### Moves of whole instructions -/

def AffineOp.verb : AffineOp → Verb
  | .multiply => .mul
  | .add => .add
  | .subtract => .sub

theorem AffineOp.instr_eq (op : AffineOp) : op.instr = op.verb.instr := by
  cases op <;> rfl

/-- Whether the entry so far below the top is live. -/
def liveAt (stack : List Entry) (offset : Nat) : Bool := (stack.getD offset .live).isLive

/-- The copies by which the live entries among the `count - 1` below the top go up by one slot. -/
def lifting (count : Nat) (stack : List Entry) : List Move :=
  Move.copies (fun offset => stack.length - 1 - offset) (fun offset => stack.length - 2 - offset)
    ((List.range (count - 1)).filter fun offset => liveAt stack (offset + 1))

/-- The moves of a rotation. -/
def rotation (options : CompileOptions) (count : Nat) (stack : List Entry) : List Move :=
  if liveAt stack 0 then
    Move.copy stack.length (stack.length - 1) :: lifting count stack
      ++ Move.copy (stack.length - count) stack.length :: clearing options stack.length
  else lifting count stack

/-- The moves of a duplication. -/
def duplication (count : Nat) (stack : List Entry) : List Move :=
  Move.copies (fun index => stack.length + index) (fun index => stack.length - count + index)
    ((List.range count).filter fun index => liveAt stack (count - 1 - index))

/-- The updates by which a live right operand takes in a constant left one. -/
def absorbing (op : AffineOp) (depth index : Nat) : List Move :=
  match op with
  | .multiply => [⟨.mul, .stack depth, .const index⟩]
  | .add => [⟨.add, .stack depth, .const index⟩]
  | .subtract => [⟨.mul, .stack depth, .value (-1)⟩, ⟨.add, .stack depth, .const index⟩]

/-- The moves of an affine operation on a constant and the live entry above it. -/
def sinking (options : CompileOptions) (op : AffineOp) (depth index : Nat) : List Move :=
  absorbing op (depth + 1) index ++ Move.copy depth (depth + 1) :: clearing options (depth + 1)

/-- What the compiler does for an action: the moves it emits and the sketch it leaves. -/
inductive Lowers (options : CompileOptions) : Action → Sketch → List Move → Sketch → Prop where
  | skip {s : Sketch} : Lowers options .skip s [] s
  | popFoldable {program : ConstProgram} {rest : List Entry} {bindings : List (Variable × Binding)}
      {consts : List ConstProgram} :
      Lowers options .pop ⟨.foldable program :: rest, bindings, consts⟩ [] ⟨rest, bindings, consts⟩
  | popLive {rest : List Entry} {bindings : List (Variable × Binding)} {consts : List ConstProgram} :
      Lowers options .pop ⟨.live :: rest, bindings, consts⟩ (clearing options rest.length)
        ⟨rest, bindings, consts⟩
  | rotate {count : Nat} {stack : List Entry} {bindings : List (Variable × Binding)}
      {consts : List ConstProgram} :
      0 < count → count ≤ stack.length →
        Lowers options (.rotate count) ⟨stack, bindings, consts⟩ (rotation options count stack)
          ⟨Stack.rotate count stack, bindings, consts⟩
  | duplicate {count : Nat} {stack : List Entry} {bindings : List (Variable × Binding)}
      {consts : List ConstProgram} :
      count ≤ stack.length →
        Lowers options (.duplicate count) ⟨stack, bindings, consts⟩ (duplication count stack)
          ⟨Stack.duplicate count stack, bindings, consts⟩
  /-- A plus sign leaves no trace. -/
  | positive {s : Sketch} : s.stack ≠ [] → Lowers options (.unary .positive) s [] s
  | unaryFoldable {op : UnaryOp} {program : ConstProgram} {rest : List Entry}
      {bindings : List (Variable × Binding)} {consts : List ConstProgram} :
      op ≠ .positive →
        Lowers options (.unary op) ⟨.foldable program :: rest, bindings, consts⟩ []
          ⟨.foldable (program ++ [.unary op]) :: rest, bindings, consts⟩
  | negateLive {rest : List Entry} {bindings : List (Variable × Binding)} {consts : List ConstProgram} :
      Lowers options (.unary .negative) ⟨.live :: rest, bindings, consts⟩
        [⟨.mul, .stack rest.length, .value (-1)⟩] ⟨.live :: rest, bindings, consts⟩
  | binaryFoldable {op : BinaryOp} {left right : ConstProgram} {rest : List Entry}
      {bindings : List (Variable × Binding)} {consts : List ConstProgram} :
      Lowers options (.binary op) ⟨.foldable right :: .foldable left :: rest, bindings, consts⟩ []
        ⟨.foldable (left ++ right ++ [.binary op]) :: rest, bindings, consts⟩
  | binaryLeft {op : BinaryOp} {affine : AffineOp} {right : ConstProgram} {rest : List Entry}
      {bindings : List (Variable × Binding)} {consts : List ConstProgram} :
      op.affine? = some affine →
        Lowers options (.binary op) ⟨.foldable right :: .live :: rest, bindings, consts⟩
          [⟨affine.verb, .stack rest.length, .const (right.indexIn consts)⟩]
          ⟨.live :: rest, bindings, right.addTo consts⟩
  | binaryRight {op : BinaryOp} {affine : AffineOp} {left : ConstProgram} {rest : List Entry}
      {bindings : List (Variable × Binding)} {consts : List ConstProgram} :
      op.affine? = some affine →
        Lowers options (.binary op) ⟨.live :: .foldable left :: rest, bindings, consts⟩
          (sinking options affine rest.length (left.indexIn consts))
          ⟨.live :: rest, bindings, left.addTo consts⟩
  | binaryBoth {op : BinaryOp} {affine : AffineOp} {rest : List Entry}
      {bindings : List (Variable × Binding)} {consts : List ConstProgram} :
      op.affine? = some affine → affine ≠ .multiply →
        Lowers options (.binary op) ⟨.live :: .live :: rest, bindings, consts⟩
          (⟨affine.verb, .stack rest.length, .slot (.stack (rest.length + 1))⟩
            :: clearing options (rest.length + 1))
          ⟨.live :: rest, bindings, consts⟩
  | push {value : Value} {stack : List Entry} {bindings : List (Variable × Binding)}
      {consts : List ConstProgram} :
      options.types.allows value = true →
        Lowers options (.push value) ⟨stack, bindings, consts⟩ []
          ⟨.foldable [.push value] :: stack, bindings, consts⟩
  | loadConst {v : Variable} {index : Nat} {stack : List Entry} {bindings : List (Variable × Binding)}
      {consts : List ConstProgram} :
      bindings.lookup v = some (.const index) →
        Lowers options (.load v) ⟨stack, bindings, consts⟩ []
          ⟨.foldable [.folded index] :: stack, bindings, consts⟩
  | loadSlot {v : Variable} {stack : List Entry} {bindings : List (Variable × Binding)}
      {consts : List ConstProgram} :
      bindings.lookup v = some .slot →
        Lowers options (.load v) ⟨stack, bindings, consts⟩
          [⟨.mov, .stack stack.length, .slot (.host v)⟩] ⟨.live :: stack, bindings, consts⟩
  | storeFoldable {v : Variable} {program : ConstProgram} {rest : List Entry}
      {bindings : List (Variable × Binding)} {consts : List ConstProgram} :
      Lowers options (.store v) ⟨.foldable program :: rest, bindings, consts⟩
        [⟨.mov, .host v, .const (program.indexIn consts)⟩]
        ⟨rest, (v, .const (program.indexIn consts)) :: bindings, program.addTo consts⟩
  | storeLive {v : Variable} {rest : List Entry} {bindings : List (Variable × Binding)}
      {consts : List ConstProgram} :
      Lowers options (.store v) ⟨.live :: rest, bindings, consts⟩
        (⟨.mov, .host v, .slot (.stack rest.length)⟩ :: clearing options rest.length)
        ⟨rest, (v, .slot) :: bindings, consts⟩

/-! ### Lowering does what is listed -/

namespace Draft

variable {options : CompileOptions} {d d' d'' : Draft}

/-- A draft has emitted moves, and its sketch is as before. -/
structure Draws (moves : List Move) (d d' : Draft) : Prop where
  emits : Emits moves d.output d'.output
  sketch : d'.sketch = d.sketch

theorem Draws.trans {first second : List Move} (left : Draws first d d') (right : Draws second d' d'') :
    Draws (first ++ second) d d'' :=
  ⟨left.emits.trans right.emits, right.sketch.trans left.sketch⟩

theorem emit_draws (verb : Verb) (dest : SlotKey) (src : Place) (d : Draft) :
    Draws [⟨verb, dest, src⟩] d (d.emit verb.instr (.slot dest) src) := by
  refine ⟨emit_emits verb dest src d, ?_⟩
  simp only [emit, operand_eq]
  rfl

theorem move_draws (dest src : Nat) (d : Draft) : Draws [.copy dest src] d (d.move dest src) :=
  emit_draws .mov (.stack dest) (.slot (.stack src)) d

theorem clear_draws (options : CompileOptions) (depth : Nat) (d : Draft) :
    Draws (clearing options depth) d (d.clear options depth) := by
  unfold clear clearing
  split
  · exact emit_draws .mov (.stack depth) (.value 0) d
  · exact ⟨.refl _, rfl⟩

theorem foldl_move_draws (dest src : Nat → Nat) (indices : List Nat) (d : Draft) :
    Draws (Move.copies dest src indices) d (indices.foldl (fun d i => d.move (dest i) (src i)) d) := by
  induction indices generalizing d with
  | nil => exact ⟨.refl _, rfl⟩
  | cons i rest ih => exact (move_draws (dest i) (src i) d).trans (ih _)

theorem liftBelow_draws (count : Nat) (d : Draft) :
    Draws (lifting count d.stack) d (d.liftBelow count) := by
  have lifted := foldl_move_draws (fun offset => d.stack.length - 1 - offset)
    (fun offset => d.stack.length - 2 - offset)
    ((List.range (count - 1)).filter fun offset => liveAt d.stack (offset + 1)) d
  rw [List.foldl_filter] at lifted
  exact lifted

/-- The lowering of an action emits moves and changes the sketch as listed. -/
def Realizes (options : CompileOptions) (action : Action) (d d' : Draft) : Prop :=
  ∃ moves, Lowers options action d.sketch moves d'.sketch ∧ Emits moves d.output d'.output

/-- Moves that keep the sketch, after a change of the constants and before one of the stack. -/
theorem Draws.realizes {moves : List Move} {action : Action} {consts : List ConstProgram}
    {stack : List Entry} (drawn : Draws moves { d with consts := consts } d')
    (lowers : Lowers options action d.sketch moves ⟨stack, d.bindings, consts⟩) :
    Realizes options action d { d' with stack := stack } := by
  obtain ⟨-, bindings, constants⟩ := Sketch.mk.inj drawn.sketch
  refine ⟨moves, ?_, drawn.emits⟩
  show Lowers options action d.sketch moves ⟨stack, d'.bindings, d'.consts⟩
  rw [bindings, constants]
  exact lowers

/-- The same with a new binding at the end. -/
theorem Draws.realizes_bind {moves : List Move} {action : Action} {consts : List ConstProgram}
    {stack : List Entry} {v : Variable} {binding : Binding}
    (drawn : Draws moves { d with consts := consts } d')
    (lowers : Lowers options action d.sketch moves ⟨stack, (v, binding) :: d.bindings, consts⟩) :
    Realizes options action d { d'.bind v binding with stack := stack } := by
  obtain ⟨-, bindings, constants⟩ := Sketch.mk.inj drawn.sketch
  refine ⟨moves, ?_, drawn.emits⟩
  show Lowers options action d.sketch moves ⟨stack, (v, binding) :: d'.bindings, d'.consts⟩
  rw [bindings, constants]
  exact lowers

theorem Draws.realizes_kept {moves : List Move} {action : Action} (drawn : Draws moves d d')
    (lowers : Lowers options action d.sketch moves d.sketch) : Realizes options action d d' := by
  refine ⟨moves, ?_, drawn.emits⟩
  rw [drawn.sketch]
  exact lowers

theorem realizes_popTop (popped : d.popTop options = .ok d') : Realizes options .pop d d' := by
  rcases d with ⟨_ | ⟨_ | _, rest⟩, code, slots, bindings, consts⟩ <;> cases popped
  · exact ⟨_, .popFoldable, .refl _⟩
  · exact (clear_draws options rest.length _).realizes .popLive

theorem realizes_rotate {count : Nat} (positive : 0 < count) (rotated : d.rotate options count = .ok d') :
    Realizes options (.rotate count) d d' := by
  unfold rotate at rotated
  split at rotated
  · cases rotated
  · rename_i room
    cases rotated
    refine Draws.realizes ?_ (.rotate positive (Nat.le_of_not_lt room))
    have top : (d.stack.headD .live).isLive = liveAt d.stack 0 := by
      cases d.stack <;> rfl
    unfold rotation
    simp only [top]
    split
    · -- The top entry waits in the free slot while the others go up.
      have aside := move_draws d.height (d.height - 1) d
      have lifted := liftBelow_draws count (d.move d.height (d.height - 1))
      rw [show (d.move d.height (d.height - 1)).stack = d.stack from congrArg Sketch.stack aside.sketch]
        at lifted
      have settled := ((aside.trans lifted).trans (move_draws (d.height - count) d.height _)).trans
        (clear_draws options d.height _)
      simpa [height] using settled
    · exact liftBelow_draws count d

theorem realizes_duplicate {count : Nat} (copied : d.duplicate count = .ok d') :
    Realizes options (.duplicate count) d d' := by
  unfold duplicate at copied
  split at copied
  · cases copied
  · rename_i room
    cases copied
    refine Draws.realizes ?_ (.duplicate (Nat.le_of_not_lt room))
    have drawn := foldl_move_draws (fun index => d.stack.length + index)
      (fun index => d.stack.length - count + index)
      ((List.range count).filter fun index => liveAt d.stack (count - 1 - index)) d
    rw [List.foldl_filter] at drawn
    exact drawn

theorem realizes_unary {opcode : Opcode} {op : UnaryOp} (lowered : d.lowerUnary opcode op = .ok d') :
    Realizes options (.unary op) d d' := by
  rcases d with ⟨_ | ⟨program | _, rest⟩, code, slots, bindings, consts⟩ <;> cases op <;> cases lowered
  case cons.live.negative =>
    exact (emit_draws .mul _ _ _).realizes_kept .negateLive
  case cons.foldable.positive | cons.live.positive => exact ⟨_, .positive (by simp [sketch]), .refl _⟩
  all_goals exact ⟨_, .unaryFoldable (by simp), .refl _⟩

theorem emit_with_consts (update : Operand → Operand → Instr Operand) (dest src : Place) (d : Draft)
    (consts : List ConstProgram) :
    { d.emit update dest src with consts := consts } = { d with consts := consts }.emit update dest src := by
  simp only [emit, operand_eq]
  rfl

/-- The update by a constant, on the draft that has it already. -/
theorem emitFolded_eq_emit (verb : Verb) (depth : Nat) (program : ConstProgram) (d : Draft) :
    d.emitFolded verb.instr depth program =
      { d with consts := program.addTo d.consts }.emit verb.instr (.slot (.stack depth))
        (.const (program.indexIn d.consts)) := by
  rw [emitFolded_eq, constant_eq]
  rfl

theorem sink_draws (depth : Nat) (d : Draft) :
    Draws (Move.copy depth (depth + 1) :: clearing options (depth + 1)) d (d.sink options depth) :=
  (move_draws depth (depth + 1) d).trans (clear_draws options (depth + 1) _)

theorem updateRight_draws (depth : Nat) (left : ConstProgram) (op : AffineOp) (d : Draft) :
    Draws (sinking options op depth (left.indexIn d.consts)) { d with consts := left.addTo d.consts }
      (d.updateRight options depth left op) := by
  have folded : ∀ (verb : Verb) (d : Draft), Draws [⟨verb, .stack (depth + 1), .const (left.indexIn d.consts)⟩]
      { d with consts := left.addTo d.consts } (d.emitFolded verb.instr (depth + 1) left) := by
    intro verb d
    rw [emitFolded_eq_emit]
    exact emit_draws verb _ _ _
  cases op with
  | multiply => exact (folded .mul d).trans (sink_draws depth _)
  | add => exact (folded .add d).trans (sink_draws depth _)
  | subtract =>
    have negated := emit_draws .mul (.stack (depth + 1)) (.value (-1)) { d with consts := left.addTo d.consts }
    have added := folded .add (d.emit .mul (entrySlot (depth + 1)) (.value (-1)))
    have consts : (d.emit .mul (entrySlot (depth + 1)) (.value (-1))).consts = d.consts :=
      congrArg Sketch.consts (emit_draws .mul (.stack (depth + 1)) (.value (-1)) d).sketch
    rw [consts, emit_with_consts] at added
    exact (negated.trans added).trans (sink_draws depth _)

theorem realizes_binary {opcode : Opcode} {op : BinaryOp}
    (lowered : d.lowerBinary options opcode op = .ok d') : Realizes options (.binary op) d d' := by
  rcases d with ⟨_ | ⟨right, _ | ⟨left, rest⟩⟩, code, slots, bindings, consts⟩
  · cases lowered
  · cases right <;> cases lowered
  · cases affine : op.affine? with
    | none =>
      cases right <;> cases left <;> simp only [lowerBinary, affine] at lowered <;> cases lowered
      exact ⟨_, .binaryFoldable, .refl _⟩
    | some affineOp =>
      cases right with
      | foldable right =>
        cases left with
        | foldable left =>
          cases lowered
          exact ⟨_, .binaryFoldable, .refl _⟩
        | live =>
          simp only [lowerBinary, affine, joinLive, updateLeft, AffineOp.instr_eq, emitFolded_eq_emit] at lowered
          cases lowered
          exact (emit_draws affineOp.verb _ _ _).realizes (.binaryLeft affine)
      | live =>
        cases left with
        | foldable left =>
          simp only [lowerBinary, affine, joinLive] at lowered
          cases lowered
          exact (updateRight_draws rest.length left affineOp _).realizes (.binaryRight affine)
        | live =>
          simp only [lowerBinary, affine, joinLive] at lowered
          cases affineOp with
          | multiply => cases lowered
          | add =>
            cases lowered
            exact ((emit_draws .add _ _ _).trans (clear_draws options (rest.length + 1) _)).realizes
              (.binaryBoth affine (by simp))
          | subtract =>
            cases lowered
            exact ((emit_draws .sub _ _ _).trans (clear_draws options (rest.length + 1) _)).realizes
              (.binaryBoth affine (by simp))

theorem realizes_loadConst {value : Value} (loaded : d.loadConst options value = .ok d') :
    Realizes options (.push value) d d' := by
  unfold loadConst at loaded
  split at loaded
  · rename_i allowed
    cases loaded
    exact ⟨_, .push allowed, .refl _⟩
  · cases loaded

theorem realizes_loadVariable {v : Variable} (known : (d.bindings.lookup v).isSome) :
    Realizes options (.load v) d (d.loadVariable v) := by
  obtain ⟨binding, bound⟩ := Option.isSome_iff_exists.mp known
  have registered : d.register v false = d := by simp [register, binding?, bound]
  simp only [loadVariable, registered, binding?, bound]
  cases binding with
  | const index => exact ⟨_, .loadConst bound, .refl _⟩
  | slot => exact (emit_draws .mov _ _ _).realizes (.loadSlot bound)

theorem realizes_storeVariable {v : Variable} (stored : d.storeVariable options v = .ok d') :
    Realizes options (.store v) d d' := by
  rcases d with ⟨_ | ⟨program | _, rest⟩, code, slots, bindings, consts⟩
  · cases stored
  · simp only [storeVariable, constant_eq] at stored
    cases stored
    exact (emit_draws .mov (.host v) _ _).realizes_bind .storeFoldable
  · cases stored
    exact ((emit_draws .mov (.host v) _ _).trans (clear_draws options rest.length _)).realizes_bind .storeLive

/-- Lowering does what is listed for the action of the instruction. -/
theorem realizes_lower {instr : Instruction} (lowered : d.lower options instr = .ok d')
    (known : ∀ v, instr.access? = some (.load v) → (d.bindings.lookup v).isSome) :
    ∃ action, instr.action? = some action ∧ Realizes options action d d' := by
  rcases instr with ⟨opcode, arg⟩
  cases opcode
  case nop =>
    cases lowered
    exact ⟨_, rfl, _, .skip, .refl _⟩
  case popTop => exact ⟨_, rfl, realizes_popTop lowered⟩
  case rotTwo | rotThree | rotFour => exact ⟨_, rfl, realizes_rotate (by simp) lowered⟩
  case dupTop => exact ⟨_, rfl, realizes_duplicate lowered⟩
  case dupTopX =>
    cases arg with
    | count n => exact ⟨_, rfl, realizes_duplicate lowered⟩
    | _ => cases lowered
  case unary op => exact ⟨_, rfl, realizes_unary lowered⟩
  case binary op | inplace op => exact ⟨_, rfl, realizes_binary lowered⟩
  case loadConst =>
    cases arg with
    | const value => exact ⟨_, rfl, realizes_loadConst lowered⟩
    | _ => cases lowered
  case load scope =>
    cases arg with
    | name name =>
      cases lowered
      exact ⟨_, rfl, realizes_loadVariable (known _ rfl)⟩
    | _ => cases lowered
  case store scope =>
    cases arg with
    | name name => exact ⟨_, rfl, realizes_storeVariable lowered⟩
    | _ => cases lowered
  all_goals cases lowered

end Draft

/-! ### The slots that moves name -/

/-- A stack slot is set to zero or to the value of another one. -/
structure Move.Shuffles (m : Move) : Prop where
  verb : m.verb = .mov
  dest : ∃ depth, m.dest = .stack depth
  src : m.src = .value 0 ∨ ∃ depth, m.src = .slot (.stack depth)

theorem Move.shuffles_copy (dest src : Nat) : (Move.copy dest src).Shuffles :=
  ⟨rfl, ⟨dest, rfl⟩, .inr ⟨src, rfl⟩⟩

theorem Move.shuffles_copies {dest src : Nat → Nat} {indices : List Nat} {m : Move}
    (member : m ∈ Move.copies dest src indices) : m.Shuffles := by
  obtain ⟨i, -, rfl⟩ := List.mem_map.mp member
  exact shuffles_copy _ _

theorem shuffles_clearing {options : CompileOptions} {depth : Nat} {m : Move}
    (member : m ∈ clearing options depth) : m.Shuffles := by
  unfold clearing at member
  split at member
  · rw [List.mem_singleton.mp member]
    exact ⟨rfl, ⟨depth, rfl⟩, .inl rfl⟩
  · cases member

theorem shuffles_rotation {options : CompileOptions} {count : Nat} {stack : List Entry} {m : Move}
    (member : m ∈ rotation options count stack) : m.Shuffles := by
  unfold rotation at member
  split at member
  · simp only [List.cons_append, List.mem_cons, List.mem_append] at member
    rcases member with rfl | lifted | rfl | cleared
    · exact Move.shuffles_copy _ _
    · exact Move.shuffles_copies lifted
    · exact Move.shuffles_copy _ _
    · exact shuffles_clearing cleared
  · exact Move.shuffles_copies member

/-- The move changes a stack slot by a constant or a number. -/
theorem sinking_cases {options : CompileOptions} {op : AffineOp} {depth index : Nat} {m : Move}
    (member : m ∈ sinking options op depth index) :
    m.Shuffles ∨ (∃ height, m.dest = .stack height) ∧ (m.src = .value (-1) ∨ m.src = .const index) := by
  rcases List.mem_append.mp member with updates | moved
  · refine .inr ?_
    cases op <;> simp only [absorbing, List.mem_cons, List.not_mem_nil, or_false] at updates
    · exact updates ▸ ⟨⟨_, rfl⟩, .inr rfl⟩
    · exact updates ▸ ⟨⟨_, rfl⟩, .inr rfl⟩
    · rcases updates with rfl | rfl
      · exact ⟨⟨_, rfl⟩, .inl rfl⟩
      · exact ⟨⟨_, rfl⟩, .inr rfl⟩
  · rcases List.mem_cons.mp moved with rfl | cleared
    · exact .inl (Move.shuffles_copy _ _)
    · exact .inl (shuffles_clearing cleared)

/-- The kinds of moves that the lowering of an action emits. -/
inductive MoveKind (action : Action) (s s' : Sketch) (m : Move) : Prop where
  | shuffle : m.Shuffles → MoveKind action s s' m
  /-- A stack slot is changed by a number. -/
  | number (depth : Nat) (n : Int) : m.dest = .stack depth → m.src = .value n → MoveKind action s s' m
  /-- A stack slot or a stored variable is changed by the constant of a foldable entry. -/
  | const (program : ConstProgram) : .foldable program ∈ s.stack → s'.consts = program.addTo s.consts →
      m.src = .const (program.indexIn s.consts) →
      (∃ depth, m.dest = .stack depth) ∨ (∃ v, action = .store v ∧ m.dest = .host v) → MoveKind action s s' m
  /-- Two stack slots are added or subtracted. -/
  | join (depth below : Nat) : m.verb ≠ .mul → m.dest = .stack depth → m.src = .slot (.stack below) →
      MoveKind action s s' m
  | load (depth : Nat) (v : Variable) : s.bindings.lookup v = some .slot → m.verb = .mov →
      m.dest = .stack depth → m.src = .slot (.host v) → MoveKind action s s' m
  | store (depth : Nat) (v : Variable) : action = .store v → m.verb = .mov → m.dest = .host v →
      m.src = .slot (.stack depth) → MoveKind action s s' m

theorem Lowers.moveKind {options : CompileOptions} {action : Action} {s s' : Sketch} {moves : List Move}
    (lowers : Lowers options action s moves s') {m : Move} (member : m ∈ moves) : MoveKind action s s' m := by
  cases lowers with
  | skip | popFoldable | positive | unaryFoldable | binaryFoldable | push | loadConst => cases member
  | popLive => exact .shuffle (shuffles_clearing member)
  | rotate => exact .shuffle (shuffles_rotation member)
  | duplicate => exact .shuffle (Move.shuffles_copies member)
  | negateLive =>
    rw [List.mem_singleton.mp member]
    exact .number _ _ rfl rfl
  | binaryLeft =>
    rw [List.mem_singleton.mp member]
    exact .const _ (by simp) rfl rfl (.inl ⟨_, rfl⟩)
  | @binaryRight _ _ left =>
    rcases sinking_cases member with shuffles | ⟨⟨depth, dest⟩, src | src⟩
    · exact .shuffle shuffles
    · exact .number depth _ dest src
    · exact .const left (by simp) rfl src (.inl ⟨depth, dest⟩)
  | @binaryBoth _ affineOp _ _ _ _ notMultiply =>
    rcases List.mem_cons.mp member with rfl | cleared
    · refine .join _ _ ?_ rfl rfl
      cases affineOp <;> simp_all [AffineOp.verb]
    · exact .shuffle (shuffles_clearing cleared)
  | loadSlot bound =>
    rw [List.mem_singleton.mp member]
    exact .load _ _ bound rfl rfl rfl
  | storeFoldable =>
    rw [List.mem_singleton.mp member]
    exact .const _ (by simp) rfl rfl (.inr ⟨_, rfl, rfl⟩)
  | storeLive =>
    rcases List.mem_cons.mp member with rfl | cleared
    · exact .store _ _ rfl rfl rfl rfl
    · exact .shuffle (shuffles_clearing cleared)

/-- A move goes to a stack slot, or to the variable that is stored to. -/
theorem MoveKind.dest {action : Action} {s s' : Sketch} {m : Move} (kind : MoveKind action s s' m) :
    (∃ depth, m.dest = .stack depth) ∨ ∃ v, action = .store v ∧ m.dest = .host v := by
  cases kind with
  | shuffle shuffles => exact .inl shuffles.dest
  | number depth _ dest => exact .inl ⟨depth, dest⟩
  | const _ _ _ _ dest => exact dest
  | join depth _ _ dest => exact .inl ⟨depth, dest⟩
  | load depth _ _ _ dest => exact .inl ⟨depth, dest⟩
  | store _ v isStore _ dest => exact .inr ⟨v, isStore, dest⟩

/-- A move reads stack slots and variables that live in slots. -/
theorem MoveKind.src {action : Action} {s s' : Sketch} {m : Move} (kind : MoveKind action s s' m) {key : SlotKey}
    (read : key ∈ m.src.keys) :
    (∃ depth, key = .stack depth) ∨ ∃ v, s.bindings.lookup v = some .slot ∧ key = .host v := by
  cases kind with
  | shuffle shuffles =>
    rcases shuffles.src with src | ⟨depth, src⟩ <;> simp [src, Place.keys] at read
    exact .inl ⟨depth, read⟩
  | number _ _ _ src | const _ _ _ src => simp [src, Place.keys] at read
  | join _ below _ _ src =>
    simp [src, Place.keys] at read
    exact .inl ⟨below, read⟩
  | load _ v bound _ _ src =>
    simp [src, Place.keys] at read
    exact .inr ⟨v, bound, read⟩
  | store depth _ _ _ _ src =>
    simp [src, Place.keys] at read
    exact .inl ⟨depth, read⟩

/-- A move multiplies by numbers and constants only. -/
theorem MoveKind.scalar {action : Action} {s s' : Sketch} {m : Move} (kind : MoveKind action s s' m)
    (isMul : m.verb = .mul) : m.src.keys = [] := by
  cases kind with
  | shuffle shuffles => simp [shuffles.verb] at isMul
  | number _ _ _ src | const _ _ _ src => simp [src, Place.keys]
  | join _ _ notMul => contradiction
  | load _ _ _ isMov => simp [isMov] at isMul
  | store _ _ _ isMov => simp [isMov] at isMul

/-! ### Whole bodies -/

namespace Lowers

variable {options : CompileOptions} {action : Action} {s s' : Sketch} {moves : List Move}

/-- A variable that means something goes on meaning something. -/
theorem lookup_isSome (lowers : Lowers options action s moves s') {v : Variable}
    (known : (s.bindings.lookup v).isSome) : (s'.bindings.lookup v).isSome := by
  cases lowers with
  | storeFoldable | storeLive =>
    rw [List.lookup_cons]
    split
    · rfl
    · exact known
  | _ => exact known

/-- Lowering changes what a variable means only at a store to it. -/
theorem lookup_eq (lowers : Lowers options action s moves s') {v : Variable}
    (other : action ≠ .store v) : s'.bindings.lookup v = s.bindings.lookup v := by
  cases lowers with
  | @storeFoldable u | @storeLive u =>
    rw [List.lookup_cons]
    have ne : (v == u) = false := beq_eq_false_iff_ne.mpr fun same => other (by rw [same])
    simp [ne]
  | _ => rfl

/-- Constants are only added. -/
theorem consts_prefix (lowers : Lowers options action s moves s') : s.consts <+: s'.consts := by
  cases lowers with
  | binaryLeft | binaryRight | storeFoldable => exact ConstProgram.prefix_addTo _ _
  | _ => exact List.prefix_refl _

end Lowers

/-- What the compiler does for the instructions of a body in order. -/
inductive LowersAll (options : CompileOptions) : List Instruction → Sketch → List Move → Sketch → Prop where
  | nil {s : Sketch} : LowersAll options [] s [] s
  | cons {instr : Instruction} {rest : List Instruction} {action : Action} {s mid s' : Sketch}
      {first others : List Move} :
      instr.action? = some action → Lowers options action s first mid →
        LowersAll options rest mid others s' → LowersAll options (instr :: rest) s (first ++ others) s'

theorem LowersAll.consts_prefix {options : CompileOptions} {body : List Instruction} {s s' : Sketch}
    {moves : List Move} (lowers : LowersAll options body s moves s') : s.consts <+: s'.consts := by
  induction lowers with
  | nil => exact List.prefix_refl _
  | cons _ first _ ih => exact first.consts_prefix.trans ih

/-- A variable that a body does not store to keeps its meaning. -/
theorem LowersAll.lookup_eq {options : CompileOptions} {body : List Instruction} {s s' : Sketch}
    {moves : List Move} (lowers : LowersAll options body s moves s') {v : Variable}
    (readOnly : .store v ∉ body.filterMap Instruction.access?) :
    s'.bindings.lookup v = s.bindings.lookup v := by
  induction lowers with
  | nil => rfl
  | cons asked first _ ih =>
    rw [ih fun stored => readOnly (mem_accesses_cons.mpr (.inr stored))]
    refine first.lookup_eq ?_
    rintro rfl
    exact readOnly (mem_accesses_cons.mpr (.inl (Instruction.access?_eq_some_iff.mpr asked)))

theorem LowersAll.dest {options : CompileOptions} {body : List Instruction} {s s' : Sketch}
    {moves : List Move} (lowers : LowersAll options body s moves s') {m : Move} (member : m ∈ moves) :
    (∃ depth, m.dest = .stack depth) ∨
      ∃ v, .store v ∈ body.filterMap Instruction.access? ∧ m.dest = .host v := by
  induction lowers with
  | nil => cases member
  | cons asked first _ ih =>
    rcases List.mem_append.mp member with inFirst | inOthers
    · refine (first.moveKind inFirst).dest.imp_right ?_
      rintro ⟨v, rfl, dest⟩
      exact ⟨v, mem_accesses_cons.mpr (.inl (Instruction.access?_eq_some_iff.mpr asked)), dest⟩
    · refine (ih inOthers).imp_right ?_
      rintro ⟨v, stored, dest⟩
      exact ⟨v, mem_accesses_cons.mpr (.inr stored), dest⟩

/-- A variable lives in a slot only if it did before or is stored to. -/
theorem Lowers.lookup_slot {options : CompileOptions} {action : Action} {s s' : Sketch}
    {moves : List Move} (lowers : Lowers options action s moves s') {v : Variable}
    (bound : s'.bindings.lookup v = some .slot) :
    s.bindings.lookup v = some .slot ∨ action = .store v := by
  cases lowers with
  | storeFoldable | storeLive =>
    rw [List.lookup_cons] at bound
    split at bound
    · rename_i same
      exact .inr (by rw [beq_iff_eq.mp same])
    · exact .inl bound
  | _ => exact .inl bound

/-- The slots that the moves of a body name are stack slots and those of variables that live in slots. -/
theorem LowersAll.keys {options : CompileOptions} {body : List Instruction} {s s' : Sketch}
    {moves : List Move} (lowers : LowersAll options body s moves s') {held : Variable → Prop}
    (slots : ∀ v, s.bindings.lookup v = some .slot → held v)
    (stores : ∀ v, .store v ∈ body.filterMap Instruction.access? → held v) {m : Move} (member : m ∈ moves)
    {key : SlotKey} (named : key ∈ m.keys) : (∃ depth, key = .stack depth) ∨ ∃ v, held v ∧ key = .host v := by
  induction lowers with
  | nil => cases member
  | @cons instr rest action s mid s' first others asked lowersFirst lowersRest ih =>
    have storesFirst : ∀ v, action = .store v → held v := by
      rintro v rfl
      exact stores v (mem_accesses_cons.mpr (.inl (Instruction.access?_eq_some_iff.mpr asked)))
    rcases List.mem_append.mp member with inFirst | inOthers
    · have kind := lowersFirst.moveKind inFirst
      rcases List.mem_cons.mp named with rfl | read
      · refine kind.dest.imp_right ?_
        rintro ⟨v, isStore, dest⟩
        exact ⟨v, storesFirst v isStore, dest⟩
      · refine (kind.src read).imp_right ?_
        rintro ⟨v, bound, rfl⟩
        exact ⟨v, slots v bound, rfl⟩
    · refine ih (fun v bound => ?_) (fun v stored => stores v (mem_accesses_cons.mpr (.inr stored))) inOthers
      exact (lowersFirst.lookup_slot bound).elim (slots v) (storesFirst v)

/-- The lowering of a body is the lowering of its instructions, line markers doing nothing. -/
theorem lowersAll_of_lowerBody {options : CompileOptions} {line line' : Option Nat}
    {body : List Instruction} {d d' : Draft}
    (lowered : CompiledLoop.lowerBody options line body d = .ok (line', d'))
    (known : ∀ v, .load v ∈ body.filterMap Instruction.access? → (d.bindings.lookup v).isSome) :
    ∃ moves, LowersAll options body d.sketch moves d'.sketch ∧ Emits moves d.output d'.output := by
  induction body generalizing line d with
  | nil =>
    cases lowered
    exact ⟨[], .nil, .refl _⟩
  | cons instr rest ih =>
    have knownRest : ∀ v, .load v ∈ rest.filterMap Instruction.access? → (d.bindings.lookup v).isSome := by
      intro v accessed
      refine known v ?_
      obtain ⟨instr', member, access⟩ := List.mem_filterMap.mp accessed
      exact List.mem_filterMap.mpr ⟨instr', .tail instr member, access⟩
    rw [CompiledLoop.lowerBody] at lowered
    split at lowered
    · rename_i marker
      obtain ⟨moves, lowers, emits⟩ := ih lowered knownRest
      exact ⟨moves, .cons (action?_of_isMarker marker) .skip lowers, emits⟩
    · split at lowered
      · rename_i mid loweredFirst
        obtain ⟨action, asked, first, lowers, emits⟩ := Draft.realizes_lower loweredFirst fun v access =>
          known v (List.mem_filterMap.mpr ⟨instr, .head rest, access⟩)
        obtain ⟨others, lowersRest, emitsRest⟩ := ih lowered fun v accessed =>
          lowers.lookup_isSome (knownRest v accessed)
        exact ⟨first ++ others, .cons asked lowers lowersRest, emits.trans emitsRest⟩
      · cases lowered

end AffineLoops
