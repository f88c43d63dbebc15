import AffineLoops.Proofs.CompiledLayout

/-!
Which bodies compile. A machine that keeps one bit for each stack entry and for each variable, whether its
value is fixed before the loop or may vary from round to round, decides whether a body compiles and with
which error it fails. Neither flag of the compiler has a say in it.

* `verdict`: the machine's answer for a body, stated without the compiler.
* `Lowers.tagged` and `step_eq_error_of_lower`: what the compiler can lower the machine accepts, and where the
  compiler fails the machine fails with the same fault.
* `judge_eq_lowerBody`, `compileRest_outcome`: so both have the same outcome on whole bodies.
-/

namespace AffineLoops

/-! ### The machine -/

/-- Whether a value is known before the loop or may differ from round to round. -/
inductive Tag where
  | fixed
  | varying
  deriving DecidableEq, Repr

namespace Tag

/-- A sign keeps the tag; the other unary operations are for fixed values only. -/
def unary (opcode : Opcode) : UnaryOp → Tag → Except CompileFault Tag
  | .positive, tag | .negative, tag => .ok tag
  | .logicalNot, .fixed | .invert, .fixed => .ok .fixed
  | .logicalNot, .varying | .invert, .varying => .error (.unpredictableOperands opcode)

/-- An operation on fixed values gives a fixed one. Sums and differences may vary in both operands, products
in one of them, and all else in none. -/
def binary (opcode : Opcode) : BinaryOp → Tag → Tag → Except CompileFault Tag
  | _, .fixed, .fixed => .ok .fixed
  | .add, _, _ | .subtract, _, _ => .ok .varying
  | .multiply, .varying, .varying => .error .unpredictableMultiplication
  | .multiply, _, _ => .ok .varying
  | _, _, _ => .error (.unpredictableOperands opcode)

end Tag

/-- What is known at a point of a body: the tags of the stack, top first, and those of the variables. -/
structure Tagging where
  stack : List Tag
  tag : Variable → Tag

namespace Tagging

/-- The effect of an action, or what is wrong with it. -/
def perform (types : KindSet) (opcode : Opcode) (t : Tagging) (action : Action) : Except CompileFault Tagging :=
  match action, t.stack with
  | .skip, _ => .ok t
  | .pop, _ :: rest => .ok ⟨rest, t.tag⟩
  | .rotate count, stack =>
    if count ≤ stack.length then .ok ⟨Stack.rotate count stack, t.tag⟩ else .error .invalidStack
  | .duplicate count, stack =>
    if count ≤ stack.length then .ok ⟨Stack.duplicate count stack, t.tag⟩ else .error .invalidStack
  | .unary op, top :: rest => (top.unary opcode op).map fun result => ⟨result :: rest, t.tag⟩
  | .binary op, right :: left :: rest =>
    (left.binary opcode op right).map fun result => ⟨result :: rest, t.tag⟩
  | .push value, stack =>
    if types.allows value then .ok ⟨.fixed :: stack, t.tag⟩ else .error (.disallowedConstant value types)
  | .load v, stack => .ok ⟨t.tag v :: stack, t.tag⟩
  | .store v, top :: rest => .ok ⟨rest, Function.update t.tag v top⟩
  | _, _ => .error .invalidStack

/-- The effect of an instruction. One without an action, for its opcode or for its argument, is
unsupported whatever the stack. -/
def step (types : KindSet) (instr : Instruction) (t : Tagging) : Except CompileFault Tagging :=
  match instr.action? with
  | some action => t.perform types instr.opcode action
  | none => .error (.unsupportedInstruction instr)

/-- Before the first round the loop target and everything that the body stores to may vary. -/
def start (counter : Variable) (body : List Instruction) : Tagging where
  stack := []
  tag v := if v = counter ∨ some (.store v) ∈ body.map Instruction.action? then .varying else .fixed

end Tagging

/-- The outcome for what follows the store into the loop target. A fault is reported with its instruction and
the line of the last marker; nothing may be left on the stack. -/
def judge (types : KindSet) : Option Nat → List Instruction → Tagging → Except CompileError Unit
  | line, [], t => if t.stack = [] then .ok () else .error ⟨.invalidStack, none, line⟩
  | line, instr :: rest, t =>
    if instr.isMarker then judge types (instr.markedLine line) rest t
    else
      match t.step types instr with
      | .ok t => judge types line rest t
      | .error fault => .error ⟨fault, some instr, line⟩

/-- The outcome for a body. A body of line markers is accepted; any other one starts, after its leading
markers, with a store into the loop target. -/
def verdict (types : KindSet) (headLine : Option Nat) (body : List Instruction) : Except CompileError Unit :=
  let line := (body.takeWhile Instruction.isMarker).foldl (fun line marker => marker.markedLine line) headLine
  match body.dropWhile Instruction.isMarker with
  | [] => .ok ()
  | target :: rest =>
    match target.action? with
    | some (.store counter) => judge types line rest (.start counter rest)
    | _ => .error ⟨.unsupportedIterator target, some target, line⟩

/-! ### Tags of a sketch -/

def Entry.tag : Entry → Tag
  | .foldable _ => .fixed
  | .live => .varying

def Binding.tag : Binding → Tag
  | .const _ => .fixed
  | .slot => .varying

/-- The machine's tags are those of the sketch, for every variable that means something in the sketch. -/
structure Sketch.Tagged (s : Sketch) (t : Tagging) : Prop where
  stack : t.stack = s.stack.map Entry.tag
  tag : ∀ v binding, s.bindings.lookup v = some binding → t.tag v = binding.tag

namespace Lowers

variable {options : CompileOptions} {action : Action} {s s' : Sketch} {moves : List Move}

/-- What the compiler lowers the machine accepts, with the same tags afterwards. -/
theorem tagged (lowers : Lowers options action s moves s') {t : Tagging} (tags : s.Tagged t)
    (opcode : Opcode) : ∃ t', t.perform options.types opcode action = .ok t' ∧ s'.Tagged t' := by
  rcases t with ⟨_, tag⟩
  obtain ⟨rfl, meanings⟩ := tags
  have stored : ∀ {bindings : List (Variable × Binding)} {v : Variable} {binding : Binding},
      (∀ u bound, bindings.lookup u = some bound → tag u = bound.tag) →
        ∀ u bound, ((v, binding) :: bindings).lookup u = some bound →
          Function.update tag v binding.tag u = bound.tag := by
    intro bindings v binding same u bound found
    rw [List.lookup_cons] at found
    by_cases here : u = v
    · subst here
      simp_all
    · rw [Function.update_of_ne here]
      exact same u bound (by simpa [beq_eq_false_iff_ne.mpr here] using found)
  cases lowers with
  | skip => exact ⟨_, rfl, rfl, meanings⟩
  | popFoldable | popLive => exact ⟨_, rfl, rfl, meanings⟩
  | rotate _ room =>
    refine ⟨_, if_pos (by simpa using room), ?_, meanings⟩
    exact Stack.rotate_map _ _ _
  | duplicate room =>
    refine ⟨_, if_pos (by simpa using room), ?_, meanings⟩
    exact Stack.duplicate_map _ _ _
  | positive filled =>
    rcases s with ⟨_ | ⟨top, rest⟩, bindings, consts⟩
    · exact absurd rfl filled
    · exact ⟨_, rfl, rfl, meanings⟩
  | @unaryFoldable op =>
    refine ⟨⟨.fixed :: _, tag⟩, ?_, rfl, meanings⟩
    cases op <;> rfl
  | negateLive => exact ⟨_, rfl, rfl, meanings⟩
  | @binaryFoldable op =>
    refine ⟨⟨.fixed :: _, tag⟩, ?_, rfl, meanings⟩
    cases op <;> rfl
  | @binaryLeft op _ _ _ _ _ affine =>
    refine ⟨⟨.varying :: _, tag⟩, ?_, rfl, meanings⟩
    cases op <;> simp [BinaryOp.affine?] at affine <;> rfl
  | @binaryRight op _ _ _ _ _ affine =>
    refine ⟨⟨.varying :: _, tag⟩, ?_, rfl, meanings⟩
    cases op <;> simp [BinaryOp.affine?] at affine <;> rfl
  | @binaryBoth op affineOp _ _ _ affine notMultiply =>
    refine ⟨⟨.varying :: _, tag⟩, ?_, rfl, meanings⟩
    cases op <;> simp [BinaryOp.affine?] at affine
    case multiply => exact absurd affine.symm notMultiply
    all_goals rfl
  | push allowed => exact ⟨_, if_pos allowed, rfl, meanings⟩
  | loadConst bound | loadSlot bound =>
    refine ⟨_, rfl, ?_, meanings⟩
    rw [meanings _ _ bound]
    rfl
  | storeFoldable => exact ⟨_, rfl, rfl, stored meanings⟩
  | storeLive => exact ⟨_, rfl, rfl, stored meanings⟩

end Lowers

/-! ### Faults -/

section Faults

variable {options : CompileOptions} {d : Draft} {t : Tagging} {fault : CompileFault}

theorem perform_eq_error_of_popTop (opcode : Opcode) (failed : d.popTop options = .error fault)
    (stack : t.stack = d.stack.map Entry.tag) :
    t.perform options.types opcode .pop = .error fault := by
  rcases d with ⟨_ | ⟨_ | _, rest⟩, code, slots, bindings, consts⟩ <;> cases failed
  simp [Tagging.perform, stack]

theorem perform_eq_error_of_rotate (opcode : Opcode) {count : Nat}
    (failed : d.rotate options count = .error fault) (stack : t.stack = d.stack.map Entry.tag) :
    t.perform options.types opcode (.rotate count) = .error fault := by
  unfold Draft.rotate at failed
  split at failed
  · rename_i short
    cases failed
    exact if_neg (by simpa [stack, Draft.height] using short)
  · cases failed

theorem perform_eq_error_of_duplicate (opcode : Opcode) {count : Nat}
    (failed : d.duplicate count = .error fault) (stack : t.stack = d.stack.map Entry.tag) :
    t.perform options.types opcode (.duplicate count) = .error fault := by
  unfold Draft.duplicate at failed
  split at failed
  · rename_i short
    cases failed
    exact if_neg (by simpa [stack, Draft.height] using short)
  · cases failed

theorem perform_eq_error_of_unary {opcode : Opcode} {op : UnaryOp}
    (failed : d.lowerUnary opcode op = .error fault) (stack : t.stack = d.stack.map Entry.tag) :
    t.perform options.types opcode (.unary op) = .error fault := by
  rcases d with ⟨_ | ⟨_ | _, rest⟩, code, slots, bindings, consts⟩ <;> cases op <;> cases failed
  all_goals
    simp only [Tagging.perform, stack]
    rfl

theorem perform_eq_error_of_binary {opcode : Opcode} {op : BinaryOp}
    (failed : d.lowerBinary options opcode op = .error fault) (stack : t.stack = d.stack.map Entry.tag) :
    t.perform options.types opcode (.binary op) = .error fault := by
  rcases d with ⟨_ | ⟨right, _ | ⟨left, rest⟩⟩, code, slots, bindings, consts⟩
  · cases failed
    simp [Tagging.perform, stack]
  · cases right <;> cases failed <;> simp [Tagging.perform, stack]
  · simp only [Tagging.perform, stack, List.map_cons]
    cases right <;> cases left <;> cases op <;> cases failed <;> rfl

theorem perform_eq_error_of_loadConst (opcode : Opcode) {value : Value}
    (failed : d.loadConst options value = .error fault) :
    t.perform options.types opcode (.push value) = .error fault := by
  unfold Draft.loadConst at failed
  split at failed
  · cases failed
  · rename_i forbidden
    cases failed
    exact if_neg forbidden

theorem perform_eq_error_of_storeVariable (opcode : Opcode) {v : Variable}
    (failed : d.storeVariable options v = .error fault) (stack : t.stack = d.stack.map Entry.tag) :
    t.perform options.types opcode (.store v) = .error fault := by
  rcases d with ⟨_ | ⟨_ | _, rest⟩, code, slots, bindings, consts⟩ <;> cases failed
  simp [Tagging.perform, stack]

/-- Where the compiler fails the machine fails, with the same fault. -/
theorem step_eq_error_of_lower {instr : Instruction} (notMarker : instr.isMarker = false)
    (failed : d.lower options instr = .error fault) (stack : t.stack = d.stack.map Entry.tag) :
    t.step options.types instr = .error fault := by
  rcases instr with ⟨opcode, arg⟩
  rw [Tagging.step]
  cases opcode
  case nop => cases failed
  case popTop => exact perform_eq_error_of_popTop _ failed stack
  case rotTwo | rotThree | rotFour => exact perform_eq_error_of_rotate _ failed stack
  case dupTop => exact perform_eq_error_of_duplicate _ failed stack
  case dupTopX =>
    cases arg with
    | count n => exact perform_eq_error_of_duplicate _ failed stack
    | _ => cases failed; rfl
  case unary op => exact perform_eq_error_of_unary failed stack
  case binary op | inplace op => exact perform_eq_error_of_binary failed stack
  case loadConst =>
    cases arg with
    | const value => exact perform_eq_error_of_loadConst _ failed
    | _ => cases failed; rfl
  case load scope =>
    cases arg with
    | name name => cases failed
    | _ => cases failed; rfl
  case store scope =>
    cases arg with
    | name name => exact perform_eq_error_of_storeVariable _ failed stack
    | _ => cases failed; rfl
  case setLineno => cases notMarker
  all_goals
    cases failed
    rfl

end Faults

/-! ### Whole bodies -/

/-- The outcome of a lowered body: nothing may be left on the stack. -/
def CompiledLoop.settle : Option Nat × Draft → Except CompileError Unit
  | (line, d) => if d.stack.isEmpty then .ok () else .error ⟨.invalidStack, none, line⟩

/-- The compiler and the machine go through a body in step. -/
theorem judge_eq_lowerBody {options : CompileOptions} (body : List Instruction) {line : Option Nat} {d : Draft}
    {t : Tagging} (tags : d.sketch.Tagged t)
    (known : ∀ v, .load v ∈ body.filterMap Instruction.access? → (d.bindings.lookup v).isSome) :
    judge options.types line body t =
      CompiledLoop.lowerBody options line body d >>= CompiledLoop.settle := by
  induction body generalizing line d t with
  | nil =>
    have same : (t.stack = []) ↔ d.stack.isEmpty = true := by
      rw [tags.stack, List.map_eq_nil_iff, List.isEmpty_iff]
      rfl
    simp only [judge, CompiledLoop.lowerBody, CompiledLoop.settle, bind, Except.bind, same]
  | cons instr rest ih =>
    have knownRest : ∀ v, .load v ∈ rest.filterMap Instruction.access? → (d.bindings.lookup v).isSome :=
      fun v loaded => known v (mem_accesses_cons.mpr (.inr loaded))
    rw [judge, CompiledLoop.lowerBody]
    split
    · exact ih tags knownRest
    · rename_i notMarker
      cases lowered : d.lower options instr with
      | error fault =>
        rw [step_eq_error_of_lower (by simpa using notMarker) lowered tags.stack]
        rfl
      | ok d' =>
        obtain ⟨action, asked, moves, lowers, -⟩ := Draft.realizes_lower lowered fun v access =>
          known v (mem_accesses_cons.mpr (.inl access))
        obtain ⟨t', performed, tags'⟩ := lowers.tagged tags instr.opcode
        rw [Tagging.step, asked]
        simp only [performed]
        exact ih tags' fun v loaded => lowers.lookup_isSome (knownRest v loaded)

theorem store_mem_actions_iff {body : List Instruction} {v : Variable} :
    some (.store v) ∈ body.map Instruction.action? ↔ .store v ∈ body.filterMap Instruction.access? := by
  simp only [List.mem_map, List.mem_filterMap, Instruction.access?_eq_some_iff]

/-- After the announcements the compiler's tags are those that the machine starts with. -/
theorem Announced.tagged {body : List Instruction} {counter : Variable} {use : CounterUse} {d : Draft}
    (announced : Announced (Held body counter use) (Accessed body counter use) d)
    (unused : use = .unused → .load counter ∉ body.filterMap Instruction.access?) :
    d.sketch.Tagged (.start counter body) := by
  refine ⟨by simp [Tagging.start, Draft.sketch, announced.stack], fun v binding bound => ?_⟩
  simp only [Tagging.start, store_mem_actions_iff]
  cases binding with
  | slot =>
    refine if_pos ?_
    rcases announced.slot v bound with stored | ⟨same, -⟩
    · exact .inr stored
    · exact .inl same
  | const index =>
    have notHeld := (announced.const v index bound).1
    refine if_neg ?_
    rintro (rfl | stored)
    · -- the target is a constant only if nothing looks at it, and then it is not announced at all
      have isUnused : use = .unused := by
        by_contra looked
        exact notHeld (.inr ⟨rfl, looked⟩)
      rcases (announced.bound v).mp (by simp [show d.bindings.lookup v = _ from bound]) with
        ⟨_ | _, member, rfl⟩ | ⟨-, looked⟩
      · exact unused isUnused member
      · exact notHeld (.inl member)
      · exact looked isUnused
    · exact notHeld (.inl stored)

/-- What follows the store into the loop target compiles just if the machine accepts it, and fails with the
machine's error otherwise. -/
theorem compileRest_outcome (options : CompileOptions) (line : Option Nat) (counter : Variable)
    (body : List Instruction) :
    (CompiledLoop.compileRest options line counter body).map (fun _ => ()) =
      judge options.types line body (.start counter body) := by
  have announced := announced_registerAll body counter (CompiledLoop.counterUseOf options counter body)
  have unused : CompiledLoop.counterUseOf options counter body = .unused →
      .load counter ∉ body.filterMap Instruction.access? :=
    fun unused loaded => not_accessed_of_unused unused loaded rfl
  unfold CompiledLoop.compileRest
  dsimp only
  generalize CompiledLoop.counterUseOf options counter body = use at announced unused ⊢
  generalize CompiledLoop.registerAll body _ = d at announced ⊢
  obtain ⟨opened, opens, renews⟩ := Draft.prologue_draws counter use d
  have sketch : (CompiledLoop.prologue counter use d).sketch = d.sketch := renews.sketch.trans opens.sketch
  have tags := announced.tagged unused
  rw [← sketch] at tags
  rw [judge_eq_lowerBody body tags]
  · cases CompiledLoop.lowerBody options line body (CompiledLoop.prologue counter use d) with
    | error e => rfl
    | ok lowered =>
      obtain ⟨line', d'⟩ := lowered
      simp only [CompiledLoop.settle, bind, Except.bind]
      split <;> rfl
  · intro v loaded
    rw [show (CompiledLoop.prologue counter use d).bindings = d.bindings from congrArg Sketch.bindings sketch]
    exact (announced.bound v).mpr (.inl ⟨_, loaded, rfl⟩)

theorem skipMarkers_eq_dropWhile (line : Option Nat) (body : List Instruction) :
    CompiledLoop.skipMarkers line body =
      ((body.takeWhile Instruction.isMarker).foldl (fun line marker => marker.markedLine line) line,
        body.dropWhile Instruction.isMarker) := by
  induction body generalizing line with
  | nil => rfl
  | cons instr rest ih =>
    rw [CompiledLoop.skipMarkers, List.takeWhile_cons, List.dropWhile_cons]
    split
    · rw [ih, List.foldl_cons]
    · rfl

/-- Exact acceptance. Whatever the two flags, a body compiles just if the machine of tags accepts it, and
otherwise fails with the machine's fault, instruction and line. -/
theorem compile_outcome_eq_verdict (body : List Instruction) (types : KindSet) (headLine : Option Nat)
    (foldConstantRows clearFreedStackSlots : Bool) :
    (CompiledLoop.compile body ⟨types, foldConstantRows, clearFreedStackSlots⟩ headLine).map (fun _ => ()) =
      verdict types headLine body := by
  rw [CompiledLoop.compile, verdict, skipMarkers_eq_dropWhile]
  cases body.dropWhile Instruction.isMarker with
  | nil => rfl
  | cons target rest =>
    cases access : target.access? with
    | some access' =>
      have asked := Instruction.access?_eq_some_iff.mp access
      cases access' with
      | store counter =>
        simp only [access, asked]
        exact compileRest_outcome _ _ _ _
      | load v =>
        simp only [access, asked]
        rfl
    | none =>
      simp only [access]
      split
      · rename_i counter asked
        have stores : target.access? = some (.store counter) := Instruction.access?_eq_some_iff.mpr asked
        rw [access] at stores
        cases stores
      · rfl

/-- A variable that the body stores to varies from the start, so that its square is refused in the first line
already, where it still has the value from before the loop. -/
example :
    verdict default none
      [⟨.setLineno, .line 7⟩, ⟨.store .fast, .name "i"⟩, ⟨.setLineno, .line 8⟩, ⟨.load .fast, .name "x"⟩,
        ⟨.dupTop, .none⟩, ⟨.binary .multiply, .none⟩, ⟨.store .fast, .name "x"⟩] =
      .error ⟨.unpredictableMultiplication, some ⟨.binary .multiply, .none⟩, some 8⟩ := by
  decide

end AffineLoops
