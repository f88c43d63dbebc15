import AffineLoops.CompiledLoop.Constants
import AffineLoops.Proofs.Outcomes

/-!
Programs of constants, without and with their values.

* `Yields` is what can be said of a program before it runs: it leaves exactly one value and reads only
  constants before its own. Such programs fail for what they find in the frame and for nothing else
  (`evaluateAll_outcome`).
* `Evaluates` is a run of a program when all constants are known. Every constant evaluates to its own value
  (`evaluates_of_evaluateAll`), programs are put together as their values are, and a program with a value has
  parts with values (`Evaluates.of_unary`, `Evaluates.of_binary`).
-/

namespace AffineLoops

/-- A run failed for what it found in the frame: a kind that is not allowed, a name without a value, or
arithmetic without a result. -/
def RunError.FromValues : RunError → Prop
  | .disallowedType .. | .undefinedVariable _ | .arithmetic _ => True
  | _ => False

/-- The number of values that a step takes; each step leaves one. -/
def ConstOp.arity : ConstOp → Nat
  | .push _ | .load _ | .folded _ => 0
  | .unary _ => 1
  | .binary _ => 2

namespace ConstProgram

/-! ### Before the values are known -/

/-- The number of values that a program leaves, from the number it starts with; none if it takes more than
there are. -/
def depthAfter : ConstProgram → Nat → Option Nat
  | [], depth => some depth
  | op :: rest, depth => if op.arity ≤ depth then depthAfter rest (depth - op.arity + 1) else none

/-- The program leaves exactly one value and reads the first `bound` constants at most. -/
structure Yields (bound : Nat) (program : ConstProgram) : Prop where
  one : program.depthAfter 0 = some 1
  reads : ∀ index, .folded index ∈ program → index < bound

section Yields

variable {bound : Nat} {program left right : ConstProgram}

theorem depthAfter_append (left right : ConstProgram) (depth : Nat) :
    (left ++ right).depthAfter depth = (left.depthAfter depth).bind right.depthAfter := by
  induction left generalizing depth with
  | nil => rfl
  | cons op rest ih =>
    rw [List.cons_append, depthAfter, depthAfter]
    split
    · exact ih _
    · rfl

/-- What stands below the values of a program does not matter. -/
theorem depthAfter_below {depth depth' : Nat} (counted : program.depthAfter depth = some depth')
    (below : Nat) : program.depthAfter (depth + below) = some (depth' + below) := by
  induction program generalizing depth with
  | nil =>
    cases counted
    rfl
  | cons op rest ih =>
    rw [depthAfter] at counted ⊢
    split at counted
    · rename_i enough
      rw [if_pos (by omega), show depth + below - op.arity + 1 = depth - op.arity + 1 + below by omega]
      exact ih counted
    · cases counted

theorem Yields.mono {bound' : Nat} (yields : Yields bound program) (le : bound ≤ bound') :
    Yields bound' program :=
  ⟨yields.one, fun index read => Nat.lt_of_lt_of_le (yields.reads index read) le⟩

theorem yields_push (value : Value) : Yields bound [.push value] := ⟨rfl, by simp⟩

theorem yields_load (v : Variable) : Yields bound [.load v] := ⟨rfl, by simp⟩

theorem yields_folded {index : Nat} (before : index < bound) : Yields bound [.folded index] :=
  ⟨rfl, by simp [before]⟩

theorem Yields.unary (yields : Yields bound program) (op : UnaryOp) :
    Yields bound (program ++ [.unary op]) := by
  refine ⟨?_, by simpa using yields.reads⟩
  rw [depthAfter_append, yields.one]
  rfl

theorem Yields.binary (yieldsLeft : Yields bound left) (yieldsRight : Yields bound right) (op : BinaryOp) :
    Yields bound (left ++ right ++ [.binary op]) := by
  refine ⟨?_, ?_⟩
  · have both : right.depthAfter 1 = some 2 := depthAfter_below yieldsRight.one 1
    rw [depthAfter_append, depthAfter_append, yieldsLeft.one, Option.bind_some, both]
    rfl
  · intro index read
    simp only [List.mem_append, List.mem_singleton, reduceCtorEq, or_false] at read
    exact read.elim (yieldsLeft.reads index) (yieldsRight.reads index)

theorem eq_folded_of_alias? {index : Nat} (again : program.alias? = some index) :
    program = [.folded index] := by
  unfold alias? at again
  split at again <;> cases again
  rfl

/-- A program that only reads another constant again reads one of the first. -/
theorem Yields.alias_lt (yields : Yields bound program) {index : Nat} (again : program.alias? = some index) :
    index < bound := by
  rw [eq_folded_of_alias? again] at yields
  exact yields.reads index (by simp)

end Yields

/-- A step over the constants there are, with as many values as it takes, leaves one value more or fails
for what it finds in the frame. -/
theorem step_outcome {index : Nat} {folded : List Value} {op : ConstOp} {stack : List Value}
    (frame : Frame) (enough : op.arity ≤ stack.length)
    (reads : ∀ i, op = .folded i → i < index ∧ i < folded.length) :
    (∃ stack', step index frame folded op stack = .ok stack' ∧
        stack'.length = stack.length - op.arity + 1) ∨
      ∃ e, step index frame folded op stack = .error e ∧ e.FromValues := by
  cases op with
  | push value => exact .inl ⟨_, rfl, rfl⟩
  | load v =>
    cases found : frame.load? v with
    | some value => exact .inl ⟨value :: stack, by simp [step, found], rfl⟩
    | none => exact .inr ⟨.undefinedVariable v.name, by simp [step, found], trivial⟩
  | folded i =>
    obtain ⟨before, known⟩ := reads i rfl
    refine .inl ⟨folded[i] :: stack, ?_, rfl⟩
    simp [step, before, List.getElem?_eq_getElem known]
  | unary op =>
    obtain ⟨a, rest, rfl⟩ := List.exists_cons_of_length_pos enough
    cases computed : a.unary op with
    | ok value => exact .inl ⟨value :: rest, by simp [step, computed, Except.map, Except.mapError], rfl⟩
    | error cause =>
      exact .inr ⟨.arithmetic cause, by simp [step, computed, Except.map, Except.mapError], trivial⟩
  | binary op =>
    rcases stack with _ | ⟨b, _ | ⟨a, rest⟩⟩
    · simp [ConstOp.arity] at enough
    · simp [ConstOp.arity] at enough
    · cases computed : a.binary op b with
      | ok value => exact .inl ⟨value :: rest, by simp [step, computed, Except.map, Except.mapError], rfl⟩
      | error cause =>
        exact .inr ⟨.arithmetic cause, by simp [step, computed, Except.map, Except.mapError], trivial⟩

theorem run_outcome {index : Nat} {folded : List Value} {program : ConstProgram} {stack : List Value}
    {depth : Nat} (frame : Frame) (counted : program.depthAfter stack.length = some depth)
    (reads : ∀ i, .folded i ∈ program → i < index ∧ i < folded.length) :
    (∃ stack', run index frame folded program stack = .ok stack' ∧ stack'.length = depth) ∨
      ∃ e, run index frame folded program stack = .error e ∧ e.FromValues := by
  induction program generalizing stack with
  | nil =>
    cases counted
    exact .inl ⟨stack, rfl, rfl⟩
  | cons op rest ih =>
    rw [depthAfter] at counted
    split at counted
    · rename_i enough
      rcases step_outcome frame enough fun i isRead => reads i (isRead ▸ .head rest) with
        ⟨mid, stepped, length⟩ | ⟨e, failed, fromValues⟩
      · rw [run, stepped]
        exact ih (length ▸ counted) fun i member => reads i (.tail op member)
      · refine .inr ⟨e, ?_, fromValues⟩
        rw [run, failed]
        rfl
    · cases counted

/-- A program that yields a value leaves it alone on the stack. -/
theorem Yields.single {bound : Nat} {program : ConstProgram} (yields : Yields bound program) {frame : Frame}
    {folded stack : List Value} (known : bound ≤ folded.length)
    (ran : run bound frame folded program [] = .ok stack) : ∃ value, stack = [value] := by
  have counted : program.depthAfter ([] : List Value).length = some 1 := yields.one
  rcases run_outcome frame counted fun i read =>
      ⟨yields.reads i read, Nat.lt_of_lt_of_le (yields.reads i read) known⟩ with
    ⟨stack', ran', one⟩ | ⟨e, failed, -⟩
  · obtain rfl : stack = stack' := by simpa [ran] using ran'
    exact List.length_eq_one_iff.mp one
  · simp [ran] at failed

theorem evaluate_outcome {program : ConstProgram} {done : List Value} (frame : Frame)
    (yields : Yields done.length program) :
    (∃ value, evaluate done.length program frame done = .ok value) ∨
      ∃ e, evaluate done.length program frame done = .error e ∧ e.FromValues := by
  have reads : ∀ i, .folded i ∈ program → i < done.length ∧ i < done.length := fun i read =>
    ⟨yields.reads i read, yields.reads i read⟩
  have counted : program.depthAfter ([] : List Value).length = some 1 := yields.one
  rcases run_outcome frame counted reads with ⟨stack, ran, one⟩ | ⟨e, failed, fromValues⟩
  · obtain ⟨value, rfl⟩ := List.length_eq_one_iff.mp one
    exact .inl ⟨value, by rw [evaluate, ran]; rfl⟩
  · exact .inr ⟨e, by rw [evaluate, failed]; rfl, fromValues⟩

theorem evaluateFrom_outcome {programs : List ConstProgram} (frame : Frame) (types : KindSet)
    {done : List Value}
    (yields : ∀ i program, programs[i]? = some program → Yields (done.length + i) program) :
    (∃ values, evaluateFrom frame types done programs = .ok values ∧
        values.length = done.length + programs.length) ∨
      ∃ e, evaluateFrom frame types done programs = .error e ∧ e.FromValues := by
  induction programs generalizing done with
  | nil => exact .inl ⟨done, rfl, rfl⟩
  | cons program rest ih =>
    rcases evaluate_outcome frame (yields 0 program rfl) with ⟨value, computed⟩ | ⟨e, failed, fromValues⟩
    · have unfolded : evaluateFrom frame types done (program :: rest) =
          if types.allows value then evaluateFrom frame types (done ++ [value]) rest
          else .error (.disallowedType (program.label done.length) value.kind types) := by
        rw [evaluateFrom, computed]
        rfl
      rw [unfolded]
      split
      · have later : ∀ i program, rest[i]? = some program → Yields ((done ++ [value]).length + i) program := by
          intro i program' found
          have := yields (i + 1) program' (by simpa using found)
          rwa [List.length_append, List.length_singleton, Nat.add_assoc, Nat.add_comm 1 i]
        rcases ih later with ⟨values, ran, length⟩ | failure
        · refine .inl ⟨values, ran, ?_⟩
          simp only [List.length_append, List.length_cons, List.length_nil] at length ⊢
          omega
        · exact .inr failure
      · exact .inr ⟨_, rfl, trivial⟩
    · refine .inr ⟨e, ?_, fromValues⟩
      rw [evaluateFrom, failed]
      rfl

/-- Constants whose programs yield a value each have values, one for each, or fail for what they find in
the frame. -/
theorem evaluateAll_outcome {programs : List ConstProgram} (frame : Frame) (types : KindSet)
    (yields : ∀ i program, programs[i]? = some program → Yields i program) :
    (∃ values, evaluateAll programs frame types = .ok values ∧ values.length = programs.length) ∨
      ∃ e, evaluateAll programs frame types = .error e ∧ e.FromValues := by
  have shifted : ∀ i program, programs[i]? = some program →
      Yields (([] : List Value).length + i) program := by
    simpa using yields
  simpa [evaluateAll] using evaluateFrom_outcome frame types shifted

/-! ### Once the values are known -/

section Evaluation

variable {index : Nat} {frame : Frame} {folded values : List Value} {program left right : ConstProgram}

theorem run_append (left right : ConstProgram) (stack : List Value) :
    run index frame folded (left ++ right) stack =
      (run index frame folded left stack).bind (run index frame folded right) := by
  induction left generalizing stack with
  | nil => rfl
  | cons op rest ih =>
    rw [List.cons_append, run, run]
    cases step index frame folded op stack with
    | error e => rfl
    | ok mid => exact ih mid

/-- A step that succeeds does not look below the values it takes. -/
theorem step_below {op : ConstOp} {stack stack' : List Value}
    (stepped : step index frame folded op stack = .ok stack') (below : List Value) :
    step index frame folded op (stack ++ below) = .ok (stack' ++ below) := by
  cases op with
  | push value =>
    cases stepped
    rfl
  | load v =>
    simp only [step] at stepped ⊢
    split at stepped <;> cases stepped
    simp_all
  | folded i =>
    simp only [step] at stepped ⊢
    split at stepped <;> cases stepped
    simp_all
  | unary op =>
    cases stack with
    | nil => cases stepped
    | cons a rest =>
      obtain ⟨value, computed, rfl⟩ := map_eq_ok_iff.mp stepped
      exact map_eq_ok_iff.mpr ⟨value, computed, rfl⟩
  | binary op =>
    rcases stack with _ | ⟨b, _ | ⟨a, rest⟩⟩
    · cases stepped
    · cases stepped
    · obtain ⟨value, computed, rfl⟩ := map_eq_ok_iff.mp stepped
      exact map_eq_ok_iff.mpr ⟨value, computed, rfl⟩

theorem run_below {stack stack' : List Value} (ran : run index frame folded program stack = .ok stack')
    (below : List Value) : run index frame folded program (stack ++ below) = .ok (stack' ++ below) := by
  induction program generalizing stack with
  | nil =>
    cases ran
    rfl
  | cons op rest ih =>
    obtain ⟨mid, stepped, others⟩ := bind_eq_ok_iff.mp ran
    exact bind_eq_ok_iff.mpr ⟨mid ++ below, step_below stepped below, ih others⟩

/-- A step that has the values it takes would succeed without what stands below them. -/
theorem step_of_below {op : ConstOp} {stack below stack' : List Value} (enough : op.arity ≤ stack.length)
    (stepped : step index frame folded op (stack ++ below) = .ok stack') :
    ∃ top, step index frame folded op stack = .ok top ∧ stack' = top ++ below ∧
      top.length = stack.length - op.arity + 1 := by
  cases op with
  | push value =>
    cases stepped
    exact ⟨_, rfl, rfl, rfl⟩
  | load v =>
    simp only [step] at stepped ⊢
    split at stepped <;> cases stepped
    exact ⟨_, rfl, rfl, rfl⟩
  | folded i =>
    simp only [step] at stepped ⊢
    split at stepped <;> cases stepped
    exact ⟨_, rfl, rfl, rfl⟩
  | unary op =>
    obtain ⟨a, rest, rfl⟩ := List.exists_cons_of_length_pos enough
    obtain ⟨value, computed, rfl⟩ := map_eq_ok_iff.mp stepped
    exact ⟨_, map_eq_ok_iff.mpr ⟨value, computed, rfl⟩, rfl, rfl⟩
  | binary op =>
    rcases stack with _ | ⟨b, _ | ⟨a, rest⟩⟩
    · simp [ConstOp.arity] at enough
    · simp [ConstOp.arity] at enough
    · obtain ⟨value, computed, rfl⟩ := map_eq_ok_iff.mp stepped
      exact ⟨_, map_eq_ok_iff.mpr ⟨value, computed, rfl⟩, rfl, rfl⟩

theorem run_of_below {stack below stack' : List Value} {depth : Nat}
    (counted : program.depthAfter stack.length = some depth)
    (ran : run index frame folded program (stack ++ below) = .ok stack') :
    ∃ top, run index frame folded program stack = .ok top ∧ stack' = top ++ below ∧ top.length = depth := by
  induction program generalizing stack with
  | nil =>
    cases ran
    cases counted
    exact ⟨stack, rfl, rfl, rfl⟩
  | cons op rest ih =>
    rw [depthAfter] at counted
    split at counted
    · rename_i enough
      obtain ⟨mid, stepped, others⟩ := bind_eq_ok_iff.mp ran
      obtain ⟨top, steppedTop, rfl, length⟩ := step_of_below enough stepped
      obtain ⟨top', ranTop, rfl, length'⟩ := ih (length ▸ counted) others
      exact ⟨top', bind_eq_ok_iff.mpr ⟨top, steppedTop, ranTop⟩, rfl, length'⟩
    · cases counted

/-- A step that succeeds does so when more constants are known. -/
theorem step_of_prefix {index' : Nat} {folded' : List Value} {op : ConstOp} {stack stack' : List Value}
    (stepped : step index frame folded op stack = .ok stack') (le : index ≤ index')
    (more : folded <+: folded') : step index' frame folded' op stack = .ok stack' := by
  cases op with
  | folded i =>
    simp only [step] at stepped ⊢
    split at stepped
    · rename_i value found
      split at found
      · rename_i before
        obtain ⟨others, rfl⟩ := more
        have known := (List.getElem?_eq_some_iff.mp found).1
        rw [if_pos (Nat.lt_of_lt_of_le before le), List.getElem?_append_left known, found]
        exact stepped
      · cases found
    · cases stepped
  | push value => exact stepped
  | load v => exact stepped
  | unary op => cases stack with
    | nil => cases stepped
    | cons a rest => exact stepped
  | binary op =>
    rcases stack with _ | ⟨b, _ | ⟨a, rest⟩⟩
    · cases stepped
    · cases stepped
    · exact stepped

theorem run_of_prefix {index' : Nat} {folded' : List Value} {stack stack' : List Value}
    (ran : run index frame folded program stack = .ok stack') (le : index ≤ index')
    (more : folded <+: folded') : run index' frame folded' program stack = .ok stack' := by
  induction program generalizing stack with
  | nil => exact ran
  | cons op rest ih =>
    obtain ⟨mid, stepped, others⟩ := bind_eq_ok_iff.mp ran
    exact bind_eq_ok_iff.mpr ⟨mid, step_of_prefix stepped le more, ih others⟩

/-- A program has a value in a frame, all constants being known. -/
def Evaluates (frame : Frame) (values : List Value) (program : ConstProgram) (value : Value) : Prop :=
  run values.length frame values program [] = .ok [value]

theorem Evaluates.unique {value value' : Value} (first : Evaluates frame values program value)
    (second : Evaluates frame values program value') : value = value' := by
  have same := first.symm.trans second
  simpa using same

theorem evaluates_push (value : Value) : Evaluates frame values [.push value] value := rfl

theorem evaluates_load {v : Variable} {value : Value} (defined : frame.load? v = some value) :
    Evaluates frame values [.load v] value := by
  simp [Evaluates, run, step, defined, bind, Except.bind]

theorem evaluates_folded_iff {i : Nat} {value : Value} :
    Evaluates frame values [.folded i] value ↔ values[i]? = some value := by
  by_cases known : i < values.length
  · simp [Evaluates, run, step, known, bind, Except.bind]
  · simp [Evaluates, run, step, known, bind, Except.bind]

theorem Evaluates.unary {a value : Value} {op : UnaryOp} (evaluates : Evaluates frame values program a)
    (computed : a.unary op = .ok value) : Evaluates frame values (program ++ [.unary op]) value := by
  rw [Evaluates, run_append, evaluates]
  simp [run, step, computed, Except.bind, Except.map, Except.mapError, bind]

theorem Evaluates.binary {a b value : Value} {op : BinaryOp} (evaluatesLeft : Evaluates frame values left a)
    (evaluatesRight : Evaluates frame values right b) (computed : a.binary op b = .ok value) :
    Evaluates frame values (left ++ right ++ [.binary op]) value := by
  have above : run values.length frame values right [a] = .ok [b, a] := run_below evaluatesRight [a]
  rw [Evaluates, run_append, run_append, evaluatesLeft, Except.bind, above]
  simp [run, step, computed, Except.bind, Except.map, Except.mapError, bind]

/-- A program that leaves one value leaves it on whatever stood there before. -/
theorem exists_evaluates_of_run {below stack : List Value} (one : program.depthAfter 0 = some 1)
    (ran : run values.length frame values program below = .ok stack) :
    ∃ value, Evaluates frame values program value ∧ stack = value :: below := by
  have counted : program.depthAfter ([] : List Value).length = some 1 := one
  obtain ⟨top, ranTop, rfl, single⟩ := run_of_below counted (by simpa using ran)
  obtain ⟨value, rfl⟩ := List.length_eq_one_iff.mp single
  exact ⟨value, ranTop, rfl⟩

/-- The operand of a program that has a value has one. -/
theorem Evaluates.of_unary {value : Value} {op : UnaryOp} (one : program.depthAfter 0 = some 1)
    (evaluates : Evaluates frame values (program ++ [.unary op]) value) :
    ∃ a, Evaluates frame values program a ∧ a.unary op = .ok value := by
  rw [Evaluates, run_append] at evaluates
  obtain ⟨stack, ran, applied⟩ := bind_eq_ok_iff.mp evaluates
  obtain ⟨a, evaluatesOperand, rfl⟩ := exists_evaluates_of_run one ran
  obtain ⟨stack', stepped, nothing⟩ := bind_eq_ok_iff.mp applied
  cases nothing
  obtain ⟨result, computed, same⟩ := map_eq_ok_iff.mp stepped
  cases same
  exact ⟨a, evaluatesOperand, mapError_eq_ok_iff.mp computed⟩

theorem Evaluates.of_binary {value : Value} {op : BinaryOp} (oneLeft : left.depthAfter 0 = some 1)
    (oneRight : right.depthAfter 0 = some 1)
    (evaluates : Evaluates frame values (left ++ right ++ [.binary op]) value) :
    ∃ a b, Evaluates frame values left a ∧ Evaluates frame values right b ∧ a.binary op b = .ok value := by
  rw [Evaluates, run_append, run_append] at evaluates
  obtain ⟨stack, ranBoth, applied⟩ := bind_eq_ok_iff.mp evaluates
  obtain ⟨stackLeft, ranLeft, ranRight⟩ := bind_eq_ok_iff.mp ranBoth
  obtain ⟨a, evaluatesLeft, rfl⟩ := exists_evaluates_of_run oneLeft ranLeft
  obtain ⟨b, evaluatesRight, rfl⟩ := exists_evaluates_of_run oneRight ranRight
  obtain ⟨stack', stepped, nothing⟩ := bind_eq_ok_iff.mp applied
  cases nothing
  obtain ⟨result, computed, same⟩ := map_eq_ok_iff.mp stepped
  cases same
  exact ⟨a, b, evaluatesLeft, evaluatesRight, mapError_eq_ok_iff.mp computed⟩

theorem run_of_evaluate {value : Value} (computed : evaluate index program frame folded = .ok value) :
    run index frame folded program [] = .ok [value] := by
  obtain ⟨stack, ran, single⟩ := bind_eq_ok_iff.mp computed
  split at single
  · cases single
    exact ran
  · cases single

/-- A constant's value is what its program computes, when all constants are known. -/
theorem evaluates_of_evaluateFrom {types : KindSet} {programs : List ConstProgram} {done : List Value}
    (computed : evaluateFrom frame types done programs = .ok values) :
    done <+: values ∧ ∀ i program, programs[i]? = some program →
      ∃ value, values[done.length + i]? = some value ∧ Evaluates frame values program value := by
  induction programs generalizing done with
  | nil =>
    cases computed
    exact ⟨List.prefix_refl _, by simp⟩
  | cons first rest ih =>
    obtain ⟨value, computedFirst, others⟩ := bind_eq_ok_iff.mp computed
    split at others
    · obtain ⟨grown, later⟩ := ih others
      have more : done <+: values := (List.prefix_append done [value]).trans grown
      refine ⟨more, ?_⟩
      rintro (_ | i) program found
      · obtain rfl : first = program := by simpa using found
        refine ⟨value, ?_, run_of_prefix (run_of_evaluate computedFirst) more.length_le more⟩
        obtain ⟨tail, rfl⟩ := grown
        simp
      · have := later i program (by simpa using found)
        rwa [List.length_append, List.length_singleton, Nat.add_assoc, Nat.add_comm 1 i] at this
    · cases others

theorem evaluates_of_evaluateAll {types : KindSet} {programs : List ConstProgram}
    (computed : evaluateAll programs frame types = .ok values) {i : Nat} {program : ConstProgram}
    (found : programs[i]? = some program) :
    ∃ value, values[i]? = some value ∧ Evaluates frame values program value := by
  simpa using (evaluates_of_evaluateFrom computed).2 i program found

end Evaluation

end ConstProgram

end AffineLoops
