import AffineLoops.Proofs.ConstantPrograms

/-!
Programs of constants put one after another. A program runs on an empty stack, and inside a longer one it runs on the
values that the programs before it left. That makes no difference to a program with a value, which never takes more
than it has put there itself (`run_below`), nor to one that fails for what it finds in the frame: until then it had
the values that it took (`run_error_below`). A program that takes too much or leaves too much is another matter, since
what stands before or after it can make up for that.

* `evaluate_unary`, `evaluate_binary`: the operator after its operands is applied to their values.
* `evaluate_append_error`, `evaluate_error_above`: the first failure is that of the whole.
-/

namespace AffineLoops.ConstProgram

variable {index : Nat} {frame : Frame} {folded : List Value} {program left right : ConstProgram} {e : RunError}

/-! ### Runs above other values -/

theorem run_singleton (op : ConstOp) (stack : List Value) :
    run index frame folded [op] stack = step index frame folded op stack := by
  rw [run]
  cases step index frame folded op stack <;> rfl

/-- A step that fails for what it finds has the values it takes, and does not look below them. -/
theorem step_error_below {op : ConstOp} {stack : List Value}
    (failed : step index frame folded op stack = .error e) (fromValues : e.FromValues) (below : List Value) :
    step index frame folded op (stack ++ below) = .error e := by
  cases op with
  | push value => cases failed
  | load v =>
    simp only [step] at failed ⊢
    split at failed <;> cases failed
    rfl
  | folded i =>
    simp only [step] at failed
    split at failed <;> cases failed
    exact fromValues.elim
  | unary op =>
    cases stack with
    | nil =>
      cases failed
      exact fromValues.elim
    | cons a rest => exact map_eq_error_iff.mpr (map_eq_error_iff.mp failed)
  | binary op =>
    rcases stack with _ | ⟨b, _ | ⟨a, rest⟩⟩
    · cases failed
      exact fromValues.elim
    · cases failed
      exact fromValues.elim
    · exact map_eq_error_iff.mpr (map_eq_error_iff.mp failed)

theorem run_error_below {stack : List Value} (failed : run index frame folded program stack = .error e)
    (fromValues : e.FromValues) (below : List Value) :
    run index frame folded program (stack ++ below) = .error e := by
  induction program generalizing stack with
  | nil => cases failed
  | cons op rest ih =>
    rcases bind_eq_error_iff.mp failed with stopped | ⟨mid, stepped, later⟩
    · exact bind_eq_error_iff.mpr (.inl (step_error_below stopped fromValues below))
    · exact bind_eq_error_iff.mpr (.inr ⟨mid ++ below, step_below stepped below, ih later⟩)

/-! ### Values of programs -/

theorem evaluate_of_run {outcome : Except RunError Value}
    (ran : run index frame folded program [] = outcome.map fun value => [value]) :
    evaluate index program frame folded = outcome := by
  rw [evaluate, ran]
  cases outcome <;> rfl

/-- What a program finds in the frame stops the run itself; only the number of values is looked at afterwards. -/
theorem run_error_of_evaluate (failed : evaluate index program frame folded = .error e) (fromValues : e.FromValues) :
    run index frame folded program [] = .error e := by
  rcases bind_eq_error_iff.mp failed with stopped | ⟨stack, -, counted⟩
  · exact stopped
  · split at counted
    · cases counted
    · cases counted
      exact fromValues.elim

theorem evaluate_unary {value : Value} (computed : evaluate index program frame folded = .ok value) (op : UnaryOp) :
    evaluate index (program ++ [.unary op]) frame folded = (value.unary op).mapError .arithmetic := by
  apply evaluate_of_run
  rw [run_append, run_of_evaluate computed]
  exact run_singleton _ _

theorem evaluate_binary {a b : Value} (first : evaluate index left frame folded = .ok a)
    (second : evaluate index right frame folded = .ok b) (op : BinaryOp) :
    evaluate index (left ++ right ++ [.binary op]) frame folded = (a.binary op b).mapError .arithmetic := by
  have above : run index frame folded right [a] = .ok [b, a] := run_below (run_of_evaluate second) [a]
  apply evaluate_of_run
  rw [run_append, run_append, run_of_evaluate first, Except.bind, above]
  exact run_singleton _ _

theorem evaluate_append_error (failed : evaluate index program frame folded = .error e) (fromValues : e.FromValues)
    (rest : ConstProgram) : evaluate index (program ++ rest) frame folded = .error e := by
  apply evaluate_of_run
  rw [run_append, run_error_of_evaluate failed fromValues]
  rfl

theorem evaluate_error_above {a : Value} (first : evaluate index left frame folded = .ok a)
    (failed : evaluate index right frame folded = .error e) (fromValues : e.FromValues) (rest : ConstProgram) :
    evaluate index (left ++ right ++ rest) frame folded = .error e := by
  have above : run index frame folded right [a] = .error e :=
    run_error_below (run_error_of_evaluate failed fromValues) fromValues [a]
  apply evaluate_of_run
  rw [run_append, run_append, run_of_evaluate first, Except.bind, above]
  rfl

/-- Programs of constants are put together as their values are. After programs with values, an operator computes the
value of the whole from theirs, and fails as the arithmetic of values does. A program that fails for what it finds in
the frame makes the whole fail in the same way, at the front or after a program with a value, whatever follows. All
this holds for any number of constants that are known already. -/
theorem evaluate_composes (index : Nat) (frame : Frame) (folded : List Value) (left right : ConstProgram) :
    (∀ a b op, evaluate index left frame folded = .ok a → evaluate index right frame folded = .ok b →
        evaluate index (left ++ right ++ [.binary op]) frame folded = (a.binary op b).mapError .arithmetic) ∧
      (∀ a op, evaluate index left frame folded = .ok a →
        evaluate index (left ++ [.unary op]) frame folded = (a.unary op).mapError .arithmetic) ∧
      (∀ e : RunError, e.FromValues → evaluate index left frame folded = .error e →
        ∀ rest, evaluate index (left ++ rest) frame folded = .error e) ∧
      ∀ (a : Value) (e : RunError), e.FromValues → evaluate index left frame folded = .ok a →
        evaluate index right frame folded = .error e →
        ∀ rest, evaluate index (left ++ right ++ rest) frame folded = .error e := by
  refine ⟨?_, ?_, ?_, ?_⟩
  · intro a b op first second
    exact evaluate_binary first second op
  · intro a op computed
    exact evaluate_unary computed op
  · intro e fromValues failed rest
    exact evaluate_append_error failed fromValues rest
  · intro a e fromValues first failed rest
    exact evaluate_error_above first failed fromValues rest

def scaleFrame : Frame := Frame.empty.store ⟨.global, "k"⟩ (.int 3)

/-- The constant before it, doubled. -/
def doubled : ConstProgram := [.folded 0, .push (.int 2), .binary .multiply]

/-- The value of `k` shifted by a negative number, which has no result. -/
def badShift : ConstProgram := [.load ⟨.global, "k"⟩, .push (.int (-1)), .binary .shiftLeft]

theorem doubled_composes :
    evaluate 1 doubled scaleFrame [.int 5] = .ok (.int 10) ∧
      evaluate 1 badShift scaleFrame [.int 5] = .error (.arithmetic (.negativeShift (-1))) ∧
      evaluate 1 (doubled ++ [.load ⟨.global, "k"⟩] ++ [.binary .modulo]) scaleFrame [.int 5] = .ok (.int 1) ∧
      evaluate 1 (doubled ++ [.unary .negative]) scaleFrame [.int 5] = .ok (.int (-10)) ∧
      ∀ rest, evaluate 1 (badShift ++ rest) scaleFrame [.int 5] = .error (.arithmetic (.negativeShift (-1))) ∧
        evaluate 1 (doubled ++ badShift ++ rest) scaleFrame [.int 5] = .error (.arithmetic (.negativeShift (-1))) := by
  have value : evaluate 1 doubled scaleFrame [.int 5] = .ok (.int 10) := by decide +kernel
  have divisor : evaluate 1 [.load ⟨.global, "k"⟩] scaleFrame [.int 5] = .ok (.int 3) := by decide +kernel
  have fails : evaluate 1 badShift scaleFrame [.int 5] = .error (.arithmetic (.negativeShift (-1))) := by
    decide +kernel
  have fromValues : (RunError.arithmetic (.negativeShift (-1))).FromValues := trivial
  obtain ⟨binary, unary, -, -⟩ := evaluate_composes 1 scaleFrame [.int 5] doubled [.load ⟨.global, "k"⟩]
  obtain ⟨-, -, failure, -⟩ := evaluate_composes 1 scaleFrame [.int 5] badShift []
  obtain ⟨-, -, -, above⟩ := evaluate_composes 1 scaleFrame [.int 5] doubled badShift
  refine ⟨value, fails, binary _ _ .modulo value divisor, unary _ .negative value, ?_⟩
  intro rest
  exact ⟨failure _ fromValues fails rest, above _ _ fromValues value fails rest⟩

end AffineLoops.ConstProgram
