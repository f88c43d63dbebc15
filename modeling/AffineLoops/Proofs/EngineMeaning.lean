import AffineLoops.MatrixCode.Engine
import AffineLoops.Proofs.CodeInterpreter
import AffineLoops.Proofs.FoldedPower

/-!
The engine computes what the code says. A state vector with the constant one behind it is a row vector, and
multiplying it by the transition matrix of a program gives the row vector of the state that the program,
carried out literally, leaves.

* `scan_balanced`: the scan of balanced code multiplies the product so far by a matrix that carries the
  code out, whatever loops are open around it.
* `fits_of_transition`: a program with a transition matrix is balanced and its operands fit.
* `run_of_fits`: so the engine's answer is the interpreter's, with row folding or without.
-/

namespace AffineLoops.Engine

open Matrix IntMatrix MatrixCode

/-! ### Operands that fit -/

/-- A slot of a state of `vars` variables. -/
def IsSlot (vars : Nat) : Resolved → Prop
  | .var slot => slot < vars
  | .value _ => False

/-- A number, or a slot of a state of `vars` variables. -/
def IsTerm (vars : Nat) : Resolved → Prop
  | .var slot => slot < vars
  | .value _ => True

/-- A number. -/
def IsNumber : Resolved → Prop
  | .value _ => True
  | .var _ => False

/-- A number of rounds. -/
def IsCount : Resolved → Prop
  | .value n => 0 ≤ n
  | .var _ => False

/-- The operands of an instruction fit their places and a state of `vars` variables. -/
def Fits (vars : Nat) : Instr Resolved → Prop
  | .mov dest src | .add dest src | .sub dest src => IsSlot vars dest ∧ IsTerm vars src
  | .mul dest src => IsSlot vars dest ∧ IsNumber src
  | .loop count => IsCount count
  | .endLoop => True

/-! ### Row vectors -/

section RowVectors

variable {vars : Nat}

/-- A state as a row vector with the constant one at its end. -/
def augment (vars : Nat) (state : List Int) : Fin (vars + 1) → ℤ := fun i => (state ++ [1]).getD i 0

theorem augment_slot {state : List Int} {slot : Nat} (hslot : slot < state.length)
    (hlt : slot < vars + 1) : augment vars state ⟨slot, hlt⟩ = state.getD slot 0 := by
  simp [augment, List.getD_eq_getElem?_getD, List.getElem?_append_left hslot]

theorem augment_last {state : List Int} (hstate : state.length = vars) :
    augment vars state (Fin.last vars) = 1 := by
  simp [augment, List.getD_eq_getElem?_getD, ← hstate]

theorem augment_set {state : List Int} (hstate : state.length = vars) {slot : Nat} (hslot : slot < vars)
    (value : Int) :
    augment vars (state.set slot value) =
      Function.update (augment vars state) ⟨slot, Nat.lt_succ_of_lt hslot⟩ value := by
  funext i
  by_cases same : i = ⟨slot, Nat.lt_succ_of_lt hslot⟩
  · subst same
    have inner : slot < (state.set slot value).length := by simp [hstate, hslot]
    rw [Function.update_self, augment, List.getD_eq_getElem?_getD, List.getElem?_append_left inner,
      List.getElem?_set_self (by simpa using inner), Option.getD_some]
  · have ne : slot ≠ i.val := fun h => same (Fin.ext h.symm)
    rw [Function.update_of_ne same]
    simp only [augment, List.getD_eq_getElem?_getD]
    by_cases inner : i.val < state.length
    · rw [List.getElem?_append_left (by simpa using inner), List.getElem?_append_left inner,
        List.getElem?_set_ne ne]
    · rw [List.getElem?_append_right (by simpa using inner),
        List.getElem?_append_right (Nat.le_of_not_lt inner), List.length_set]

/-- The row vector of a state determines the state. -/
theorem row_of_augment {state : List Int} (hstate : state.length = vars) {A : IntMatrix}
    (hA : A.size = ⟨1, vars + 1⟩) (h : ∀ j, A.toMatrix 1 (vars + 1) 0 j = augment vars state j) :
    (A.row 0).dropLast = state := by
  have hcols := (MatrixSize.mk.inj hA).2
  have row : A.row 0 = state ++ [1] := by
    apply List.ext_getElem
    · simp [IntMatrix.row, hcols, hstate]
    · intro j hj hj'
      have hlt : j < vars + 1 := by simpa [hstate] using hj'
      have := h ⟨j, hlt⟩
      simp only [toMatrix_apply, augment, List.getD_eq_getElem?_getD, List.getElem?_eq_getElem hj',
        Option.getD_some] at this
      simpa [IntMatrix.row] using this
  rw [row, List.dropLast_concat]

end RowVectors

/-! ### Single steps -/

section Steps

variable {vars : Nat}

/-- The sum of a row vector against a single weight. -/
theorem sum_single (x : Fin (vars + 1) → ℤ) (row : Fin (vars + 1)) (weight : ℤ) :
    ∑ i, x i * (if i.val = row.val then weight else 0) = x row * weight := by
  simp only [← Fin.ext_iff, mul_ite, mul_zero, Finset.sum_ite_eq', Finset.mem_univ, if_true]

/-- A step changes one entry of a row vector: it becomes the sum of all entries by their weights. -/
theorem vecMul_update {dest : Nat} (hdest : dest < vars) (weights : Nat → Int) (x : Fin (vars + 1) → ℤ) :
    x ᵥ* (Engine.update vars dest weights).toMatrix (vars + 1) (vars + 1) =
      Function.update x ⟨dest, Nat.lt_succ_of_lt hdest⟩ (∑ i, x i * weights i) := by
  funext j
  have column : ∀ i : Fin (vars + 1), (Engine.update vars dest weights).toMatrix (vars + 1) (vars + 1) i j =
      if j.val = dest then weights i else delta i j := by
    intro i
    rw [toMatrix_apply, Engine.update, entry_ofFn, if_pos ⟨i.isLt, j.isLt⟩]
  show ∑ i, x i * _ = _
  simp only [column]
  by_cases same : j = ⟨dest, Nat.lt_succ_of_lt hdest⟩
  · subst same
    simp
  · have ne : j.val ≠ dest := fun h => same (Fin.ext h)
    rw [Function.update_of_ne same]
    simp only [ne, if_false, delta, sum_single, mul_one]

theorem isAffine_update {dest : Nat} (hdest : dest < vars) (weights : Nat → Int) :
    IsAffine ((Engine.update vars dest weights).toMatrix (vars + 1) (vars + 1)) := by
  intro i j last
  have ne : j.val ≠ dest := by omega
  rw [toMatrix_apply, Engine.update, entry_ofFn, if_pos ⟨i.isLt, j.isLt⟩, if_neg ne, delta_eq_one]

theorem read_slot {state : List Int} (hstate : state.length = vars) {slot : Nat} (hslot : slot < vars) :
    MatrixCode.read state (.var slot) =
      some (augment vars state ⟨slot, Nat.lt_succ_of_lt hslot⟩) := by
  have inner : slot < state.length := hstate ▸ hslot
  rw [augment_slot inner, MatrixCode.read, List.getD_eq_getElem?_getD, List.getElem?_eq_getElem inner,
    Option.getD_some]

theorem write_slot {state : List Int} (hstate : state.length = vars) {slot : Nat} (hslot : slot < vars)
    (value : Int) : write state value (.var slot) = some (state.set slot value) := by
  rw [write, if_pos (hstate ▸ hslot)]

/-- The term of an operand weighs what the operand reads. -/
theorem term_ok {src : Resolved} (hsrc : IsTerm vars src) (instr : Instr Resolved) :
    ∃ (row : Fin (vars + 1)) (weight : ℤ), term instr vars src = .ok (row.val, weight) ∧
      ∀ state : List Int, state.length = vars →
        MatrixCode.read state src = some (augment vars state row * weight) := by
  cases src with
  | value n =>
    refine ⟨Fin.last vars, n, rfl, fun state hstate => ?_⟩
    rw [augment_last hstate, one_mul, MatrixCode.read]
  | var slot =>
    refine ⟨⟨slot, Nat.lt_succ_of_lt hsrc⟩, 1, ?_, fun state hstate => ?_⟩
    · simp only [IsTerm] at hsrc
      simp [term, slotOf, hsrc, Except.map]
    · rw [read_slot hstate hsrc, mul_one]

theorem slotOf_ok {dest : Resolved} (hdest : IsSlot vars dest) (instr : Instr Resolved) :
    ∃ slot, dest = .var slot ∧ slot < vars ∧ slotOf instr vars dest = .ok slot := by
  cases dest with
  | value n => exact hdest.elim
  | var slot =>
    simp only [IsSlot] at hdest
    exact ⟨slot, rfl, hdest, by rw [slotOf, if_pos hdest]⟩

/-- An update whose operands fit has a step, and the step's weighted sum is the value that it stores. -/
theorem stepMatrix_ok {instr : Instr Resolved} (isUpdate : instr.isUpdate = true) (fits : Fits vars instr) :
    ∃ (dest : Nat) (weights : Nat → Int), dest < vars ∧
      stepMatrix vars instr = .ok (Engine.update vars dest weights) ∧
      ∀ state : List Int, state.length = vars →
        MatrixCode.update state instr = some (state.set dest (∑ i, augment vars state i * weights i)) := by
  cases instr with
  | mov dest src =>
    obtain ⟨slot, rfl, hslot, hdest⟩ := slotOf_ok fits.1 (.mov dest src)
    obtain ⟨row, weight, hterm, reads⟩ := term_ok fits.2 (.mov (.var slot) src)
    refine ⟨slot, fun i => if i = row.val then weight else 0, hslot, ?_, fun state hstate => ?_⟩
    · simp [stepMatrix, hdest, hterm, bind, Except.bind, pure, Except.pure]
    · simp only [MatrixCode.update, reads state hstate, Option.bind_eq_bind, Option.bind_some,
        write_slot hstate hslot, sum_single]
  | add dest src =>
    obtain ⟨slot, rfl, hslot, hdest⟩ := slotOf_ok fits.1 (.add dest src)
    obtain ⟨row, weight, hterm, reads⟩ := term_ok fits.2 (.add (.var slot) src)
    refine ⟨slot, fun i => delta i slot + if i = row.val then weight else 0, hslot, ?_,
      fun state hstate => ?_⟩
    · simp [stepMatrix, hdest, hterm, bind, Except.bind, pure, Except.pure]
    · have own := sum_single (augment vars state) ⟨slot, Nat.lt_succ_of_lt hslot⟩ 1
      simp only [MatrixCode.update, reads state hstate, read_slot hstate hslot, Option.bind_eq_bind,
        Option.bind_some, write_slot hstate hslot, mul_add, Finset.sum_add_distrib, delta, sum_single,
        own, mul_one]
  | sub dest src =>
    obtain ⟨slot, rfl, hslot, hdest⟩ := slotOf_ok fits.1 (.sub dest src)
    obtain ⟨row, weight, hterm, reads⟩ := term_ok fits.2 (.sub (.var slot) src)
    refine ⟨slot, fun i => delta i slot - if i = row.val then weight else 0, hslot, ?_,
      fun state hstate => ?_⟩
    · simp [stepMatrix, hdest, hterm, bind, Except.bind, pure, Except.pure]
    · have own := sum_single (augment vars state) ⟨slot, Nat.lt_succ_of_lt hslot⟩ 1
      simp only [MatrixCode.update, reads state hstate, read_slot hstate hslot, Option.bind_eq_bind,
        Option.bind_some, write_slot hstate hslot, mul_sub, Finset.sum_sub_distrib, delta, sum_single,
        own, mul_one]
  | mul dest src =>
    obtain ⟨slot, rfl, hslot, hdest⟩ := slotOf_ok fits.1 (.mul dest src)
    cases src with
    | var other => exact fits.2.elim
    | value n =>
      refine ⟨slot, fun i => if i = slot then n else 0, hslot, ?_, fun state hstate => ?_⟩
      · simp [stepMatrix, hdest, bind, Except.bind, pure, Except.pure]
      · have own := sum_single (augment vars state) ⟨slot, Nat.lt_succ_of_lt hslot⟩ n
        have number : MatrixCode.read state (.value n) = some n := rfl
        simp only [MatrixCode.update, read_slot hstate hslot, number, Option.bind_eq_bind,
          Option.bind_some, write_slot hstate hslot, own]
  | loop count => simp [Instr.isUpdate] at isUpdate
  | endLoop => simp [Instr.isUpdate] at isUpdate

/-- `M` carries out `code`: it takes the row vector of a state to that of the state the code leaves. -/
def Carries (vars : Nat) (M : Matrix (Fin (vars + 1)) (Fin (vars + 1)) ℤ) (code : List (Instr Resolved)) :
    Prop :=
  ∀ state : List Int, state.length = vars → ∃ result, interpret code state = some result ∧
    result.length = vars ∧ augment vars state ᵥ* M = augment vars result

theorem carries_nil : Carries vars 1 [] :=
  fun state hstate => ⟨state, interpret_nil state, hstate, Matrix.vecMul_one _⟩

/-- A step carries out its update, and what follows carries on from there. -/
theorem carries_update {instr : Instr Resolved} (isUpdate : instr.isUpdate = true) {dest : Nat}
    {weights : Nat → Int} (hdest : dest < vars)
    (updates : ∀ state : List Int, state.length = vars →
      MatrixCode.update state instr = some (state.set dest (∑ i, augment vars state i * weights i)))
    {M : Matrix (Fin (vars + 1)) (Fin (vars + 1)) ℤ} {rest : List (Instr Resolved)}
    (carries : Carries vars M rest) :
    Carries vars ((Engine.update vars dest weights).toMatrix (vars + 1) (vars + 1) * M) (instr :: rest) := by
  intro state hstate
  let next := state.set dest (∑ i, augment vars state i * weights i)
  have hnext : next.length = vars := by rw [List.length_set, hstate]
  obtain ⟨result, ran, length, acts⟩ := carries next hnext
  refine ⟨result, ?_, length, ?_⟩
  · rw [interpret_update isUpdate, updates state hstate, Option.bind_some, ran]
  · rw [← Matrix.vecMul_vecMul, vecMul_update hdest, ← augment_set hstate hdest, acts]

/-- A power of a block's matrix carries out the block that often. -/
theorem repeated_carries {M : Matrix (Fin (vars + 1)) (Fin (vars + 1)) ℤ} {block : List (Instr Resolved)}
    (carries : Carries vars M block) (count : Nat) (state : List Int) (hstate : state.length = vars) :
    ∃ result, repeated (interpret block) count state = some result ∧ result.length = vars ∧
      augment vars state ᵥ* M ^ count = augment vars result := by
  induction count generalizing state with
  | zero => exact ⟨state, rfl, hstate, by rw [pow_zero, Matrix.vecMul_one]⟩
  | succ count ih =>
    obtain ⟨next, ran, hnext, acts⟩ := carries state hstate
    obtain ⟨result, rest, hresult, restActs⟩ := ih next hnext
    refine ⟨result, ?_, hresult, ?_⟩
    · simp only [repeated, ran, Option.bind_eq_bind, Option.bind_some, rest]
    · rw [pow_succ', ← Matrix.vecMul_vecMul, acts, restActs]

theorem carries_loop {block rest : List (Instr Resolved)} (balanced : Balanced block) {count : Resolved}
    {n : Nat} (hcount : rounds? count = some n) {M N : Matrix (Fin (vars + 1)) (Fin (vars + 1)) ℤ}
    (carriesBlock : Carries vars M block) (carriesRest : Carries vars N rest) :
    Carries vars (M ^ n * N) (.loop count :: block ++ .endLoop :: rest) := by
  intro state hstate
  obtain ⟨middle, ran, hmiddle, acts⟩ := repeated_carries carriesBlock n state hstate
  obtain ⟨result, rest, hresult, restActs⟩ := carriesRest middle hmiddle
  refine ⟨result, ?_, hresult, ?_⟩
  · rw [interpret_loop balanced, hcount, Option.bind_some, ran, Option.bind_some, rest]
  · rw [← Matrix.vecMul_vecMul, acts, restActs]

end Steps

/-! ### The scan -/

section Scan

variable {vars : Nat} (engine : Engine)

theorem compose_ok {A B : IntMatrix} {rows mid cols : Nat} (hA : A.size = ⟨rows, mid⟩)
    (hB : B.size = ⟨mid, cols⟩) : compose A B = .ok (A.mul B) := by
  rw [compose, multiply_ok hA hB]
  rfl

/-- With row folding or without, the rounds of an affine block are its power. -/
theorem loopPower_ok {block : IntMatrix} {side : Nat} (hblock : block.size = ⟨side, side⟩)
    (affine : IsAffine (block.toMatrix side side)) (count : Nat) :
    engine.loopPower block count = .ok (block.raise count) := by
  rw [loopPower, RowFolding.power_eq_raise hblock affine, power_ok hblock]
  cases engine.foldConstantRows <;> rfl

theorem loopCount_ok {count : Resolved} (hcount : IsCount count) :
    ∃ n, rounds? count = some n ∧ loopCount count = .ok n := by
  cases count with
  | var slot => exact hcount.elim
  | value n =>
    have nonneg : ¬ n < 0 := not_lt.mpr hcount
    exact ⟨n.toNat, by rw [rounds?, if_neg nonneg], by rw [loopCount, if_neg nonneg]⟩

/-- The scan of balanced code whose operands fit multiplies the product so far by an affine matrix that
carries the code out. Loops that are open before the code stay open. -/
theorem scan_balanced {code : List (Instr Resolved)} (balanced : Balanced code)
    (fits : ∀ instr ∈ code, Fits vars instr) :
    ∃ M : Matrix (Fin (vars + 1)) (Fin (vars + 1)) ℤ, IsAffine M ∧ Carries vars M code ∧
      ∀ (index : Nat) (rest : List (Instr Resolved)) (progress : Progress),
        progress.product.size = ⟨vars + 1, vars + 1⟩ →
        ∃ product : IntMatrix, product.size = ⟨vars + 1, vars + 1⟩ ∧
          product.toMatrix (vars + 1) (vars + 1) =
            progress.product.toMatrix (vars + 1) (vars + 1) * M ∧
          engine.scan vars index (code ++ rest) progress =
            engine.scan vars (index + code.length) rest ⟨product, progress.enclosing⟩ := by
  induction balanced with
  | nil =>
    refine ⟨1, isAffine_one, carries_nil, fun index rest progress hproduct => ?_⟩
    exact ⟨progress.product, hproduct, (mul_one _).symm, rfl⟩
  | @update instr tail isUpdate _ ih =>
    obtain ⟨dest, weights, hdest, stepOk, updates⟩ := stepMatrix_ok isUpdate (fits instr List.mem_cons_self)
    obtain ⟨M, affine, carries, scans⟩ := ih fun i hi => fits i (List.mem_cons_of_mem _ hi)
    refine ⟨_, (isAffine_update hdest weights).mul affine, carries_update isUpdate hdest updates carries, ?_⟩
    intro index rest progress hproduct
    have hstep : (Engine.update vars dest weights).size = ⟨vars + 1, vars + 1⟩ := rfl
    let next : Progress := { progress with product := progress.product.mul (Engine.update vars dest weights) }
    obtain ⟨product, hsize, product_eq, scanned⟩ := scans (index + 1) rest next (size_mul hproduct hstep)
    refine ⟨product, hsize, ?_, ?_⟩
    · rw [product_eq, toMatrix_mul hproduct hstep, mul_assoc]
    · have one : engine.step vars index instr progress = .ok next := by
        cases instr <;> simp [Instr.isUpdate] at isUpdate <;>
          simp [Engine.step, stepOk, compose_ok hproduct hstep, bind, Except.bind, pure, Except.pure, next]
      rw [List.cons_append, scan, one]
      simp only [bind, Except.bind]
      rw [scanned, List.length_cons]
      congr 1
      omega
  | @loop count block tail balancedBlock _ ihBlock ihTail =>
    obtain ⟨n, rounds, countOk⟩ := loopCount_ok (fits (.loop count) List.mem_cons_self)
    obtain ⟨M, affine, carries, scans⟩ := ihBlock fun i hi => fits i (by simp [hi])
    obtain ⟨N, affine', carries', scans'⟩ := ihTail fun i hi => fits i (by simp [hi])
    refine ⟨M ^ n * N, (affine.pow n).mul affine', carries_loop balancedBlock rounds carries carries', ?_⟩
    intro index rest progress hproduct
    -- the block is scanned from the identity, with this loop open above the others
    let inside : Progress := ⟨identity (vars + 1), ⟨index, n, progress.product⟩ :: progress.enclosing⟩
    obtain ⟨body, hbody, body_eq, scanned⟩ :=
      scans (index + 1) (.endLoop :: (tail ++ rest)) inside (size_identity _)
    rw [show inside.product = identity (vars + 1) from rfl, toMatrix_identity, one_mul] at body_eq
    have hraise := size_raise hbody n
    let after : Progress := ⟨progress.product.mul (body.raise n), progress.enclosing⟩
    obtain ⟨product, hsize, product_eq, scanned'⟩ :=
      scans' (index + 1 + block.length + 1) rest after (size_mul hproduct hraise)
    refine ⟨product, hsize, ?_, ?_⟩
    · rw [product_eq, toMatrix_mul hproduct hraise, toMatrix_raise hbody, body_eq, mul_assoc]
    · have opened : engine.step vars index (.loop count) progress = .ok inside := by
        simp [Engine.step, countOk, bind, Except.bind, pure, Except.pure, inside]
      have closed : engine.step vars (index + 1 + block.length) .endLoop ⟨body, inside.enclosing⟩ =
          .ok after := by
        simp [Engine.step, inside, loopPower_ok engine hbody (body_eq ▸ affine), compose_ok hproduct hraise,
          bind, Except.bind, pure, Except.pure, after]
      rw [List.cons_append, List.cons_append, List.append_assoc, List.cons_append, scan, opened]
      simp only [bind, Except.bind]
      rw [scanned, scan, closed]
      simp only [bind, Except.bind]
      rw [scanned']
      congr 1
      simp only [List.length_cons, List.length_append]
      omega

/-- Balanced code whose operands fit has a transition matrix, and the matrix carries it out. -/
theorem transition_of_fits {code : List (Instr Resolved)} (balanced : Balanced code)
    (fits : ∀ instr ∈ code, Fits vars instr) :
    ∃ matrix : IntMatrix, engine.transition code vars = .ok matrix ∧
      matrix.size = ⟨vars + 1, vars + 1⟩ ∧ Carries vars (matrix.toMatrix (vars + 1) (vars + 1)) code := by
  obtain ⟨M, -, carries, scans⟩ := scan_balanced engine balanced fits
  obtain ⟨product, hsize, product_eq, scanned⟩ :=
    scans 0 [] ⟨identity (vars + 1), []⟩ (size_identity _)
  rw [toMatrix_identity, one_mul] at product_eq
  refine ⟨product, ?_, hsize, product_eq ▸ carries⟩
  rw [List.append_nil] at scanned
  rw [transition, scanned]
  rfl

/-- The engine's answer on balanced code whose operands fit is the interpreter's. -/
theorem run_of_fits {code : List (Instr Resolved)} {state : List Int} (balanced : Balanced code)
    (fits : ∀ instr ∈ code, Fits state.length instr) :
    ∃ result, engine.run code state = .ok result ∧ result.length = state.length ∧
      interpret code state = some result := by
  obtain ⟨matrix, accepted, hmatrix, carries⟩ := transition_of_fits engine balanced fits
  obtain ⟨result, ran, hresult, acts⟩ := carries state rfl
  have hrow : (rowVector (state ++ [1])).size = ⟨1, state.length + 1⟩ := by
    simp [rowVector, IntMatrix.size]
  refine ⟨result, ?_, hresult, ran⟩
  rw [run, accepted]
  simp only [bind, Except.bind, compose_ok hrow hmatrix, pure, Except.pure]
  congr 1
  refine row_of_augment hresult (size_mul hrow hmatrix) fun j => ?_
  have row : ∀ i, (rowVector (state ++ [1])).toMatrix 1 (state.length + 1) 0 i =
      augment state.length state i := by
    intro i
    have inside : i.val < (state ++ [1]).length := by
      rw [List.length_append]
      exact i.isLt
    rw [toMatrix_apply, rowVector, entry_ofFn, if_pos ⟨Nat.one_pos, inside⟩, augment]
  rw [toMatrix_mul hrow hmatrix, Matrix.mul_apply, ← acts]
  simp only [row]
  rfl

end Scan

/-! ### Accepted programs -/

section Accepted

variable {vars : Nat}

/-- Code that is balanced once `depth` loops, open before it, have ended in it. -/
inductive Closes : Nat → List (Instr Resolved) → Prop where
  | done {code : List (Instr Resolved)} : Balanced code → Closes 0 code
  | close {depth : Nat} {block rest : List (Instr Resolved)} :
      Balanced block → Closes depth rest → Closes (depth + 1) (block ++ .endLoop :: rest)

theorem Closes.update {instr : Instr Resolved} (isUpdate : instr.isUpdate = true) {depth : Nat}
    {rest : List (Instr Resolved)} (closes : Closes depth rest) : Closes depth (instr :: rest) := by
  cases closes with
  | done balanced => exact .done (.update isUpdate balanced)
  | close balanced closes => exact .close (.update isUpdate balanced) closes

theorem Closes.loop {count : Resolved} {depth : Nat} {rest : List (Instr Resolved)}
    (closes : Closes (depth + 1) rest) : Closes depth (.loop count :: rest) := by
  cases closes with
  | @close _ block rest balanced closes =>
    cases closes with
    | done balanced' => exact .done (.loop balanced balanced')
    | @close depth block' rest' balanced' closes' =>
      have regroup : Instr.loop count :: (block ++ .endLoop :: (block' ++ .endLoop :: rest')) =
          (Instr.loop count :: block ++ .endLoop :: block') ++ .endLoop :: rest' := by simp
      rw [regroup]
      exact .close (.loop balanced balanced') closes'

theorem isSlot_of_slotOf {instr : Instr Resolved} {dest : Resolved} {slot : Nat}
    (h : slotOf instr vars dest = .ok slot) : IsSlot vars dest := by
  cases dest with
  | value n => simp [slotOf] at h
  | var other =>
    by_cases inside : other < vars
    · exact inside
    · simp [slotOf, inside] at h

theorem isTerm_of_term {instr : Instr Resolved} {src : Resolved} {weighed : Nat × Int}
    (h : term instr vars src = .ok weighed) : IsTerm vars src := by
  cases src with
  | value n => trivial
  | var slot =>
    simp only [term] at h
    cases found : slotOf instr vars (.var slot) with
    | error cause => simp [found, Except.map] at h
    | ok row => exact isSlot_of_slotOf found

/-- An update with a step has operands that fit. -/
theorem fits_of_stepMatrix {instr : Instr Resolved} {matrix : IntMatrix}
    (h : stepMatrix vars instr = .ok matrix) : instr.isUpdate = true ∧ Fits vars instr := by
  unfold stepMatrix at h
  split at h
  case h_1 dest src | h_2 dest src | h_3 dest src =>
    simp only [bind, Except.bind] at h
    split at h
    · simp at h
    · rename_i slot foundSlot
      split at h
      · simp at h
      · rename_i weighed foundTerm
        exact ⟨rfl, isSlot_of_slotOf foundSlot, isTerm_of_term foundTerm⟩
  case h_4 dest n =>
    simp only [bind, Except.bind] at h
    split at h
    · simp at h
    · rename_i slot foundSlot
      exact ⟨rfl, isSlot_of_slotOf foundSlot, trivial⟩
  case h_5 dest slot =>
    simp only [bind, Except.bind] at h
    split at h <;> simp at h
  all_goals simp at h

/-- What one instruction of a scan can do to the open loops, and what it needs. -/
theorem step_cases {engine : Engine} {index : Nat} {instr : Instr Resolved} {progress next : Progress}
    (h : engine.step vars index instr progress = .ok next) :
    (instr.isUpdate = true ∧ Fits vars instr ∧ next.enclosing = progress.enclosing) ∨
    (∃ count opened, instr = .loop count ∧ IsCount count ∧
      next.enclosing = opened :: progress.enclosing) ∨
    (∃ closed, instr = .endLoop ∧ progress.enclosing = closed :: next.enclosing) := by
  unfold Engine.step at h
  split at h
  · rename_i count
    cases count with
    | var slot => simp [loopCount, bind, Except.bind] at h
    | value n =>
      by_cases negative : n < 0
      · simp [loopCount, negative, bind, Except.bind] at h
      · simp only [loopCount, negative, if_false, bind, Except.bind, pure, Except.pure,
          Except.ok.injEq] at h
        subst h
        exact .inr (.inl ⟨_, _, rfl, not_lt.mp negative, rfl⟩)
  · split at h
    · simp at h
    · rename_i closed outer enclosing
      simp only [bind, Except.bind] at h
      split at h
      · simp at h
      · split at h
        · simp at h
        · simp only [pure, Except.pure, Except.ok.injEq] at h
          subst h
          exact .inr (.inr ⟨closed, rfl, enclosing⟩)
  · simp only [bind, Except.bind] at h
    split at h
    · simp at h
    · rename_i matrix stepped
      split at h
      · simp at h
      · simp only [pure, Except.pure, Except.ok.injEq] at h
        subst h
        exact .inl ⟨(fits_of_stepMatrix stepped).1, (fits_of_stepMatrix stepped).2, rfl⟩

/-- A scan that ends with no open loop has closed the loops that were open before it, and every instruction
on its way fits. -/
theorem closes_of_scan (engine : Engine) {code : List (Instr Resolved)} {index : Nat}
    {progress final : Progress} (scanned : engine.scan vars index code progress = .ok final)
    (ended : final.enclosing = []) :
    Closes progress.enclosing.length code ∧ ∀ instr ∈ code, Fits vars instr := by
  induction code generalizing index progress with
  | nil =>
    simp only [scan, Except.ok.injEq] at scanned
    subst scanned
    rw [ended]
    exact ⟨.done .nil, by simp⟩
  | cons instr rest ih =>
    rw [scan] at scanned
    cases one : engine.step vars index instr progress with
    | error cause => simp [one, bind, Except.bind] at scanned
    | ok next =>
      rw [one] at scanned
      obtain ⟨closes, fits⟩ := ih scanned
      rcases step_cases one with ⟨isUpdate, fit, same⟩ | ⟨count, opened, rfl, fit, more⟩ | ⟨closed, rfl, fewer⟩
      · rw [same] at closes
        exact ⟨closes.update isUpdate, List.forall_mem_cons.mpr ⟨fit, fits⟩⟩
      · rw [more, List.length_cons] at closes
        exact ⟨closes.loop, List.forall_mem_cons.mpr ⟨fit, fits⟩⟩
      · rw [fewer, List.length_cons]
        exact ⟨.close .nil closes, List.forall_mem_cons.mpr ⟨trivial, fits⟩⟩

/-- A program with a transition matrix is balanced, and its operands fit. -/
theorem fits_of_transition {engine : Engine} {code : List (Instr Resolved)} {matrix : IntMatrix}
    (accepted : engine.transition code vars = .ok matrix) :
    Balanced code ∧ ∀ instr ∈ code, Fits vars instr := by
  unfold transition at accepted
  cases scanned : engine.scan vars 0 code ⟨identity (vars + 1), []⟩ with
  | error cause => simp [scanned, bind, Except.bind] at accepted
  | ok final =>
    simp only [scanned, bind, Except.bind] at accepted
    split at accepted
    · rename_i ended
      obtain ⟨closes, fits⟩ := closes_of_scan engine scanned ended
      cases closes with
      | done balanced => exact ⟨balanced, fits⟩
    · simp at accepted

/-- The engine's meaning. A program that has a transition matrix for the variables of a state leaves, under
either engine, the state of the same length that carrying it out literally leaves. -/
theorem run_eq_interpret {engine : Engine} {code : List (Instr Resolved)} {state : List Int}
    {matrix : IntMatrix} (accepted : engine.transition code state.length = .ok matrix) (fold : Bool) :
    ∃ result, (⟨fold⟩ : Engine).run code state = .ok result ∧ result.length = state.length ∧
      interpret code state = some result := by
  obtain ⟨balanced, fits⟩ := fits_of_transition accepted
  exact run_of_fits ⟨fold⟩ balanced fits

end Accepted

/-- A loop in a loop, a loop of no round, and an update of a variable by itself. -/
def nestedLoops : List (Instr Resolved) :=
  [.loop (.value 2), .add (.var 0) (.var 0), .loop (.value 3), .add (.var 1) (.var 0), .endLoop,
    .sub (.var 2) (.value 1), .endLoop, .loop (.value 0), .mov (.var 0) (.value 5), .endLoop]

theorem run_nestedLoops :
    interpret nestedLoops [1, 0, 7] = some [4, 18, 5] ∧
      ∃ result, (⟨true⟩ : Engine).run nestedLoops [1, 0, 7] = .ok result ∧ result.length = 3 ∧
        interpret nestedLoops [1, 0, 7] = some result := by
  have accepted : (⟨false⟩ : Engine).transition nestedLoops 3 = .ok
      ⟨4, 4, #[4, 18, 0, 0, 0, 1, 0, 0, 0, 0, 1, 0, 0, 0, -2, 1], rfl⟩ := by decide +kernel
  exact ⟨by decide +kernel, run_eq_interpret accepted true⟩

end AffineLoops.Engine
