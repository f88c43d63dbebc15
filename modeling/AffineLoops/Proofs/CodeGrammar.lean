import AffineLoops.Proofs.TransitionShape

/-!
The grammar of matrix code: which programs have a transition matrix, and what is wrong with the others.

`check` says it without any matrix. It goes through a program once, from left to right, with the numbers of the
loops that are open; the first instruction that is wrong decides, and at the end of a program the innermost loop
that is still open does.

* `step_outcome`, `resume_outcome`: the engine's scan fails where `check` does, and with the same error. Its products
  and powers never fail, since every matrix it comes across is shaped.
* `block` reads a program as nested blocks instead: the block of a loop is read by a call of its own, from where
  the last call stopped. `resume_eq_block` says that the scan, whatever loops are open around it, carries on
  where the innermost block has been read.
-/

namespace AffineLoops

/-! ### Programs without their matrices -/

/-- An error that the code itself gives rise to, as opposed to one from a matrix operation. -/
def EngineError.OfCode : EngineError → Prop
  | .matrix _ => False
  | _ => True

namespace MatrixCode

/-- The state has a slot of this number. -/
def checkSlot (vars slot : Nat) : Except EngineError Unit :=
  if slot < vars then .ok () else .error (.slotOutOfRange slot vars)

/-- A destination is a slot of the state. -/
def checkDest (vars : Nat) (instr : Instr Resolved) : Resolved → Except EngineError Unit
  | .var slot => checkSlot vars slot
  | .value _ => .error (.invalidInstruction instr)

/-- A source is a number or a slot of the state. -/
def checkSource (vars : Nat) : Resolved → Except EngineError Unit
  | .var slot => checkSlot vars slot
  | .value _ => .ok ()

/-- A factor is a number. -/
def checkFactor (instr : Instr Resolved) : Resolved → Except EngineError Unit
  | .var _ => .error (.invalidInstruction instr)
  | .value _ => .ok ()

/-- The count of a loop is a number that is not negative. -/
def checkCount (instr : Instr Resolved) : Resolved → Except EngineError Unit
  | .var _ => .error (.invalidInstruction instr)
  | .value n => if 0 ≤ n then .ok () else .error (.invalidInstruction instr)

/-- The operands of an instruction, the destination before the source. -/
def checkOperands (vars : Nat) (instr : Instr Resolved) : Except EngineError Unit :=
  match instr with
  | .mov dest src | .add dest src | .sub dest src => do
    checkDest vars instr dest
    checkSource vars src
  | .mul dest src => do
    checkDest vars instr dest
    checkFactor instr src
  | .loop count => checkCount instr count
  | .endLoop => .ok ()

/-- An instruction of number `index`, with the loops of the given numbers open before it. -/
def checkInstr (vars index : Nat) (opened : List Nat) (instr : Instr Resolved) : Except EngineError Unit :=
  match instr, opened with
  | .endLoop, [] => .error (.unexpectedEnd index)
  | instr, _ => checkOperands vars instr

/-- The numbers of the loops that are open after an instruction, innermost first. -/
def openAfter (index : Nat) (opened : List Nat) : Instr Resolved → List Nat
  | .loop _ => index :: opened
  | .endLoop => opened.tail
  | _ => opened

/-- Goes through a program whose first instruction has number `index`, with the loops of the given numbers open
before it. -/
def check (vars : Nat) : Nat → List Nat → List (Instr Resolved) → Except EngineError Unit
  | _, [], [] => .ok ()
  | _, start :: _, [] => .error (.unterminatedLoop start)
  | index, opened, instr :: rest => do
    checkInstr vars index opened instr
    check vars (index + 1) (openAfter index opened instr) rest

theorem checkSlot_failsOnly (vars slot : Nat) : FailsOnly EngineError.OfCode (checkSlot vars slot) := by
  intro e failed
  unfold checkSlot at failed
  split at failed
  · cases failed
  · cases failed
    trivial

theorem checkOperands_failsOnly (vars : Nat) (instr : Instr Resolved) :
    FailsOnly EngineError.OfCode (checkOperands vars instr) := by
  have dest : ∀ operand, FailsOnly EngineError.OfCode (checkDest vars instr operand) := by
    rintro (n | slot)
    · rintro e ⟨⟩
      trivial
    · exact checkSlot_failsOnly vars slot
  have source : ∀ operand, FailsOnly EngineError.OfCode (checkSource vars operand) := by
    rintro (n | slot)
    · rintro e ⟨⟩
    · exact checkSlot_failsOnly vars slot
  cases instr with
  | mov d src | add d src | sub d src => exact failsOnly_bind (dest d) fun _ _ => source src
  | mul d src =>
    refine failsOnly_bind (dest d) fun _ _ => ?_
    cases src with
    | value n => rintro e ⟨⟩
    | var slot =>
      rintro e ⟨⟩
      trivial
  | loop count =>
    intro e failed
    cases count with
    | var slot =>
      cases failed
      trivial
    | value n =>
      simp only [checkOperands, checkCount] at failed
      split at failed
      · cases failed
      · cases failed
        trivial
  | endLoop => rintro e ⟨⟩

theorem check_failsOnly (vars index : Nat) (opened : List Nat) (code : List (Instr Resolved)) :
    FailsOnly EngineError.OfCode (check vars index opened code) := by
  induction code generalizing index opened with
  | nil =>
    cases opened with
    | nil => rintro e ⟨⟩
    | cons start outer =>
      rintro e ⟨⟩
      trivial
  | cons instr rest ih =>
    rw [check]
    refine failsOnly_bind ?_ fun _ _ => ih _ _
    unfold checkInstr
    split
    · rintro e ⟨⟩
      trivial
    · exact checkOperands_failsOnly vars instr

end MatrixCode

namespace Engine

open IntMatrix MatrixCode

variable {vars : Nat}

/-! ### One instruction -/

theorem slotOf_outcome (instr : Instr Resolved) (dest : Resolved) :
    (slotOf instr vars dest).map (fun _ => ()) = checkDest vars instr dest := by
  cases dest with
  | value n => rfl
  | var slot =>
    simp only [slotOf, checkDest, checkSlot]
    split <;> rfl

theorem term_outcome (instr : Instr Resolved) (src : Resolved) :
    (term instr vars src).map (fun _ => ()) = checkSource vars src := by
  cases src with
  | value n => rfl
  | var slot =>
    simp only [term, slotOf, checkSource, checkSlot]
    split <;> rfl

theorem loopCount_outcome (count : Resolved) :
    (loopCount count).map (fun _ => ()) = checkCount (.loop count) count := by
  cases count with
  | var slot => rfl
  | value n =>
    by_cases negative : n < 0
    · simp [loopCount, checkCount, negative, Except.map]
    · simp [loopCount, checkCount, negative, not_lt.mp negative, Except.map]

theorem stepMatrix_outcome {instr : Instr Resolved} (isUpdate : instr.isUpdate = true) :
    (stepMatrix vars instr).map (fun _ => ()) = checkOperands vars instr := by
  -- an update by a source is made of the two operands, and nothing after them can fail
  have withSource : ∀ (dest src : Resolved) (matrix : Nat → Nat × Int → IntMatrix),
      (do return matrix (← slotOf instr vars dest) (← term instr vars src)).map (fun _ => ()) =
        (checkDest vars instr dest >>= fun _ => checkSource vars src) := by
    intro dest src matrix
    refine outcome_bind (slotOf_outcome instr dest) fun slot _ => ?_
    rw [← term_outcome instr src]
    cases term instr vars src <;> rfl
  cases instr with
  | mov dest src => exact withSource dest src _
  | add dest src => exact withSource dest src _
  | sub dest src => exact withSource dest src _
  | mul dest src =>
    cases src with
    | value n => exact outcome_bind (slotOf_outcome _ dest) fun slot _ => rfl
    | var slot => exact outcome_bind (slotOf_outcome _ dest) fun slot _ => rfl
  | loop count => simp [Instr.isUpdate] at isUpdate
  | endLoop => simp [Instr.isUpdate] at isUpdate

theorem step_update (engine : Engine) {instr : Instr Resolved} (isUpdate : instr.isUpdate = true) (index : Nat)
    (progress : Progress) :
    engine.step vars index instr progress = (do
      let matrix ← stepMatrix vars instr
      return { progress with product := ← compose progress.product matrix }) := by
  cases instr with
  | mov | add | sub | mul => rfl
  | loop | endLoop => cases isUpdate

/-- The numbers of the loops that are open. -/
def Progress.opened (progress : Progress) : List Nat := progress.enclosing.map OpenLoop.start

/-- The scan of one instruction fails just if something is wrong with it, and then says so. Products and powers
of what the scan holds do not fail. -/
theorem step_outcome (engine : Engine) {progress : Progress} (shaped : progress.Shaped vars) (index : Nat)
    (instr : Instr Resolved) :
    (engine.step vars index instr progress).map (fun _ => ()) =
      checkInstr vars index progress.opened instr := by
  have update : instr.isUpdate = true →
      (engine.step vars index instr progress).map (fun _ => ()) = checkOperands vars instr := by
    intro isUpdate
    rw [step_update engine isUpdate, ← stepMatrix_outcome isUpdate]
    cases stepped : stepMatrix vars instr with
    | error e => rfl
    | ok matrix =>
      have composed := shaped.product.compose_eq (shaped_stepMatrix stepped)
      simp [composed, Except.map, bind, Except.bind, pure, Except.pure]
  cases instr with
  | loop count =>
    show _ = checkCount (.loop count) count
    rw [← loopCount_outcome, Engine.step]
    cases loopCount count <;> rfl
  | endLoop =>
    cases enclosing : progress.enclosing with
    | nil => simp [Engine.step, enclosing, Progress.opened, checkInstr, Except.map]
    | cons block outer =>
      have before := shaped.before block (by simp [enclosing])
      have composed := before.compose_eq (shaped.product.raise block.count)
      simp [Engine.step, enclosing, Progress.opened, checkInstr, checkOperands, shaped.product.loopPower_eq,
        composed, Except.map, bind, Except.bind, pure, Except.pure]
  | mov | add | sub | mul => exact update rfl

/-- An instruction with nothing wrong takes the scan on to the loops that are then open. -/
theorem step_opened {engine : Engine} {index : Nat} {instr : Instr Resolved} {progress next : Progress}
    (stepped : engine.step vars index instr progress = .ok next) :
    next.opened = openAfter index progress.opened instr := by
  unfold Engine.step at stepped
  split at stepped
  · obtain ⟨count, -, opened⟩ := bind_eq_ok_iff.mp stepped
    cases opened
    rfl
  · split at stepped
    · cases stepped
    · rename_i block outer enclosing
      obtain ⟨power, -, stepped⟩ := bind_eq_ok_iff.mp stepped
      obtain ⟨product, -, closed⟩ := bind_eq_ok_iff.mp stepped
      cases closed
      simp [Progress.opened, openAfter, enclosing]
  · rename_i notLoop notEnd
    obtain ⟨matrix, -, stepped⟩ := bind_eq_ok_iff.mp stepped
    obtain ⟨product, -, stepped⟩ := bind_eq_ok_iff.mp stepped
    cases stepped
    cases instr with
    | loop count => exact absurd rfl (notLoop count)
    | endLoop => exact absurd rfl notEnd
    | mov | add | sub | mul => rfl

/-- What is left of a scan when the program is at its end. -/
def Progress.close (progress : Progress) : Except EngineError IntMatrix :=
  match progress.enclosing with
  | [] => return progress.product
  | block :: _ => .error (.unterminatedLoop block.start)

/-- The transition of a program from the middle of a scan. -/
def resume (engine : Engine) (vars index : Nat) (code : List (Instr Resolved)) (progress : Progress) :
    Except EngineError IntMatrix :=
  engine.scan vars index code progress >>= Progress.close

theorem transition_eq_resume (engine : Engine) (code : List (Instr Resolved)) (vars : Nat) :
    engine.transition code vars = engine.resume vars 0 code ⟨identity (vars + 1), []⟩ := rfl

theorem resume_cons (engine : Engine) (index : Nat) (instr : Instr Resolved) (rest : List (Instr Resolved))
    (progress : Progress) :
    engine.resume vars index (instr :: rest) progress =
      (engine.step vars index instr progress >>= engine.resume vars (index + 1) rest) := by
  rw [resume, scan]
  cases engine.step vars index instr progress <;> rfl

theorem resume_outcome (engine : Engine) (code : List (Instr Resolved)) {progress : Progress}
    (shaped : progress.Shaped vars) (index : Nat) :
    (engine.resume vars index code progress).map (fun _ => ()) = check vars index progress.opened code := by
  induction code generalizing index progress with
  | nil =>
    obtain ⟨product, enclosing⟩ := progress
    cases enclosing <;> rfl
  | cons instr rest ih =>
    rw [resume_cons, check]
    refine outcome_bind (step_outcome engine shaped index instr) fun next stepped => ?_
    rw [ih (shaped.step stepped), step_opened stepped]

/-! ### Programs as nested blocks -/

/-- A block that has been read from code whose first instruction has number `index`: the product of its steps, and
the code after it with the number of its first instruction. Only the block of a loop that began at `opened` leaves
any code. -/
structure Block (opened : Option Nat) (index : Nat) (code : List (Instr Resolved)) where
  product : IntMatrix
  next : Nat
  rest : List (Instr Resolved)
  forward : index ≤ next
  cursor : next + rest.length = index + code.length
  whole : opened = none → rest = []

namespace Block

variable {opened : Option Nat} {index next : Nat} {code rest : List (Instr Resolved)}

/-- A block that has been read to its end from further on. -/
def widen (forward : index ≤ next) (cursor : next + rest.length = index + code.length)
    (block : Block opened next rest) : Block opened index code where
  product := block.product
  next := block.next
  rest := block.rest
  forward := Nat.le_trans forward block.forward
  cursor := by rw [block.cursor, cursor]
  whole := block.whole

theorem length_rest_le (block : Block opened index code) : block.rest.length ≤ code.length := by
  have forward := block.forward
  have cursor := block.cursor
  omega

end Block

/-- Reads the block of the loop that began at `opened`, or the whole program if there is none, up to its end. The
product is that of the steps of the block before `code`. -/
def block (engine : Engine) (vars : Nat) (opened : Option Nat) (index : Nat) (product : IntMatrix)
    (code : List (Instr Resolved)) : Except EngineError (Block opened index code) :=
  match code, opened with
  | [], none => .ok ⟨product, index, [], le_rfl, rfl, fun _ => rfl⟩
  | [], some start => .error (.unterminatedLoop start)
  | .endLoop :: _, none => .error (.unexpectedEnd index)
  | .endLoop :: rest, some _ =>
    .ok ⟨product, index + 1, rest, Nat.le_succ index, Nat.succ_add_eq_add_succ index rest.length, nofun⟩
  | .loop count :: rest, opened => do
    let count ← loopCount count
    let inner ← engine.block vars (some index) (index + 1) (identity (vars + 1)) rest
    let rounds ← engine.loopPower inner.product count
    let product ← compose product rounds
    let outer ← engine.block vars opened inner.next product inner.rest
    return outer.widen (Nat.le_of_succ_le inner.forward)
      (inner.cursor.trans (Nat.succ_add_eq_add_succ index rest.length))
  | instr :: rest, opened => do
    let matrix ← stepMatrix vars instr
    let product ← compose product matrix
    let outer ← engine.block vars opened (index + 1) product rest
    return outer.widen (Nat.le_succ index) (Nat.succ_add_eq_add_succ index rest.length)
termination_by code.length
decreasing_by
  · exact Nat.lt_succ_self _
  · exact Nat.lt_succ_of_le inner.length_rest_le
  · exact Nat.lt_succ_self _

/-- Carries on after the block of the innermost loop has been read. -/
def leave (engine : Engine) (vars : Nat) (enclosing : List OpenLoop) {opened : Option Nat} {index : Nat}
    {code : List (Instr Resolved)} (inner : Block opened index code) : Except EngineError IntMatrix :=
  match enclosing with
  | [] => .ok inner.product
  | loop :: outer => do
    let rounds ← engine.loopPower inner.product loop.count
    let product ← compose loop.before rounds
    engine.resume vars inner.next inner.rest ⟨product, outer⟩

theorem leave_widen (engine : Engine) (enclosing : List OpenLoop) {opened : Option Nat} {index next : Nat}
    {code rest : List (Instr Resolved)} (forward : index ≤ next)
    (cursor : next + rest.length = index + code.length) (inner : Block opened next rest) :
    engine.leave vars enclosing (inner.widen forward cursor) = engine.leave vars enclosing inner := by
  cases enclosing <;> rfl

theorem block_update (engine : Engine) {instr : Instr Resolved} (isUpdate : instr.isUpdate = true)
    (opened : Option Nat) (index : Nat) (product : IntMatrix) (rest : List (Instr Resolved)) :
    engine.block vars opened index product (instr :: rest) = (do
      let matrix ← stepMatrix vars instr
      let product ← compose product matrix
      let outer ← engine.block vars opened (index + 1) product rest
      return outer.widen (Nat.le_succ index) (Nat.succ_add_eq_add_succ index rest.length)) := by
  cases instr with
  | mov | add | sub | mul => simp only [block]
  | loop | endLoop => cases isUpdate

/-- From the middle of a scan, the block of the innermost open loop is read to its end, and the scan carries on
from there. -/
theorem resume_eq_block (engine : Engine) (code : List (Instr Resolved)) (index : Nat) (product : IntMatrix)
    (enclosing : List OpenLoop) :
    engine.resume vars index code ⟨product, enclosing⟩ =
      (engine.block vars (enclosing.head?.map OpenLoop.start) index product code >>=
        engine.leave vars enclosing) := by
  induction length : code.length using Nat.strong_induction_on generalizing code index product enclosing with
  | _ n ih =>
    cases code with
    | nil =>
      cases enclosing with
      | nil =>
        simp only [List.head?_nil, Option.map_none, block]
        rfl
      | cons loop outer =>
        simp only [List.head?_cons, Option.map_some, block]
        rfl
    | cons instr rest =>
      have shorter : rest.length < n := by
        rw [← length]
        exact Nat.lt_succ_self _
      have update : instr.isUpdate = true → engine.resume vars index (instr :: rest) ⟨product, enclosing⟩ =
          (engine.block vars (enclosing.head?.map OpenLoop.start) index product (instr :: rest) >>=
            engine.leave vars enclosing) := by
        intro isUpdate
        rw [resume_cons, step_update engine isUpdate, block_update engine isUpdate]
        simp only [bind_assoc, pure_bind, leave_widen]
        refine bind_congr fun matrix => bind_congr fun product => ?_
        exact ih _ shorter rest (index + 1) product enclosing rfl
      cases instr with
      | endLoop =>
        rw [resume_cons]
        cases enclosing with
        | nil =>
          simp only [List.head?_nil, Option.map_none, block]
          rfl
        | cons loop outer =>
          simp only [List.head?_cons, Option.map_some, block, Engine.step, bind_assoc, pure_bind]
          rfl
      | loop count =>
        rw [resume_cons]
        simp only [block, Engine.step, bind_assoc, pure_bind, leave_widen]
        -- the inner block is the innermost one of the scan behind the loop, and what follows it is the outer block
        refine bind_congr fun count => ?_
        rw [ih _ shorter rest (index + 1) _ _ rfl]
        refine bind_congr fun inner => bind_congr fun rounds => bind_congr fun product => ?_
        have shrinks : inner.rest.length < n := Nat.lt_of_le_of_lt inner.length_rest_le shorter
        exact ih _ shrinks inner.rest inner.next product enclosing rfl
      | mov | add | sub | mul => exact update rfl

/-- The transition of a program is the product of its outermost block, which is all of it. -/
theorem transition_eq_block (engine : Engine) (code : List (Instr Resolved)) (vars : Nat) :
    (engine.block vars none 0 (identity (vars + 1)) code).map
        (fun whole => (whole.product, whole.next, whole.rest)) =
      (engine.transition code vars).map (fun matrix => (matrix, code.length, [])) := by
  rw [transition_eq_resume, resume_eq_block]
  simp only [List.head?_nil, Option.map_none]
  cases engine.block vars none 0 (identity (vars + 1)) code with
  | error e => rfl
  | ok whole =>
    have ended := whole.whole rfl
    have next : whole.next = code.length := by simpa [ended] using whole.cursor
    simp [Except.map, leave, bind, Except.bind, ended, next]

/-! ### Whole programs -/

/-- A program without a transition cannot be run, and one with a transition can. -/
theorem run_outcome (engine : Engine) (code : List (Instr Resolved)) (state : List Int) :
    (engine.run code state).map (fun _ => ()) = (engine.transition code state.length).map (fun _ => ()) := by
  cases accepted : engine.transition code state.length with
  | error e =>
    rw [run, accepted]
    rfl
  | ok matrix =>
    obtain ⟨balanced, fits⟩ := fits_of_transition accepted
    obtain ⟨result, ran, -⟩ := run_of_fits engine balanced fits
    rw [ran]
    rfl

/-- The grammar of matrix code decides every outcome of the engine, with row folding or without. A program has a
transition just if one pass over it, which keeps the numbers of the open loops and no matrix, finds nothing wrong,
and otherwise fails with the first thing that is wrong; reading it block by block gives the same outcome and
reaches its end. No error comes from a matrix, and a run of the program has the outcome that its transition
has. -/
theorem transition_outcome_eq_check (engine : Engine) (code : List (Instr Resolved)) (vars : Nat) :
    (engine.transition code vars).map (fun _ => ()) = check vars 0 [] code ∧
      (engine.block vars none 0 (identity (vars + 1)) code).map
          (fun whole => (whole.product, whole.next, whole.rest)) =
        (engine.transition code vars).map (fun matrix => (matrix, code.length, [])) ∧
      (∀ cause, engine.transition code vars ≠ .error (.matrix cause)) ∧
      ∀ state : List Int, (engine.run code state).map (fun _ => ()) = check state.length 0 [] code := by
  have outcome : ∀ vars, (engine.transition code vars).map (fun _ => ()) = check vars 0 [] code := fun vars =>
    resume_outcome engine code (progress_shaped_start vars) 0
  refine ⟨outcome vars, transition_eq_block engine code vars, ?_, ?_⟩
  · intro cause failed
    have same := outcome vars
    rw [failed] at same
    exact check_failsOnly vars 0 [] code _ same.symm
  · intro state
    rw [run_outcome, outcome]

/-- The inner loop is closed, so that the outer one is the innermost that is left open. -/
example :
    check 2 0 [] [.mov (.var 1) (.var 0), .loop (.value 2), .loop (.value 0), .endLoop, .add (.var 1) (.value 5)] =
      .error (.unterminatedLoop 1) := by
  decide

end Engine

end AffineLoops
