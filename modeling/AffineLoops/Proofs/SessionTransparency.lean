import AffineLoops.Accelerator
import AffineLoops.Proofs.CompilerCorrectness

/-!
A host cannot tell from its variables that it is being accelerated. A session is a list of visits to loops,
each with its own site, accelerator and iterable. If the literal run of every visit succeeds, then so does the
accelerated session, from any frame that agrees with the first, and the frames agree after every visit.

* `executeOver_eq_some`: when a loop is accelerated.
* `Visit.run_agrees`: one visit, on whichever path.
* `session_transparent`: whole sessions.
-/

namespace AffineLoops

/-- A visit of the host to a loop. The site may have been compiled by another accelerator than the one that
runs it, and the settings of both may be any, as long as failures are answered by a literal run. -/
structure Visit where
  body : List Instruction
  headLine : Option Nat
  compiler : Accelerator
  site : LoopSite
  runner : Accelerator
  iterable : Iterable
  single : SingleScoped body
  compiled : compiler.compile body headLine = .ok site
  lenient : runner.settings.strict = false
  built : ∀ p, iterable = .range p → p.Built

/-- The frames that the literal runs of the visits leave, one after the other. -/
def literalSession : List Visit → Frame → Except Literal.Interrupted (List Frame)
  | [], _ => .ok []
  | visit :: rest, frame => do
    let frame ← Literal.run visit.body visit.iterable frame
    let frames ← literalSession rest frame
    return frame :: frames

/-- The reports and the frames of the accelerated visits, one after the other. -/
def acceleratedSession : List Visit → Frame → Except FailedRun (List (RunReport × Frame))
  | [], _ => .ok []
  | visit :: rest, frame => do
    let outcome ← visit.runner.run visit.site visit.iterable frame
    let outcomes ← acceleratedSession rest outcome.2
    return outcome :: outcomes

/-! ### One visit -/

/-- A loop is accelerated only over a progression that is longer than the limit. -/
theorem executeOver_eq_some {loop : CompiledLoop} {iterable : Iterable} {frame : Frame} {settings : Settings}
    {writeBack : WriteBack} (executed : loop.executeOver iterable frame settings = .ok (some writeBack)) :
    ∃ p, iterable = .range p ∧ settings.itersLimit < p.length ∧
      loop.execute p.shape frame settings = .ok writeBack := by
  obtain ⟨shape?, shaped, ran⟩ := bind_eq_ok_iff.mp executed
  cases iterable with
  | items values => cases shaped
  | range p =>
    rw [Iterable.shape?] at shaped
    split at shaped
    · cases shaped
      cases ran
    · rename_i long
      cases shaped
      obtain ⟨writeBack', executed', same⟩ := map_eq_ok_iff.mp ran
      cases same
      exact ⟨p, rfl, by omega, executed'⟩

namespace Accelerator

/-- A site remembers the body that it was compiled from, and its loop, if it has one, comes from it. -/
theorem compile_eq_ok {a : Accelerator} {body : List Instruction} {headLine : Option Nat} {site : LoopSite}
    (compiled : a.compile body headLine = .ok site) :
    site.body = body ∧ ∀ loop, site.compiled = some loop →
      CompiledLoop.compile body a.settings.compileOptions headLine = .ok loop := by
  unfold compile at compiled
  split at compiled
  · rename_i loop ofBody
    cases compiled
    refine ⟨rfl, ?_⟩
    rintro _ ⟨⟩
    exact ofBody
  · split at compiled
    · cases compiled
    · cases compiled
      exact ⟨rfl, by rintro _ ⟨⟩⟩

theorem runLiterally_eq_ok {site : LoopSite} {iterable : Iterable} {frame frame' : Frame}
    (ran : Literal.run site.body iterable frame = .ok frame') (path : RunPath) :
    runLiterally site iterable frame path = .ok (⟨path, iterable.length⟩, frame') := by
  rw [runLiterally, ran]

end Accelerator

namespace Visit

variable (visit : Visit)

/-- The length of an iterable counts its elements. -/
theorem length_eq : visit.iterable.length = visit.iterable.toList.length := by
  cases ranges : visit.iterable with
  | items values => rfl
  | range p =>
    have nonneg := (visit.built p ranges).aligned.length_nonneg
    simp only [Iterable.length, Iterable.toList, Progression.toList, List.length_map, List.length_range]
    omega

/-- A visit succeeds if its literal run does, and leaves a frame that agrees with what that leaves. -/
theorem run_ok {frame frame' : Frame}
    (ran : Literal.run visit.body visit.iterable frame = .ok frame') :
    ∃ path after, visit.runner.run visit.site visit.iterable frame =
        .ok (⟨path, visit.iterable.length⟩, after) ∧ frame'.Agree after := by
  obtain ⟨sameBody, ofBody⟩ := Accelerator.compile_eq_ok visit.compiled
  have literally : ∀ path, Accelerator.runLiterally visit.site visit.iterable frame path =
      .ok (⟨path, visit.iterable.length⟩, frame') :=
    Accelerator.runLiterally_eq_ok (sameBody.symm ▸ ran)
  -- every path but the accelerated one is the literal run itself
  unfold Accelerator.run
  split
  · exact ⟨_, _, literally .fallback, .refl frame'⟩
  · rename_i loop hasLoop
    split
    · rename_i writeBack executed
      obtain ⟨p, ranges, long, executed⟩ := executeOver_eq_some executed
      refine ⟨_, _, rfl, .symm ?_⟩
      rw [ranges] at ran
      exact apply_agree visit.single (ofBody loop hasLoop) (visit.built p ranges).aligned (by omega) executed ran
    · exact ⟨_, _, literally .skipped, .refl frame'⟩
    · rw [if_neg (by simp [visit.lenient])]
      exact ⟨_, _, literally .fallback, .refl frame'⟩

/-- A visit from an agreeing frame. -/
theorem run_agrees {A A' B : Frame} (ran : Literal.run visit.body visit.iterable A = .ok A')
    (agree : A.Agree B) :
    ∃ report B', visit.runner.run visit.site visit.iterable B = .ok (report, B') ∧
      report.iterations = visit.iterable.toList.length ∧ A'.Agree B' := by
  obtain ⟨mid, ranMid, agreeMid⟩ := Literal.run_congr ran agree
  obtain ⟨path, B', ranB, agreeB⟩ := visit.run_ok ranMid
  exact ⟨_, B', ranB, visit.length_eq, agreeMid.trans agreeB⟩

end Visit

/-! ### Whole sessions -/

/-- Acceleration is transparent over whole sessions. If the literal run of every visit succeeds, then from an
agreeing frame every accelerated visit succeeds, on whichever path it takes; it reports as many rounds as its
iterable has elements, and leaves a frame that agrees with the literal one. -/
theorem session_transparent {visits : List Visit} {A B : Frame} {frames : List Frame} (agree : A.Agree B)
    (ran : literalSession visits A = .ok frames) :
    ∃ outcomes, acceleratedSession visits B = .ok outcomes ∧
      List.Forall₂ (fun visit outcome => outcome.1.iterations = visit.iterable.toList.length) visits outcomes ∧
      List.Forall₂ (fun frame outcome => frame.Agree outcome.2) frames outcomes := by
  induction visits generalizing A B frames with
  | nil =>
    cases ran
    exact ⟨[], rfl, .nil, .nil⟩
  | cons visit rest ih =>
    obtain ⟨A', ranVisit, others⟩ := bind_eq_ok_iff.mp ran
    obtain ⟨frames', ranRest, total⟩ := bind_eq_ok_iff.mp others
    cases total
    obtain ⟨report, B', ranB, counted, agree'⟩ := visit.run_agrees ranVisit agree
    obtain ⟨outcomes, ranRestB, counts, agrees⟩ := ih agree' ranRest
    refine ⟨(report, B') :: outcomes, ?_, .cons counted counts, .cons agree' agrees⟩
    exact bind_eq_ok_iff.mpr ⟨_, ranB, bind_eq_ok_iff.mpr ⟨outcomes, ranRestB, rfl⟩⟩

/-- A visit to the loop of `weightedSum`, accelerated from three rounds on. -/
def weightedSumVisit (iterable : Iterable) (built : ∀ p, iterable = .range p → p.Built) : Visit where
  body := weightedSum
  headLine := none
  compiler := ⟨default⟩
  site := ⟨weightedSum, none, some weightedSumLoop⟩
  runner := ⟨{ (default : Settings) with itersLimit := 2 }⟩
  iterable := iterable
  single := by decide +kernel
  compiled := by decide +kernel
  lenient := rfl
  built := built

/-- Three visits in a row: over a long progression, over a list, and over a short progression. -/
def weightedSumSession : List Visit :=
  [weightedSumVisit (.range ⟨2, 11, 3⟩) (by
      rintro _ ⟨⟩
      exact .ofBounds (show Progression.ofBounds 2 9 3 = .ok _ by decide)),
    weightedSumVisit (.items [.bool true, .int 4]) (by rintro _ ⟨⟩),
    weightedSumVisit (.range (.upto 2)) (by
      rintro _ ⟨⟩
      exact .upto 2)]

/-- The accelerated session starts with an integer in place of a truth value, and takes all three paths. -/
theorem weightedSum_session_transparent :
    ∃ frames outcomes, literalSession weightedSumSession (weightedSumFrame (.bool true)) = .ok frames ∧
      acceleratedSession weightedSumSession (weightedSumFrame (.int 1)) = .ok outcomes ∧
      outcomes.map Prod.fst = [⟨.accelerated, 3⟩, ⟨.fallback, 2⟩, ⟨.skipped, 2⟩] ∧
      List.Forall₂ (fun frame outcome => frame.Agree outcome.2) frames outcomes := by
  have sums : (Value.bool true).reading = (Value.int 1).reading := rfl
  have agree : (weightedSumFrame (.bool true)).Agree (weightedSumFrame (.int 1)) :=
    ((Frame.Agree.refl _).store _ sums).store _ rfl
  have succeeds : (literalSession weightedSumSession (weightedSumFrame (.bool true))).toOption.isSome := by
    decide +kernel
  have reports : (acceleratedSession weightedSumSession (weightedSumFrame (.int 1))).toOption.map
      (List.map Prod.fst) = some [⟨.accelerated, 3⟩, ⟨.fallback, 2⟩, ⟨.skipped, 2⟩] := by decide +kernel
  obtain ⟨frames, ran⟩ := exists_eq_ok succeeds
  obtain ⟨outcomes, accelerated, -, agrees⟩ := session_transparent agree ran
  refine ⟨frames, outcomes, ran, accelerated, ?_, agrees⟩
  rw [accelerated] at reports
  exact Option.some.inj reports

end AffineLoops
