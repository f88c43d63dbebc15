import AffineLoops.Proofs.RoundSimulation

/-!
Two lowerings of one body. Under different options a body is lowered to moves that differ in the stack slots
they clear, and to sketches that may differ in a variable the body does not look at (`Sketch.Alike`). The
values that such moves find in freed slots are not the same, but a freed slot is written before it is read:
slots that agree where an entry is live (`SameSlots`) go on agreeing there.

* `Lowers.alike`, `Lowers.sameSlots`: what one action keeps.
* `LowersAll.alike`: what a whole body keeps.
-/

namespace AffineLoops

open Draft (clearing)
open Move (acts)

/-! ### Live slots -/

/-- The slots of the live entries have the same values. -/
def SameLive (entries : List Entry) (x y : SlotKey → Int) : Prop :=
  ∀ i, entries[i]? = some .live →
    x (.stack (entries.length - 1 - i)) = y (.stack (entries.length - 1 - i))

section Live

variable {entries : List Entry} {x y x' y' : SlotKey → Int}

theorem sameLive_nil : SameLive [] x y := by
  intro i found
  simp at found

theorem sameLive_cons_iff {entry : Entry} :
    SameLive (entry :: entries) x y ↔
      (entry = .live → x (.stack entries.length) = y (.stack entries.length)) ∧ SameLive entries x y := by
  constructor
  · intro same
    constructor
    · rintro rfl
      simpa using same 0 rfl
    · intro i found
      have := same (i + 1) (by simpa using found)
      rwa [List.length_cons, show entries.length + 1 - 1 - (i + 1) = entries.length - 1 - i by omega] at this
  · rintro ⟨top, below⟩ (_ | i) found
    · simpa using top (by simpa using found)
    · rw [List.length_cons, show entries.length + 1 - 1 - (i + 1) = entries.length - 1 - i by omega]
      exact below i (by simpa using found)

/-- Slots above the stack do not matter. -/
theorem SameLive.of_eq_below (same : SameLive entries x y)
    (left : ∀ depth, depth < entries.length → x' (.stack depth) = x (.stack depth))
    (right : ∀ depth, depth < entries.length → y' (.stack depth) = y (.stack depth)) :
    SameLive entries x' y' := by
  intro i found
  have inside := (List.getElem?_eq_some_iff.mp found).1
  rw [left _ (by omega), right _ (by omega)]
  exact same i found

/-- A live result on top of entries whose slots are as before. -/
theorem SameLive.live_cons (same : SameLive entries x y)
    (top : x' (.stack entries.length) = y' (.stack entries.length))
    (left : ∀ depth, depth < entries.length → x' (.stack depth) = x (.stack depth))
    (right : ∀ depth, depth < entries.length → y' (.stack depth) = y (.stack depth)) :
    SameLive (.live :: entries) x' y' :=
  sameLive_cons_iff.mpr ⟨fun _ => top, same.of_eq_below left right⟩

variable {inputs : Inputs} {options options' : CompileOptions} {count : Nat}

theorem SameLive.rotate (same : SameLive entries x y) (positive : 0 < count) (room : count ≤ entries.length) :
    SameLive (Stack.rotate count entries) (acts inputs (rotation options count entries) x)
      (acts inputs (rotation options' count entries) y) := by
  intro i found
  rw [getElem?_rotate positive room] at found
  rw [length_rotate, acts_rotation positive room found, acts_rotation positive room found]
  exact same _ found

theorem SameLive.duplicate (same : SameLive entries x y) (room : count ≤ entries.length) :
    SameLive (Stack.duplicate count entries) (acts inputs (duplication count entries) x)
      (acts inputs (duplication count entries) y) := by
  intro i found
  rw [getElem?_duplicate room] at found
  rw [length_duplicate room, acts_duplication room found, acts_duplication room found]
  exact same _ found

end Live

/-! ### One action -/

/-- Sketches with the same entries and constants, in which the variables that are looked at mean the same. -/
structure Sketch.Alike (seen : Variable → Prop) (s t : Sketch) : Prop where
  stack : s.stack = t.stack
  consts : s.consts = t.consts
  lookup : ∀ v, seen v → s.bindings.lookup v = t.bindings.lookup v

/-- The slots of the variables that are looked at, and those of the live entries, have the same values. -/
structure SameSlots (seen : Variable → Prop) (entries : List Entry) (x y : SlotKey → Int) : Prop where
  host : ∀ v, seen v → x (.host v) = y (.host v)
  live : SameLive entries x y

namespace Lowers

variable {options options' : CompileOptions} {action : Action} {s s' t t' : Sketch}
  {moves moves' : List Move} {seen : Variable → Prop} {inputs : Inputs} {x y : SlotKey → Int}

/-- An action is lowered alike from sketches that are alike. -/
theorem alike (first : Lowers options action s moves s') (second : Lowers options' action t moves' t')
    (alike : s.Alike seen t) (loads : ∀ v, action = .load v → seen v) : s'.Alike seen t' := by
  rcases s with ⟨stack, bindings, consts⟩
  rcases t with ⟨_, bindings', _⟩
  obtain ⟨rfl, rfl, lookup⟩ := alike
  have bind : ∀ v binding u, seen u →
      ((v, binding) :: bindings).lookup u = ((v, binding) :: bindings').lookup u := by
    intro v binding u looked
    rw [List.lookup_cons, List.lookup_cons, lookup u looked]
  cases first with
  | positive =>
    cases second with
    | positive => exact ⟨rfl, rfl, lookup⟩
    | unaryFoldable other => exact absurd rfl other
  | unaryFoldable other =>
    cases second with
    | positive => exact absurd rfl other
    | unaryFoldable => exact ⟨rfl, rfl, lookup⟩
  | loadConst bound =>
    have same := lookup _ (loads _ rfl)
    cases second with
    | loadConst bound' =>
      rw [bound, bound'] at same
      cases same
      exact ⟨rfl, rfl, lookup⟩
    | loadSlot bound' =>
      rw [bound, bound'] at same
      cases same
  | loadSlot bound =>
    have same := lookup _ (loads _ rfl)
    cases second with
    | loadConst bound' =>
      rw [bound, bound'] at same
      cases same
    | loadSlot => exact ⟨rfl, rfl, lookup⟩
  | storeFoldable | storeLive =>
    cases second
    exact ⟨rfl, rfl, bind _ _⟩
  | _ =>
    cases second
    exact ⟨rfl, rfl, lookup⟩

/-- The live entries of the new stack have the same values again. -/
theorem sameLive (first : Lowers options action s moves s') (second : Lowers options' action t moves' t')
    (alike : s.Alike seen t) (same : SameSlots seen s.stack x y) (loads : ∀ v, action = .load v → seen v) :
    SameLive s'.stack (acts inputs moves x) (acts inputs moves' y) := by
  have after := first.alike second alike loads
  rcases s with ⟨stack, bindings, consts⟩
  rcases t with ⟨_, bindings', _⟩
  obtain ⟨rfl, rfl, lookup⟩ := alike
  have live := same.live
  cases first with
  | skip =>
    cases second
    exact live
  | push =>
    cases second
    exact sameLive_cons_iff.mpr ⟨by simp, live⟩
  | popFoldable =>
    cases second
    exact (sameLive_cons_iff.mp live).2
  | popLive =>
    cases second
    exact (sameLive_cons_iff.mp live).2.of_eq_below
      (fun depth below => acts_clearing_of_ne (stack_ne (by omega)))
      (fun depth below => acts_clearing_of_ne (stack_ne (by omega)))
  | rotate positive room =>
    cases second
    exact live.rotate positive room
  | duplicate room =>
    cases second
    exact live.duplicate room
  | positive =>
    cases second with
    | positive => exact live
    | unaryFoldable other => exact absurd rfl other
  | unaryFoldable other =>
    cases second with
    | positive => exact absurd rfl other
    | unaryFoldable => exact sameLive_cons_iff.mpr ⟨by simp, (sameLive_cons_iff.mp live).2⟩
  | negateLive =>
    cases second
    obtain ⟨top, below⟩ := sameLive_cons_iff.mp live
    refine below.live_cons ?_ (fun depth lower => Move.act_of_ne x (stack_ne (by omega)))
      (fun depth lower => Move.act_of_ne y (stack_ne (by omega)))
    simp [Move.act, Place.eval, top rfl]
  | binaryFoldable =>
    cases second
    obtain ⟨-, tail⟩ := sameLive_cons_iff.mp live
    exact sameLive_cons_iff.mpr ⟨by simp, (sameLive_cons_iff.mp tail).2⟩
  | binaryLeft isAffine =>
    cases second with
    | binaryLeft isAffine' =>
      obtain rfl := Option.some.inj (isAffine.symm.trans isAffine')
      obtain ⟨-, tail⟩ := sameLive_cons_iff.mp live
      obtain ⟨left, below⟩ := sameLive_cons_iff.mp tail
      refine below.live_cons ?_ (fun depth lower => Move.act_of_ne x (stack_ne (by omega)))
        (fun depth lower => Move.act_of_ne y (stack_ne (by omega)))
      simp [Move.act, Place.eval, left rfl]
  | binaryRight isAffine =>
    cases second with
    | binaryRight isAffine' =>
      obtain rfl := Option.some.inj (isAffine.symm.trans isAffine')
      obtain ⟨right, tail⟩ := sameLive_cons_iff.mp live
      obtain ⟨-, below⟩ := sameLive_cons_iff.mp tail
      refine below.live_cons ?_
        (fun depth lower => acts_sinking_of_ne _ _ _ _ _ x (stack_ne (by omega)) (stack_ne (by omega)))
        (fun depth lower => acts_sinking_of_ne _ _ _ _ _ y (stack_ne (by omega)) (stack_ne (by omega)))
      rw [acts_sinking, acts_sinking]
      exact congrArg _ (right rfl)
  | binaryBoth isAffine =>
    cases second with
    | binaryBoth isAffine' =>
      obtain rfl := Option.some.inj (isAffine.symm.trans isAffine')
      obtain ⟨right, tail⟩ := sameLive_cons_iff.mp live
      obtain ⟨left, below⟩ := sameLive_cons_iff.mp tail
      refine below.live_cons ?_ (fun depth lower => ?_) (fun depth lower => ?_)
      · have right' : x (.stack (_ + 1)) = y (.stack (_ + 1)) := right rfl
        rw [acts_cleared (stack_ne (by omega)), acts_cleared (stack_ne (by omega))]
        simp [Move.act, Place.eval, left rfl, right']
      · rw [acts_cleared (stack_ne (by omega)), Move.act_of_ne _ (stack_ne (by omega))]
      · rw [acts_cleared (stack_ne (by omega)), Move.act_of_ne _ (stack_ne (by omega))]
  | loadConst bound =>
    cases second with
    | loadConst => exact sameLive_cons_iff.mpr ⟨by simp, live⟩
    | loadSlot bound' =>
      have := after.stack
      simp at this
  | loadSlot bound =>
    cases second with
    | loadConst bound' =>
      have := after.stack
      simp at this
    | loadSlot =>
      refine live.live_cons ?_ (fun depth lower => Move.act_of_ne x (stack_ne (Nat.ne_of_lt lower)))
        (fun depth lower => Move.act_of_ne y (stack_ne (Nat.ne_of_lt lower)))
      simp [Move.act, Verb.result, Place.eval, same.host _ (loads _ rfl)]
  | storeFoldable =>
    cases second
    exact (sameLive_cons_iff.mp live).2.of_eq_below
      (fun depth _ => Move.acts_of_not_dest (by simp) x) (fun depth _ => Move.acts_of_not_dest (by simp) y)
  | storeLive =>
    cases second
    refine (sameLive_cons_iff.mp live).2.of_eq_below (fun depth below => ?_) (fun depth below => ?_)
    · rw [acts_cleared (stack_ne (by omega)), Move.act_of_ne _ (by simp)]
    · rw [acts_cleared (stack_ne (by omega)), Move.act_of_ne _ (by simp)]

/-- The variable that is stored to has the same value. -/
theorem same_stored {v : Variable} (first : Lowers options (.store v) s moves s')
    (second : Lowers options' (.store v) t moves' t') (alike : s.Alike seen t)
    (same : SameSlots seen s.stack x y) :
    acts inputs moves x (.host v) = acts inputs moves' y (.host v) := by
  rcases s with ⟨stack, bindings, consts⟩
  rcases t with ⟨_, bindings', _⟩
  obtain ⟨rfl, rfl, -⟩ := alike
  cases first with
  | storeFoldable =>
    cases second
    simp [Move.act, Verb.result, Place.eval]
  | storeLive =>
    cases second
    rw [acts_cleared (by simp), acts_cleared (by simp)]
    simpa [Move.act, Verb.result, Place.eval] using (sameLive_cons_iff.mp same.live).1 rfl

/-- Slots that agree before an action agree after it. -/
theorem sameSlots (first : Lowers options action s moves s') (second : Lowers options' action t moves' t')
    (alike : s.Alike seen t) (loads : ∀ v, action = .load v → seen v)
    (same : SameSlots seen s.stack x y) :
    SameSlots seen s'.stack (acts inputs moves x) (acts inputs moves' y) := by
  refine ⟨fun v looked => ?_, first.sameLive second alike same loads⟩
  by_cases isStore : action = .store v
  · subst isStore
    exact first.same_stored second alike same
  · rw [acts_host_of_not_store first isStore, acts_host_of_not_store second isStore]
    exact same.host v looked

end Lowers

/-! ### A whole body -/

namespace LowersAll

variable {options options' : CompileOptions} {body : List Instruction} {s s' t t' : Sketch}
  {moves moves' : List Move} {seen : Variable → Prop}

/-- A body is lowered alike from sketches that are alike, and its moves keep slots in agreement. -/
theorem alike (first : LowersAll options body s moves s') (second : LowersAll options' body t moves' t')
    (alike : s.Alike seen t) (loads : ∀ v, .load v ∈ body.filterMap Instruction.access? → seen v) :
    s'.Alike seen t' ∧ ∀ inputs x y, SameSlots seen s.stack x y →
      SameSlots seen s'.stack (acts inputs moves x) (acts inputs moves' y) := by
  induction first generalizing t moves' with
  | nil =>
    cases second
    exact ⟨alike, fun inputs x y same => same⟩
  | @cons instr rest action s mid s' _ _ asked lowers _ ih =>
    cases second with
    | cons asked' lowers' others' =>
      obtain rfl := Option.some.inj (asked.symm.trans asked')
      have loadsFirst : ∀ v, action = .load v → seen v := by
        rintro v rfl
        exact loads v (mem_accesses_cons.mpr (.inl (Instruction.access?_eq_some_iff.mpr asked)))
      obtain ⟨alike', agrees⟩ := ih others' (lowers.alike lowers' alike loadsFirst) fun v loaded =>
        loads v (mem_accesses_cons.mpr (.inr loaded))
      refine ⟨alike', fun inputs x y same => ?_⟩
      rw [Move.acts_append, Move.acts_append]
      exact agrees inputs _ _ (lowers.sameSlots lowers' alike loadsFirst same)

end LowersAll

end AffineLoops
