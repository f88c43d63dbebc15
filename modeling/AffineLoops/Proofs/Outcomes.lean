import Mathlib.Data.List.Forall2

/-!
Outcomes of computations that may fail, one lemma for each way of putting them together.
-/

namespace AffineLoops

variable {ε ε' α β : Type}

theorem mapError_eq_ok_iff {x : Except ε α} {f : ε → ε'} {a : α} : x.mapError f = .ok a ↔ x = .ok a := by
  cases x <;> simp [Except.mapError]

theorem map_eq_ok_iff {x : Except ε α} {f : α → β} {b : β} :
    x.map f = .ok b ↔ ∃ a, x = .ok a ∧ f a = b := by
  cases x <;> simp [Except.map]

theorem bind_eq_ok_iff {x : Except ε α} {f : α → Except ε β} {b : β} :
    (x >>= f) = .ok b ↔ ∃ a, x = .ok a ∧ f a = .ok b := by
  cases x <;> simp [bind, Except.bind]

theorem map_eq_error_iff {x : Except ε α} {f : α → β} {e : ε} : x.map f = .error e ↔ x = .error e := by
  cases x <;> simp [Except.map]

theorem bind_eq_error_iff {x : Except ε α} {f : α → Except ε β} {e : ε} :
    (x >>= f) = .error e ↔ x = .error e ∨ ∃ a, x = .ok a ∧ f a = .error e := by
  cases x <;> simp [bind, Except.bind]

/-- A computation that has a result succeeds. -/
theorem exists_eq_ok {x : Except ε α} (succeeds : x.toOption.isSome) : ∃ a, x = .ok a := by
  cases x with
  | ok a => exact ⟨a, rfl⟩
  | error e => simp [Except.toOption] at succeeds

/-- A computation without a result fails. -/
theorem exists_eq_error {x : Except ε α} (fails : ∀ a, x ≠ .ok a) : ∃ e, x = .error e := by
  cases x with
  | ok a => exact absurd rfl (fails a)
  | error e => exact ⟨e, rfl⟩

/-- A list of computations succeeds if each of them does. -/
theorem mapM_eq_ok_iff {f : α → Except ε β} {xs : List α} {ys : List β} :
    xs.mapM f = .ok ys ↔ List.Forall₂ (fun x y => f x = .ok y) xs ys := by
  induction xs generalizing ys with
  | nil => simp [pure, Except.pure, eq_comm]
  | cons x xs ih =>
    simp only [List.mapM_cons, bind_eq_ok_iff, pure, Except.pure, Except.ok.injEq, ih,
      List.forall₂_cons_left_iff]
    constructor
    · rintro ⟨y, computed, ys', others, rfl⟩
      exact ⟨y, ys', computed, others, rfl⟩
    · rintro ⟨y, ys', computed, others, rfl⟩
      exact ⟨y, computed, ys', others, rfl⟩

/-- Each result of a list of computations is that of the computation at its place. -/
theorem getElem?_of_mapM_eq_ok {f : α → Except ε β} {xs : List α} {ys : List β} (computed : xs.mapM f = .ok ys)
    {i : Nat} {x : α} (found : xs[i]? = some x) : ∃ y, ys[i]? = some y ∧ f x = .ok y := by
  have each := mapM_eq_ok_iff.mp computed
  clear computed
  induction each generalizing i with
  | nil => simp at found
  | @cons x' y xs ys first others ih =>
    cases i with
    | zero =>
      obtain rfl : x' = x := by simpa using found
      exact ⟨y, rfl, first⟩
    | succ i => simpa using ih (by simpa using found)

/-- The outcome of a sequence, its result apart, is that of its parts. -/
theorem outcome_bind {x : Except ε α} {f : α → Except ε β} {first next : Except ε Unit}
    (ofFirst : x.map (fun _ => ()) = first) (ofNext : ∀ a, x = .ok a → (f a).map (fun _ => ()) = next) :
    (x >>= f).map (fun _ => ()) = (first >>= fun _ => next) := by
  subst ofFirst
  cases computed : x with
  | error e => rfl
  | ok a => exact ofNext a computed

/-! ### Failure -/

/-- A computation fails, if at all, with an error of the given sort. -/
def FailsOnly (sort : ε → Prop) (x : Except ε α) : Prop := ∀ e, x = .error e → sort e

variable {sort : ε → Prop}

theorem failsOnly_bind {x : Except ε α} {f : α → Except ε β} (first : FailsOnly sort x)
    (next : ∀ a, x = .ok a → FailsOnly sort (f a)) : FailsOnly sort (x >>= f) := by
  intro e failed
  cases computed : x with
  | error cause =>
    rw [computed] at failed
    cases failed
    exact first _ computed
  | ok a => exact next a computed e (by simpa [computed, bind, Except.bind] using failed)

theorem failsOnly_mapM {f : α → Except ε β} {xs : List α} (each : ∀ x ∈ xs, FailsOnly sort (f x)) :
    FailsOnly sort (xs.mapM f) := by
  induction xs with
  | nil =>
    rintro e ⟨⟩
  | cons x xs ih =>
    rw [List.mapM_cons]
    refine failsOnly_bind (each x (.head xs)) fun y _ => ?_
    refine failsOnly_bind (ih fun x' member => each x' (.tail x member)) fun ys _ => ?_
    rintro e ⟨⟩

end AffineLoops
