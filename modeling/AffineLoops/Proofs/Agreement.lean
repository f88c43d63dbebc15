import AffineLoops.Frame
import AffineLoops.Value.Arithmetic

/-!
Values and frames up to the coercion between truth values and integers. The `reading` of a value is the
number that arithmetic works with; two values agree when their readings are equal, and two frames agree
when they define the same names, with agreeing values.

* `reading_eq_iff`: values agree exactly if they are equal or read as one integer.
* `unary_congr`, `binary_congr`: arithmetic cannot tell agreeing operands apart.
* `Frame.Agree.load?`, `Frame.Agree.store`: nor can loads and stores.

Two variables may share storage. The `cell?` of a variable is the storage that a store to it fills, and
`cell?_store` says which cells a store changes.
-/

namespace AffineLoops

namespace Value

/-- The number that arithmetic works with. -/
def reading : Value → Int ⊕ Float
  | .int n => .inl n
  | .bool b => .inl (ofBool b)
  | .float x => .inr x

@[simp] theorem reading_int (n : Int) : (Value.int n).reading = .inl n := rfl

theorem reading_eq_inl_iff {a : Value} {n : Int} : a.reading = .inl n ↔ a.asInt? = some n := by
  cases a <;> simp [reading, asInt?]

/-- Values agree if they are equal, or one integer is read from both. -/
theorem reading_eq_iff {a b : Value} :
    a.reading = b.reading ↔ a = b ∨ ∃ n, a.asInt? = some n ∧ b.asInt? = some n := by
  constructor
  · intro same
    cases read : a.reading with
    | inl n =>
      exact .inr ⟨n, reading_eq_inl_iff.mp read, reading_eq_inl_iff.mp (same ▸ read)⟩
    | inr x =>
      cases a <;> cases b <;> simp_all [reading]
  · rintro (rfl | ⟨n, ha, hb⟩)
    · rfl
    · rw [reading_eq_inl_iff.mpr ha, reading_eq_inl_iff.mpr hb]

theorem asInt?_congr {a b : Value} (same : a.reading = b.reading) : a.asInt? = b.asInt? := by
  cases a <;> cases b <;> simp_all [reading, asInt?]

theorem asFloat_congr {a b : Value} (same : a.reading = b.reading) : a.asFloat = b.asFloat := by
  cases a <;> cases b <;> simp_all [reading, asFloat]

/-- Agreeing operands have the same result, or fail alike. -/
theorem unary_congr {a b : Value} (same : a.reading = b.reading) (op : UnaryOp) :
    a.unary op = b.unary op := by
  cases a <;> cases b <;> simp_all [reading, unary]

theorem binary_congr {a a' b b' : Value} (left : a.reading = a'.reading) (right : b.reading = b'.reading)
    (op : BinaryOp) : a.binary op b = a'.binary op b' := by
  rw [binary, asInt?_congr left, asInt?_congr right, asFloat_congr left, asFloat_congr right, ← binary]

/-- A plus sign may turn a truth value into its integer, and nothing else. -/
theorem reading_positive {a value : Value} (computed : a.unary .positive = .ok value) :
    value.reading = a.reading := by
  cases a <;> simp_all [unary, intUnary, floatUnary, reading] <;> subst computed <;> rfl

theorem toInt_eq_ok_iff {a : Value} {n : Int} : a.toInt = .ok n ↔ a.reading = .inl n := by
  cases a <;> simp [toInt, reading]

end Value

/-! ### Cells -/

namespace Variable

/-- One storage seen through two variables. -/
def SharesCell (u v : Variable) : Prop := u.name = v.name ∧ (u.scope = .global ↔ v.scope = .global)

instance (u v : Variable) : Decidable (u.SharesCell v) := inferInstanceAs (Decidable (_ ∧ _))

theorem SharesCell.refl (v : Variable) : v.SharesCell v := ⟨rfl, Iff.rfl⟩

end Variable

namespace Frame

/-- The storage that a store to a variable fills. -/
def cell? (frame : Frame) (v : Variable) : Option Value :=
  match v.scope with
  | .global => frame.global? v.name
  | .name | .fast | .deref => frame.local? v.name

theorem cell?_congr (frame : Frame) {u v : Variable} (shared : u.SharesCell v) :
    frame.cell? u = frame.cell? v := by
  obtain ⟨name, scopes⟩ := shared
  rcases u with ⟨_ | _ | _ | _, _⟩ <;> rcases v with ⟨_ | _ | _ | _, _⟩ <;> simp_all [cell?]

/-- A store fills the cell of its variable and no other. -/
theorem cell?_store (frame : Frame) (v : Variable) (value : Value) (u : Variable) :
    (frame.store v value).cell? u = if u.SharesCell v then some value else frame.cell? u := by
  rcases u with ⟨_ | _ | _ | _, uname⟩ <;> rcases v with ⟨_ | _ | _ | _, vname⟩ <;>
    simp [cell?, store, local?, global?, Variable.SharesCell, Std.ExtTreeMap.getElem?_insert,
      eq_comm (a := vname)]

theorem cell?_store_self (frame : Frame) (v : Variable) (value : Value) :
    (frame.store v value).cell? v = some value := by
  rw [cell?_store, if_pos (.refl v)]

/-- A plain name falls back on the globals only while no local has it. -/
theorem load?_of_cell? {frame : Frame} {v : Variable} {value : Value}
    (filled : frame.cell? v = some value) : frame.load? v = some value := by
  rcases v with ⟨_ | _ | _ | _, _⟩ <;> simp_all [cell?, load?]

theorem load?_store_self (frame : Frame) (v : Variable) (value : Value) :
    (frame.store v value).load? v = some value :=
  load?_of_cell? (cell?_store_self frame v value)

theorem load?_store_of_name_ne (frame : Frame) {u v : Variable} (names : u.name ≠ v.name) (value : Value) :
    (frame.store v value).load? u = frame.load? u := by
  rcases u with ⟨_ | _ | _ | _, uname⟩ <;> rcases v with ⟨_ | _ | _ | _, vname⟩ <;>
    simp_all [load?, store, local?, global?, Std.ExtTreeMap.getElem?_insert, eq_comm (a := vname)]

/-- No store takes a value away from a variable. -/
theorem load?_store_isSome {frame : Frame} {u : Variable} (defined : (frame.load? u).isSome) (v : Variable)
    (value : Value) : ((frame.store v value).load? u).isSome := by
  by_cases names : u.name = v.name
  · rcases u with ⟨_ | _ | _ | _, uname⟩ <;> rcases v with ⟨_ | _ | _ | _, vname⟩ <;>
      simp_all [load?, store, local?, global?]
  · rwa [load?_store_of_name_ne frame names]

/-- A frame is what its cells hold. -/
theorem ext_cell? {A B : Frame} (cells : ∀ v, A.cell? v = B.cell? v) : A = B := by
  have locals : A.locals = B.locals :=
    Std.ExtTreeMap.ext_getElem? fun name => cells ⟨.fast, name⟩
  have globals : A.globals = B.globals :=
    Std.ExtTreeMap.ext_getElem? fun name => cells ⟨.global, name⟩
  rcases A with ⟨_, _⟩
  rcases B with ⟨_, _⟩
  simp_all

/-! ### Agreement -/

/-- The same names are defined, and the two values of each agree. -/
structure Agree (A B : Frame) : Prop where
  locals : ∀ name, (A.local? name).map Value.reading = (B.local? name).map Value.reading
  globals : ∀ name, (A.global? name).map Value.reading = (B.global? name).map Value.reading

theorem agree_iff_cell? {A B : Frame} :
    A.Agree B ↔ ∀ v, (A.cell? v).map Value.reading = (B.cell? v).map Value.reading := by
  constructor
  · rintro ⟨locals, globals⟩ ⟨_ | _ | _ | _, name⟩
    · exact locals name
    · exact globals name
    · exact locals name
    · exact locals name
  · intro cells
    exact ⟨fun name => cells ⟨.fast, name⟩, fun name => cells ⟨.global, name⟩⟩

namespace Agree

variable {A B C : Frame}

theorem refl (A : Frame) : A.Agree A := ⟨fun _ => rfl, fun _ => rfl⟩

theorem symm (agree : A.Agree B) : B.Agree A :=
  ⟨fun name => (agree.locals name).symm, fun name => (agree.globals name).symm⟩

theorem trans (left : A.Agree B) (right : B.Agree C) : A.Agree C :=
  ⟨fun name => (left.locals name).trans (right.locals name),
    fun name => (left.globals name).trans (right.globals name)⟩

theorem load? (agree : A.Agree B) (v : Variable) :
    (A.load? v).map Value.reading = (B.load? v).map Value.reading := by
  rcases v with ⟨_ | _ | _ | _, name⟩
  · have locals := agree.locals name
    have globals := agree.globals name
    simp only [Frame.load?]
    cases hA : A.local? name <;> cases hB : B.local? name <;> simp_all
  · exact agree.globals name
  · exact agree.locals name
  · exact agree.locals name

theorem store (agree : A.Agree B) (v : Variable) {a b : Value} (same : a.reading = b.reading) :
    (A.store v a).Agree (B.store v b) := by
  rw [agree_iff_cell?] at agree ⊢
  intro u
  rw [cell?_store, cell?_store]
  split
  · simp [same]
  · exact agree u

end Agree

end Frame

end AffineLoops
