import AffineLoops.Proofs.Agreement
import AffineLoops.Proofs.DoubleZeros
import AffineLoops.Proofs.FloorDivision
import AffineLoops.Proofs.Outcomes
import Mathlib.Data.Int.Bitwise

/-!
Laws of the operations on integers and truth values. Every operation is computed in its own way and guards its second
operand itself; the laws say what the operations have to do with each other, and with the bits of their operands.

* `Spells`: an integer and the infinite string of bits that no other integer has.
* `shifts_of_power`: where two has a power, the shifts are the product and the quotient by it.
* `floatDivide_eq_error_iff`: true division by an integer refuses what the other divisions do.
* `intBinary_eq_error_iff`: the operands that an operation refuses are those of the table `BinaryOp.Refuses`.
-/

namespace AffineLoops

/-! ### Bits -/

namespace TwosComplement

theorem testBit_eq_bit (a : Int) (i : Nat) : a.testBit i = bit a i := by
  cases a <;> rfl

/-- `c` is the one integer whose two's complement is the string `bits`, lowest bit first. -/
def Spells (bits : Nat → Bool) (c : Int) : Prop := ∀ d : Int, (∀ i, d.testBit i = bits i) ↔ d = c

theorem spells_of_bit {bits : Nat → Bool} {c : Int} (agree : ∀ i, bit c i = bits i) : Spells bits c := by
  intro d
  simp only [testBit_eq_bit]
  constructor
  · intro others
    exact bit_injective fun i => (others i).trans (agree i).symm
  · rintro rfl
    exact agree

end TwosComplement

/-! ### Refused operands -/

/-- The second operands that an operation on integers refuses, each with the failure that it leads to. Among the
divisions is the true one, although its result is a double. -/
def BinaryOp.Refuses : BinaryOp → Int → ArithmeticError → Prop
  | .divide, n, e | .floorDivide, n, e | .modulo, n, e | .trueDivide, n, e => n = 0 ∧ e = .divisionByZero
  | .power, n, e => n < 0 ∧ e = .negativeExponent n ∨ 2 ^ 32 ≤ n ∧ e = .exponentTooLarge n
  | .shiftLeft, n, e | .shiftRight, n, e => n < 0 ∧ e = .negativeShift n ∨ 2 ^ 64 ≤ n ∧ e = .shiftTooLarge n
  | .multiply, _, _ | .add, _, _ | .subtract, _, _ | .bitAnd, _, _ | .bitXor, _, _ | .bitOr, _, _ => False

namespace Value

/-- A number as a count below a limit, which is what exponents and shift counts are. -/
def bounded (negative large : ArithmeticError) (limit n : Int) : Except ArithmeticError Nat :=
  if n < 0 then .error negative else if limit ≤ n then .error large else .ok n.toNat

theorem exponent_eq_bounded (n : Int) :
    exponent n = bounded (.negativeExponent n) (.exponentTooLarge n) (2 ^ 32) n := rfl

theorem shiftCount_eq_bounded (n : Int) :
    shiftCount n = bounded (.negativeShift n) (.shiftTooLarge n) (2 ^ 64) n := rfl

section Bounded

variable {negative large e : ArithmeticError} {limit n : Int} {count : Nat}

theorem bounded_eq_error_iff (positive : 0 < limit) :
    bounded negative large limit n = .error e ↔ n < 0 ∧ e = negative ∨ limit ≤ n ∧ e = large := by
  unfold bounded
  split
  · rename_i below
    have inside : ¬limit ≤ n := by omega
    simp [below, inside, eq_comm]
  · rename_i nonneg
    split <;> simp_all [eq_comm]

theorem bounded_eq_ok_iff :
    bounded negative large limit n = .ok count ↔ 0 ≤ n ∧ n < limit ∧ n.toNat = count := by
  unfold bounded
  split
  · simp only [reduceCtorEq, false_iff]
    omega
  · split
    · simp only [reduceCtorEq, false_iff]
      omega
    · simp only [Except.ok.injEq]
      omega

end Bounded

theorem divisor_eq_error_iff {n : Int} {e : ArithmeticError} :
    divisor n = .error e ↔ n = 0 ∧ e = .divisionByZero := by
  unfold divisor
  split <;> simp_all [eq_comm]

theorem floatDivide_eq_error_iff {x : Float} {n : Int} {e : ArithmeticError} :
    floatDivide x (Binary64.ofInt n) = .error e ↔ n = 0 ∧ e = .divisionByZero := by
  rw [← Binary64.ofInt_beq_zero_iff n]
  by_cases zero : (Binary64.ofInt n == 0.0) = true
  · rw [floatDivide, if_pos zero, Except.error.injEq]
    exact ⟨fun same => ⟨zero, same.symm⟩, fun refused => refused.2.symm⟩
  · rw [floatDivide, if_neg zero]
    exact ⟨nofun, fun refused => absurd refused.1 zero⟩

/-- An operation on integers fails at the operands that it refuses, and there as the table says. -/
theorem intBinary_eq_error_iff (op : BinaryOp) {m n : Int} {e : ArithmeticError} :
    intBinary op m n = .error e ↔ op.Refuses n e := by
  cases op with
  | divide | floorDivide | modulo => exact map_eq_error_iff.trans divisor_eq_error_iff
  | trueDivide => exact floatDivide_eq_error_iff
  | power | shiftLeft | shiftRight => exact map_eq_error_iff.trans (bounded_eq_error_iff (by decide))
  | multiply | add | subtract | bitAnd | bitXor | bitOr => exact ⟨nofun, False.elim⟩

/-! ### Laws -/

open TwosComplement FloorDivision

/-- A power of two is exact, and its exponent is a shift count too. -/
theorem shifts_of_power {n : Int} {p : Value} (defined : intBinary .power 2 n = .ok p) (m : Int) :
    p = .int (2 ^ n.toNat) ∧
      intBinary .shiftLeft m n = .ok (.int (m * 2 ^ n.toNat)) ∧
      intBinary .shiftRight m n = .ok (.int (m.fdiv (2 ^ n.toNat))) := by
  obtain ⟨count, taken, rfl⟩ := map_eq_ok_iff.mp defined
  obtain ⟨nonneg, small, rfl⟩ := bounded_eq_ok_iff.mp (exponent_eq_bounded n ▸ taken)
  have shift : shiftCount n = .ok n.toNat := by
    rw [shiftCount_eq_bounded, bounded_eq_ok_iff]
    omega
  refine ⟨rfl, ?_, ?_⟩
  · rw [intBinary, shift, ← shiftLeft_eq_mul]
    rfl
  · rw [intBinary, shift, ← shiftRight_eq_fdiv]
    rfl

theorem divisions_of_ne {n : Int} (nonzero : n ≠ 0) (m : Int) :
    intBinary .divide m n = .ok (.int (m.fdiv n)) ∧ intBinary .floorDivide m n = .ok (.int (m.fdiv n)) ∧
      intBinary .modulo m n = .ok (.int (m.fmod n)) := by
  have taken : divisor n = .ok n := if_neg nonzero
  simp only [intBinary, taken, Except.map, and_self]

section Readings

variable {a b : Value} {m n : Int}

theorem unary_of_toInt (left : a.toInt = .ok m) (op : UnaryOp) : a.unary op = .ok (intUnary op m) := by
  cases a with
  | int | bool =>
    cases left
    rfl
  | float => cases left

theorem binary_of_toInt (left : a.toInt = .ok m) (right : b.toInt = .ok n) (op : BinaryOp) :
    a.binary op b = intBinary op m n := by
  have first := reading_eq_inl_iff.mp (toInt_eq_ok_iff.mp left)
  have second := reading_eq_inl_iff.mp (toInt_eq_ok_iff.mp right)
  simp only [binary, first, second]

/-- The operations on values that read as integers. The bitwise ones act on each bit of the infinite two's complement
apart, and no other integer has the bits of the result. Where two has a power with the second operand as the exponent,
shifting by that operand multiplies by the power or divides by it. Quotient and remainder of a division other than by
zero make up the dividend, and the remainder is zero or on the divisor's side of it, and nearer. The failures are
those of the table of refusals, and no others. -/
theorem integer_operations_lawful (left : a.toInt = .ok m) (right : b.toInt = .ok n) :
    (∃ c, a.binary .bitAnd b = .ok (.int c) ∧ Spells (fun i => m.testBit i && n.testBit i) c) ∧
      (∃ c, a.binary .bitOr b = .ok (.int c) ∧ Spells (fun i => m.testBit i || n.testBit i) c) ∧
      (∃ c, a.binary .bitXor b = .ok (.int c) ∧ Spells (fun i => Bool.xor (m.testBit i) (n.testBit i)) c) ∧
      (∃ c, a.unary .invert = .ok (.int c) ∧ Spells (fun i => !m.testBit i) c) ∧
      (∀ p, (Value.int 2).binary .power b = .ok p →
        p = .int (2 ^ n.toNat) ∧
        a.binary .shiftLeft b = a.binary .multiply p ∧ a.binary .multiply p = .ok (.int (m * 2 ^ n.toNat)) ∧
        a.binary .shiftRight b = a.binary .floorDivide p) ∧
      (n ≠ 0 → ∃ q r, a.binary .divide b = .ok (.int q) ∧ a.binary .floorDivide b = .ok (.int q) ∧
        a.binary .modulo b = .ok (.int r) ∧ m = q * n + r ∧ |r| < |n| ∧ (r = 0 ∨ r.sign = n.sign)) ∧
      (∀ op e, a.binary op b = .error e ↔ op.Refuses n e) ∧
      ∀ op e, a.unary op ≠ .error e := by
  have computed := binary_of_toInt left right
  simp only [testBit_eq_bit]
  refine ⟨?_, ?_, ?_, ?_, ?_, ?_, ?_, ?_⟩
  · exact ⟨_, computed _, spells_of_bit (bit_conj m n)⟩
  · exact ⟨_, computed _, spells_of_bit (bit_disj m n)⟩
  · exact ⟨_, computed _, spells_of_bit (bit_exclusive m n)⟩
  · exact ⟨_, unary_of_toInt left _, spells_of_bit (bit_complement m)⟩
  · intro p defined
    rw [binary_of_toInt rfl right] at defined
    obtain ⟨rfl, shiftedLeft, shiftedRight⟩ := shifts_of_power defined m
    have product : a.binary .multiply (.int (2 ^ n.toNat)) = .ok (.int (m * 2 ^ n.toNat)) :=
      binary_of_toInt left rfl _
    obtain ⟨-, quotient, -⟩ := divisions_of_ne (pow_ne_zero n.toNat (by decide : (2 : Int) ≠ 0)) m
    refine ⟨rfl, ?_, product, ?_⟩
    · rw [computed, shiftedLeft, product]
    · rw [computed, shiftedRight, binary_of_toInt left rfl, quotient]
  · intro nonzero
    obtain ⟨divided, floored, rest⟩ := divisions_of_ne nonzero m
    simp only [computed]
    exact ⟨_, _, divided, floored, rest, fdiv_fmod nonzero m⟩
  · intro op e
    rw [computed]
    exact intBinary_eq_error_iff op
  · intro op e
    rw [unary_of_toInt left]
    exact nofun

end Readings

/-- Of one divided by minus four, the laws alone give the quotient and the remainder. -/
theorem mixed_operations_lawful :
    (Value.int (-7)).binary .bitAnd (.int 3) = .ok (.int 1) ∧
      (Value.int (-7)).binary .shiftRight (.int 3) = (Value.int (-7)).binary .floorDivide (.int 8) ∧
      (Value.bool true).toInt = .ok 1 ∧
      (Value.bool true).binary .floorDivide (.int (-4)) = .ok (.int (-1)) ∧
      (Value.bool true).binary .modulo (.int (-4)) = .ok (.int (-3)) ∧
      (Value.bool true).binary .shiftLeft (.int (-4)) = .error (.negativeShift (-4)) ∧
      (Value.int 0).binary .power (.int (2 ^ 32)) = .error (.exponentTooLarge (2 ^ 32)) := by
  obtain ⟨⟨c, conjunction, spells⟩, -, -, -, shifts, -⟩ :=
    integer_operations_lawful (a := .int (-7)) (b := .int 3) rfl rfl
  obtain rfl : 1 = c := by
    refine (spells 1).mp fun i => ?_
    simp only [testBit_eq_bit]
    exact bit_conj (-7) 3 i
  obtain ⟨-, -, -, shifted⟩ := shifts (.int 8) rfl
  have reading : (Value.bool true).toInt = .ok 1 := rfl
  obtain ⟨-, -, -, -, -, division, refusals, -⟩ := integer_operations_lawful (b := .int (-4)) reading rfl
  obtain ⟨q, r, -, quotient, remainder, whole, small, side⟩ := division (by decide)
  have four : |(-4 : Int)| = 4 := rfl
  have near := abs_lt.mp small
  have below : r = 0 ∨ r < 0 := side.imp_right Int.sign_eq_neg_one_iff_neg.mp
  obtain rfl : q = -1 := by omega
  obtain rfl : r = -3 := by omega
  obtain ⟨-, -, -, -, -, -, powers, -⟩ :=
    integer_operations_lawful (a := .int 0) (b := .int (2 ^ 32)) rfl rfl
  exact ⟨conjunction, shifted, reading, quotient, remainder, (refusals _ _).mpr (.inl ⟨by decide, rfl⟩),
    (powers _ _).mpr (.inr ⟨by decide, rfl⟩)⟩

end Value

end AffineLoops
