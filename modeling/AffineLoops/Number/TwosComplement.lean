/-!
Integers as infinite strings of bits. A negative integer has infinitely many leading ones: the bits of
`-(n + 1)` are the bits of `n`, each flipped. The three bitwise operations are computed on the finite
magnitudes, and the complement by a subtraction; their main statements say that each acts bit by bit, and an
integer is determined by its bits.
-/

namespace AffineLoops.TwosComplement

/-- Bit `i` of the two's complement of an integer. -/
def bit (a : Int) (i : Nat) : Bool :=
  match a with
  | .ofNat n => n.testBit i
  | .negSucc n => !n.testBit i

/-- The bits of `m` that are not bits of `n`. -/
def without (m n : Nat) : Nat := m ^^^ (m &&& n)

theorem testBit_without (m n i : Nat) : (without m n).testBit i = (m.testBit i && !n.testBit i) := by
  cases h : m.testBit i <;> simp [without, Nat.testBit_xor, Nat.testBit_and, h]

/-- Bitwise conjunction. -/
def conj : Int → Int → Int
  | .ofNat m, .ofNat n => .ofNat (m &&& n)
  | .ofNat m, .negSucc n => .ofNat (without m n)
  | .negSucc m, .ofNat n => .ofNat (without n m)
  | .negSucc m, .negSucc n => .negSucc (m ||| n)

/-- Bitwise disjunction. -/
def disj : Int → Int → Int
  | .ofNat m, .ofNat n => .ofNat (m ||| n)
  | .ofNat m, .negSucc n => .negSucc (without n m)
  | .negSucc m, .ofNat n => .negSucc (without m n)
  | .negSucc m, .negSucc n => .negSucc (m &&& n)

/-- Bitwise exclusive disjunction. -/
def exclusive : Int → Int → Int
  | .ofNat m, .ofNat n => .ofNat (m ^^^ n)
  | .ofNat m, .negSucc n => .negSucc (m ^^^ n)
  | .negSucc m, .ofNat n => .negSucc (m ^^^ n)
  | .negSucc m, .negSucc n => .ofNat (m ^^^ n)

/-- Every bit flipped. -/
def complement (a : Int) : Int := -a - 1

/-- Multiplication by `2 ^ n`; zero is answered at once whatever the count. -/
def shiftLeft (a : Int) (n : Nat) : Int := if a = 0 then 0 else a * Int.pow 2 n

/-- Division by `2 ^ n`, rounding toward minus infinity. -/
def shiftRight (a : Int) (n : Nat) : Int := a >>> n

@[simp] theorem bit_conj (a b : Int) (i : Nat) : bit (conj a b) i = (bit a i && bit b i) := by
  cases a <;> cases b <;> simp [conj, bit, testBit_without, Bool.and_comm]

@[simp] theorem bit_disj (a b : Int) (i : Nat) : bit (disj a b) i = (bit a i || bit b i) := by
  cases a <;> cases b <;> simp [disj, bit, testBit_without, Bool.or_comm]

@[simp] theorem bit_exclusive (a b : Int) (i : Nat) :
    bit (exclusive a b) i = Bool.xor (bit a i) (bit b i) := by
  cases a <;> cases b <;> simp [exclusive, bit]

@[simp] theorem bit_complement (a : Int) (i : Nat) : bit (complement a) i = !bit a i := by
  cases a with
  | ofNat n =>
    have flipped : complement (.ofNat n) = .negSucc n := by
      rw [Int.negSucc_eq, Int.neg_add]
      rfl
    rw [flipped, bit, bit]
  | negSucc n =>
    have flipped : complement (.negSucc n) = .ofNat n := by
      rw [complement, Int.neg_negSucc]
      exact Int.add_sub_cancel n 1
    rw [flipped, bit, bit, Bool.not_not]

/-- No two integers have the same bits. -/
theorem bit_injective {a b : Int} (same : ∀ i, bit a i = bit b i) : a = b := by
  -- Far enough to the left, a natural number has zeros only and a negative one has ones only.
  have apart (m n : Nat) : bit (.ofNat m) (m + n) ≠ bit (.negSucc n) (m + n) := by
    have zero : m.testBit (m + n) = false :=
      Nat.testBit_lt_two_pow (Nat.lt_of_le_of_lt (Nat.le_add_right m n) Nat.lt_two_pow_self)
    have flipped : n.testBit (m + n) = false :=
      Nat.testBit_lt_two_pow (Nat.lt_of_le_of_lt (Nat.le_add_left n m) Nat.lt_two_pow_self)
    simp [bit, zero, flipped]
  cases a with
  | ofNat m =>
    cases b with
    | ofNat n => exact congrArg Int.ofNat (Nat.eq_of_testBit_eq same)
    | negSucc n => exact absurd (same _) (apart m n)
  | negSucc m =>
    cases b with
    | ofNat n => exact absurd (same _).symm (apart n m)
    | negSucc n => exact congrArg Int.negSucc (Nat.eq_of_testBit_eq fun i => Bool.not_inj (same i))

end AffineLoops.TwosComplement
