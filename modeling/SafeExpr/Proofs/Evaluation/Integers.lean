/-
  SafeExpr/Proofs/Evaluation/Integers.lean
  ========================================
  **Operators on integers are exact, or report that they cannot be.**

  `Denotes` says which whole number an operator stands for: floor division is the rational
  quotient rounded down, the remainder is what this leaves, shifts multiply by a power of two
  or divide by it, and the bit operators are those of numbers with infinitely many bits.
  `ExactOrReported` says what the language answers: this number if it has 64 bits, and a
  failure of arithmetic just if it has not.

  A machine gets there by other ways: it rounds to zero and corrects, shifts back to see
  whether bits were lost, and takes shortcuts for bases with small powers.
-/
import Mathlib.Data.Int.Bitwise
import Mathlib.Data.Rat.Floor
import SafeExpr.Proofs.Machine.Operators

namespace SafeExpr

/-! ### Bits of whole numbers -/

/-- A number is determined by its bits. -/
theorem int_eq_of_testBit_eq {m n : Int} (h : ∀ i, m.testBit i = n.testBit i) : m = n := by
  have hdiffer : ∀ a b : Nat, ¬ ∀ i, a.testBit i = !b.testBit i := by
    intro a b hbits
    -- far up, both numbers have zeros
    have hfar : max a b < 2 ^ max a b := Nat.lt_two_pow_self
    have ha := Nat.testBit_lt_two_pow (Nat.lt_of_le_of_lt (Nat.le_max_left a b) hfar)
    have hb := Nat.testBit_lt_two_pow (Nat.lt_of_le_of_lt (Nat.le_max_right a b) hfar)
    have hbit := hbits (max a b)
    rw [ha, hb] at hbit
    cases hbit
  cases m with
  | ofNat a =>
    cases n with
    | ofNat b => exact congrArg Int.ofNat (Nat.eq_of_testBit_eq h)
    | negSucc b => exact absurd h (hdiffer a b)
  | negSucc a =>
    cases n with
    | ofNat b => exact absurd (fun i => (h i).symm) (hdiffer b a)
    | negSucc b =>
      apply congrArg Int.negSucc
      apply Nat.eq_of_testBit_eq
      intro i
      exact Bool.not_inj (h i)

/-- Beyond its width a number repeats the bit of its sign. -/
theorem testBit_toInt {w : Nat} (x : BitVec w) (i : Nat) :
    x.toInt.testBit i = if i < w then x.getLsbD i else x.msb := by
  rw [BitVec.toInt_eq_msb_cond]
  cases hsign : x.msb with
  | false =>
    rw [if_neg Bool.false_ne_true]
    change x.toNat.testBit i = _
    rw [BitVec.testBit_toNat]
    split
    · rfl
    · next h => exact BitVec.getLsbD_of_ge x i (Nat.le_of_not_lt h)
  | true =>
    have hneg : (x.toNat : Int) - ((2 ^ w : Nat) : Int) = Int.negSucc (2 ^ w - (x.toNat + 1)) := by
      have := x.isLt
      omega
    rw [if_pos rfl, hneg]
    change (!(2 ^ w - (x.toNat + 1)).testBit i) = _
    rw [Nat.testBit_two_pow_sub_succ x.isLt, BitVec.testBit_toNat]
    split
    · next h => simp [h]
    · next h => simp [h]

/-- An operation on the bits, the last one included, is the operation on numbers that does
    the same to all bits. -/
theorem toInt_eq_of_bits {w : Nat} {f : Bool → Bool → Bool} {x y z : BitVec w} {n : Int}
    (hbits : ∀ i, z.getLsbD i = f (x.getLsbD i) (y.getLsbD i)) (hsign : z.msb = f x.msb y.msb)
    (hn : ∀ i, n.testBit i = f (x.toInt.testBit i) (y.toInt.testBit i)) : z.toInt = n := by
  apply int_eq_of_testBit_eq
  intro i
  rw [hn, testBit_toInt, testBit_toInt, testBit_toInt]
  split
  · exact hbits i
  · exact hsign

theorem toInt_and (a b : Int64) : (a &&& b).toInt = a.toInt.land b.toInt :=
  toInt_eq_of_bits (fun _ => BitVec.getLsbD_and) BitVec.msb_and (Int.testBit_land _ _)

theorem toInt_or (a b : Int64) : (a ||| b).toInt = a.toInt.lor b.toInt :=
  toInt_eq_of_bits (fun _ => BitVec.getLsbD_or) BitVec.msb_or (Int.testBit_lor _ _)

theorem toInt_xor (a b : Int64) : (a ^^^ b).toInt = a.toInt.xor b.toInt :=
  toInt_eq_of_bits (fun _ => BitVec.getLsbD_xor) BitVec.msb_xor (Int.testBit_lxor _ _)

theorem lnot_eq (n : Int) : n.lnot = -n - 1 := by
  cases n with
  | ofNat n =>
    rw [Int.lnot, Int.negSucc_eq, Int.ofNat_eq_natCast]
    omega
  | negSucc n =>
    rw [Int.lnot, Int.negSucc_eq]
    omega

/-- The complement of a number of 64 bits is one, too. -/
theorem toInt_not (a : Int64) : (~~~a).toInt = a.toInt.lnot := by
  have ha := Machine.holds_toInt a
  rw [Machine.IntType.holds_i64] at ha
  rw [lnot_eq, Int64.toInt_not]
  apply Machine.bmod_of_holds
  rw [Machine.IntType.holds_i64]
  omega

/-! ### Quotients rounded down -/

theorem floor_div (x y : Int) : ⌊(x / y : ℚ)⌋ = x.fdiv y := by
  rcases Int.le_total 0 y with hy | hy
  · obtain ⟨d, rfl⟩ := Int.eq_ofNat_of_zero_le hy
    rw [Int.cast_natCast, Rat.floor_intCast_div_natCast, Int.fdiv_eq_ediv_of_nonneg _ hy]
  · obtain ⟨d, hd⟩ := Int.eq_ofNat_of_zero_le (Int.neg_nonneg_of_nonpos hy)
    have hy' : y = -(d : Int) := by omega
    have hflip : (x / ((-(d : Int) : Int) : ℚ) : ℚ) = ((-x : Int) : ℚ) / (d : ℚ) := by
      push_cast
      rw [div_neg, neg_div]
    rw [hy', hflip, Rat.floor_intCast_div_natCast, ← Int.neg_fdiv_neg, Int.neg_neg,
      Int.fdiv_eq_ediv_of_nonneg _ (Int.natCast_nonneg d)]

theorem floor_div_two_pow (x : Int) (n : Nat) : ⌊(x / 2 ^ n : ℚ)⌋ = x >>> n := by
  have hpow : (2 ^ n : ℚ) = ((2 ^ n : Nat) : ℚ) := by rw [Nat.cast_pow, Nat.cast_ofNat]
  rw [hpow, Rat.floor_intCast_div_natCast, Int.shiftRight_eq_div_pow]

/-- A remainder that is not negative, if the divisor is positive; for a negative divisor it is
    the negation of such a one. -/
theorem fmod_bounds (x : Int) {y : Int} (hy : y ≠ 0) :
    (0 < y ∧ 0 ≤ x.fmod y ∧ x.fmod y < y) ∨ (y < 0 ∧ y < x.fmod y ∧ x.fmod y ≤ 0) := by
  rcases Int.lt_or_gt_of_ne hy with hneg | hpos
  · have hlow := Int.fmod_nonneg_of_pos (-x) (Int.neg_pos_of_neg hneg)
    have hhigh := Int.fmod_lt_of_pos (-x) (Int.neg_pos_of_neg hneg)
    rw [Int.neg_fmod_neg] at hlow hhigh
    omega
  · exact Or.inl ⟨hpos, Int.fmod_nonneg_of_pos x hpos, Int.fmod_lt_of_pos x hpos⟩

theorem fmod_sign (x : Int) {y : Int} (hy : y ≠ 0) : x.fmod y = 0 ∨ (x.fmod y).sign = y.sign := by
  by_cases hzero : x.fmod y = 0
  · exact Or.inl hzero
  · right
    rcases fmod_bounds x hy with ⟨hpos, hlow, -⟩ | ⟨hneg, -, hhigh⟩
    · rw [Int.sign_eq_one_of_pos hpos, Int.sign_eq_one_of_pos (by omega)]
    · rw [Int.sign_eq_neg_one_of_neg hneg, Int.sign_eq_neg_one_of_neg (by omega)]

theorem natAbs_fmod_lt (x : Int) {y : Int} (hy : y ≠ 0) : (x.fmod y).natAbs < y.natAbs := by
  have := fmod_bounds x hy
  omega

namespace Operators

/-! ### What the operators stand for -/

/-- The whole number that a binary operator stands for, where there is one. -/
inductive Denotes (x y : Int) : BinaryOp → Int → Prop
  | add : Denotes x y .add (x + y)
  | sub : Denotes x y .sub (x - y)
  | mul : Denotes x y .mul (x * y)
  | floorDiv (hy : y ≠ 0) : Denotes x y .floorDiv ⌊(x / y : ℚ)⌋
  | mod (hy : y ≠ 0) : Denotes x y .mod (x - y * ⌊(x / y : ℚ)⌋)
  | pow (hy : 0 ≤ y) : Denotes x y .pow (x ^ y.toNat)
  | shl (hy : 0 ≤ y) : Denotes x y .shl (x * 2 ^ y.toNat)
  | shr (hy : 0 ≤ y) : Denotes x y .shr ⌊(x / 2 ^ y.toNat : ℚ)⌋
  | bitAnd : Denotes x y .bitAnd (x.land y)
  | bitOr : Denotes x y .bitOr (x.lor y)
  | bitXor : Denotes x y .bitXor (x.xor y)

/-- The numbers of 64 bits. -/
def Fits (n : Int) : Prop := -2 ^ 63 ≤ n ∧ n < 2 ^ 63

/-- The answer is `n` if that has 64 bits, and a failure of arithmetic just if it has not. -/
structure ExactOrReported (r : Result) (n : Int) : Prop where
  exact : Fits n → ∃ c : Int64, c.toInt = n ∧ r = .ok (.int c)
  reported : (∃ fault, r = .error (.arithmetic fault)) ↔ ¬ Fits n

theorem fits_toInt (c : Int64) : Fits c.toInt := by
  have hc := Machine.holds_toInt c
  rw [Machine.IntType.holds_i64] at hc
  unfold Fits
  omega

theorem exactOrReported_of_int {c : Int64} {n : Int} (h : c.toInt = n) :
    ExactOrReported (.ok (.int c)) n := by
  subst h
  constructor
  · intro _
    exact ⟨c, rfl, rfl⟩
  · constructor
    · rintro ⟨fault, h⟩
      cases h
    · intro h
      exact absurd (fits_toInt c) h

theorem exactOrReported_overflow {n : Int} (h : ¬ Fits n) :
    ExactOrReported (.error overflow) n := by
  constructor
  · intro h'
    exact absurd h' h
  · constructor
    · intro _
      exact h
    · intro _
      exact ⟨.overflow, rfl⟩

/-- Whatever is computed exactly and then fitted into 64 bits is exact or reported. -/
theorem exactOrReported_exact (n : Int) : ExactOrReported (Operators.exact n) n := by
  rw [Operators.exact]
  cases h : fitInt64 n with
  | some c => exact exactOrReported_of_int (fitInt64_eq_some_iff.mp h)
  | none =>
    apply exactOrReported_overflow
    rw [fitInt64_eq_none_iff, Int64.toInt_minValue, Int64.toInt_maxValue] at h
    unfold Fits
    omega

/-- Numbers that do not fit are as good as one another. -/
theorem ExactOrReported.congr {r : Result} {m n : Int} (h : ExactOrReported r m)
    (hmn : m = n ∨ ¬ Fits m ∧ ¬ Fits n) : ExactOrReported r n := by
  rcases hmn with rfl | ⟨hm, hn⟩
  · exact h
  · constructor
    · intro h'
      exact absurd h' hn
    · rw [h.reported]
      exact iff_of_true hm hn

/-! ### Powers and shifts -/

theorem not_fits_of_natAbs {n : Int} (h : 2 ^ 64 ≤ n.natAbs) : ¬ Fits n := by
  unfold Fits
  omega

theorem two_pow_le {n : Nat} (hn : 64 ≤ n) : 2 ^ 64 ≤ 2 ^ n := Nat.pow_le_pow_right (by decide) hn

theorem not_fits_pow {x : Int} {n : Nat} (hx : 2 ≤ x.natAbs) (hn : 64 ≤ n) : ¬ Fits (x ^ n) := by
  apply not_fits_of_natAbs
  rw [Int.natAbs_pow]
  exact (two_pow_le hn).trans (Nat.pow_le_pow_left hx n)

theorem not_fits_mul_two_pow {x : Int} {n : Nat} (hx : x ≠ 0) (hn : 64 ≤ n) :
    ¬ Fits (x * 2 ^ n) := by
  apply not_fits_of_natAbs
  rw [Int.natAbs_mul, Int.natAbs_pow]
  exact (two_pow_le hn).trans (Nat.le_mul_of_pos_left _ (Int.natAbs_pos.mpr hx))

/-- The powers of these bases are those with the exponents zero, one and two. -/
theorem pow_small {x : Int} (hx : x = 0 ∨ x = 1 ∨ x = -1) (n : Nat) :
    x ^ (if n = 0 then 0 else 2 - n % 2) = x ^ n := by
  by_cases hn : n = 0
  · rw [if_pos hn, hn]
  · rw [if_neg hn]
    rcases hx with rfl | rfl | rfl
    · rw [zero_pow hn, zero_pow (by omega)]
    · rw [one_pow, one_pow]
    · rcases Nat.even_or_odd n with heven | hodd
      · rw [heven.neg_one_pow, Nat.even_iff.mp heven]
        rfl
      · rw [hodd.neg_one_pow, Nat.odd_iff.mp hodd]
        rfl

theorem exactOrReported_intPower (x : Int) (n : Nat) : ExactOrReported (intPower x n) (x ^ n) := by
  by_cases hsmall : x = 0 ∨ x = 1 ∨ x = -1
  · have hpower : intPower x n = Operators.exact (x ^ (if n = 0 then 0 else 2 - n % 2)) := by
      rw [intPower, if_pos (by simpa [or_assoc] using hsmall)]
      rfl
    rw [hpower, pow_small hsmall]
    exact exactOrReported_exact _
  · have hlarge : 2 ≤ x.natAbs := by omega
    have hcondition : ¬ (decide (x = 0) || decide (x = 1) || decide (x = -1)) = true := by
      simpa [or_assoc] using hsmall
    rw [intPower, if_neg hcondition]
    split
    · next hn => exact exactOrReported_overflow (not_fits_pow hlarge hn)
    · exact exactOrReported_exact _

/-- A shift to the left by more than 64 places is out of range as one by 64 is. -/
theorem exactOrReported_shl (x : Int) (n : Nat) :
    ExactOrReported (Operators.exact (x * Int.pow 2 (min n 64))) (x * 2 ^ n) := by
  apply (exactOrReported_exact _).congr
  change x * 2 ^ min n 64 = x * 2 ^ n ∨ ¬ Fits (x * 2 ^ min n 64) ∧ ¬ Fits (x * 2 ^ n)
  rcases Nat.le_total n 64 with hn | hn
  · left
    rw [Nat.min_eq_left hn]
  · rw [Nat.min_eq_right hn]
    by_cases hx : x = 0
    · left
      rw [hx, zero_mul, zero_mul]
    · right
      exact ⟨not_fits_mul_two_pow hx (Nat.le_refl 64), not_fits_mul_two_pow hx hn⟩

/-- A shift to the right by 64 places or more leaves the sign. -/
theorem shiftRight_of_le {x : Int} (hx : Machine.IntType.i64.Holds x) {n : Nat} (hn : 64 ≤ n) :
    x >>> n = x >>> (64 : Nat) := by
  obtain ⟨k, rfl⟩ := Nat.exists_eq_add_of_le hn
  rw [Int.shiftRight_add, Machine.shiftRight_64 hx]
  split
  · exact congrArg Int.negSucc (Nat.zero_shiftRight k)
  · exact Int.zero_shiftRight k

theorem exactOrReported_shr {x : Int} (hx : Machine.IntType.i64.Holds x) (n : Nat) :
    ExactOrReported (Operators.exact (x >>> min n 64)) ⌊(x / 2 ^ n : ℚ)⌋ := by
  have hshift : x >>> min n 64 = ⌊(x / 2 ^ n : ℚ)⌋ := by
    rw [floor_div_two_pow]
    rcases Nat.le_total n 64 with hn | hn
    · rw [Nat.min_eq_left hn]
    · rw [Nat.min_eq_right hn, shiftRight_of_le hx hn]
  rw [hshift]
  exact exactOrReported_exact _

/-! ### The operators -/

section Operands

variable {a b : Int64}

/-- On integers a machine never runs out of memory. -/
theorem machine_binary (a b : Int64) (op : BinaryOp) :
    Machine.binary op (.int a) (.int b) = .ok (binary op (.int a) (.int b)) := by
  have hnumeric := Machine.numeric_eq op (.int a) (.int b)
  cases op with
  | mul => exact Machine.times_eq (.int a) (.int b)
  | _ => exact hnumeric

theorem binary_denotes {op : BinaryOp} {n : Int} (h : Denotes a.toInt b.toInt op n) :
    ExactOrReported (binary op (.int a) (.int b)) n := by
  have hzero : b.toInt ≠ 0 → b ≠ 0 := fun h h' => h (by rw [h', Int64.toInt_zero])
  have hnegative : 0 ≤ b.toInt → ¬ b < 0 := by
    intro h h'
    rw [Int64.lt_iff_toInt_lt, Int64.toInt_zero] at h'
    omega
  cases h with
  | add => exact exactOrReported_exact _
  | sub => exact exactOrReported_exact _
  | mul => exact exactOrReported_exact _
  | floorDiv hb =>
    have hdiv : binary .floorDiv (.int a) (.int b) = Operators.exact (a.toInt.fdiv b.toInt) :=
      if_neg (hzero hb)
    rw [hdiv, floor_div]
    exact exactOrReported_exact _
  | mod hb =>
    have hmod : binary .mod (.int a) (.int b) = Operators.exact (a.toInt.fmod b.toInt) :=
      if_neg (hzero hb)
    rw [hmod, floor_div, ← Int.fmod_def]
    exact exactOrReported_exact _
  | pow hb =>
    have hpow : binary .pow (.int a) (.int b) = intPower a.toInt b.toInt.toNat :=
      if_neg (hnegative hb)
    rw [hpow]
    exact exactOrReported_intPower _ _
  | shl hb =>
    have hshl : binary .shl (.int a) (.int b) =
        Operators.exact (a.toInt * Int.pow 2 (min b.toInt.toNat 64)) := if_neg (hnegative hb)
    rw [hshl]
    exact exactOrReported_shl _ _
  | shr hb =>
    have hshr : binary .shr (.int a) (.int b) =
        Operators.exact (a.toInt >>> min b.toInt.toNat 64) := if_neg (hnegative hb)
    rw [hshr]
    exact exactOrReported_shr (Machine.holds_toInt a) _
  | bitAnd => exact exactOrReported_of_int (toInt_and a b)
  | bitOr => exact exactOrReported_of_int (toInt_or a b)
  | bitXor => exact exactOrReported_of_int (toInt_xor a b)

/-- There is no quotient by zero, and no shift by a negative number of places. -/
theorem binary_undefined :
    (b = 0 → binary .floorDiv (.int a) (.int b) = .error .divisionByZero ∧
      binary .mod (.int a) (.int b) = .error .divisionByZero) ∧
    (b < 0 → binary .shl (.int a) (.int b) = .error (.arithmetic .negativeShift) ∧
      binary .shr (.int a) (.int b) = .error (.arithmetic .negativeShift)) :=
  ⟨fun h => ⟨if_pos h, if_pos h⟩, fun h => ⟨if_pos h, if_pos h⟩⟩

theorem ExactOrReported.eq_of_ok {r : Result} {c : Int64} {n : Int} (h : ExactOrReported r n)
    (hr : r = .ok (.int c)) : c.toInt = n := by
  subst hr
  have hfits : Fits n := by
    by_contra hfits
    obtain ⟨fault, hfault⟩ := h.reported.mpr hfits
    cases hfault
  obtain ⟨c', hc', hok⟩ := h.exact hfits
  cases hok
  exact hc'

/-- **Quotient and remainder belong together.** -/
theorem floorDiv_mod {q r : Int64} (hq : binary .floorDiv (.int a) (.int b) = .ok (.int q))
    (hr : binary .mod (.int a) (.int b) = .ok (.int r)) :
    a.toInt = b.toInt * q.toInt + r.toInt ∧ (r.toInt = 0 ∨ r.toInt.sign = b.toInt.sign) ∧
      r.toInt.natAbs < b.toInt.natAbs := by
  have hb : b.toInt ≠ 0 := by
    intro h
    have hzero : b = 0 := Int64.toInt_inj.mp h
    rw [(binary_undefined.1 hzero).1] at hq
    cases hq
  have hquotient := (binary_denotes (.floorDiv hb)).eq_of_ok hq
  have hremainder := (binary_denotes (.mod hb)).eq_of_ok hr
  rw [floor_div] at hquotient hremainder
  rw [← Int.fmod_def] at hremainder
  refine ⟨?_, ?_, ?_⟩
  · rw [hquotient, hremainder]
    exact (Int.mul_fdiv_add_fmod a.toInt b.toInt).symm
  · rw [hremainder]
    exact fmod_sign a.toInt hb
  · rw [hremainder]
    exact natAbs_fmod_lt a.toInt hb

end Operands

/-- **Integer operators are exact, or report that they cannot be.**  A machine comes to the
    answers of the language.  Where an operator stands for a whole number the answer is this
    number, if it has 64 bits, and a failure of arithmetic just if it has not; a quotient by
    zero and a shift by a negative number of places are failures of their own.  Quotient and
    remainder, where there are both, are those of floor division. -/
theorem integers_exact_or_reported (a b : Int64) :
    (∀ op, Machine.binary op (.int a) (.int b) = .ok (binary op (.int a) (.int b))) ∧
    (∀ op n, Denotes a.toInt b.toInt op n →
      ExactOrReported (binary op (.int a) (.int b)) n) ∧
    ExactOrReported (unary .neg (.int a)) (-a.toInt) ∧
    ExactOrReported (unary .invert (.int a)) a.toInt.lnot ∧
    (b = 0 → binary .floorDiv (.int a) (.int b) = .error .divisionByZero ∧
      binary .mod (.int a) (.int b) = .error .divisionByZero) ∧
    (b < 0 → binary .shl (.int a) (.int b) = .error (.arithmetic .negativeShift) ∧
      binary .shr (.int a) (.int b) = .error (.arithmetic .negativeShift)) ∧
    ∀ q r : Int64, binary .floorDiv (.int a) (.int b) = .ok (.int q) →
      binary .mod (.int a) (.int b) = .ok (.int r) →
      a.toInt = b.toInt * q.toInt + r.toInt ∧ (r.toInt = 0 ∨ r.toInt.sign = b.toInt.sign) ∧
        r.toInt.natAbs < b.toInt.natAbs := by
  refine ⟨machine_binary a b, ?_, ?_, ?_, binary_undefined.1, binary_undefined.2, ?_⟩
  · exact fun op n h => binary_denotes h
  · exact exactOrReported_exact _
  · exact exactOrReported_of_int (toInt_not a)
  · exact fun q r hq hr => floorDiv_mod hq hr

/-- The one quotient that is too large, a power that is just not, division of a negative number
    by a positive one, and what has no result. -/
theorem integers_exact_or_reported_edges :
    (∃ fault, binary .floorDiv (.int Int64.minValue) (.int (-1)) = .error (.arithmetic fault)) ∧
    (∃ c : Int64, c.toInt = (-2) ^ 63 ∧ binary .pow (.int (-2)) (.int 63) = .ok (.int c)) ∧
    (binary .floorDiv (.int (-7)) (.int 2) = .ok (.int (-4)) ∧
      binary .mod (.int (-7)) (.int 2) = .ok (.int 1) ∧
      Int64.toInt (-7) = Int64.toInt 2 * Int64.toInt (-4) + Int64.toInt 1) ∧
    binary .mod (.int 5) (.int 0) = .error .divisionByZero ∧
    binary .shl (.int 5) (.int (-1)) = .error (.arithmetic .negativeShift) := by
  refine ⟨?_, ?_, ?_, ?_, ?_⟩
  · obtain ⟨-, hdenotes, -⟩ := integers_exact_or_reported Int64.minValue (-1)
    refine (hdenotes .floorDiv _ (.floorDiv (by decide))).reported.mpr ?_
    rw [floor_div]
    unfold Fits
    decide
  · obtain ⟨-, hdenotes, -⟩ := integers_exact_or_reported (-2) 63
    refine (hdenotes .pow _ (.pow (by decide))).exact ?_
    unfold Fits
    decide
  · obtain ⟨-, -, -, -, -, -, htogether⟩ := integers_exact_or_reported (-7) 2
    exact ⟨rfl, rfl, (htogether (-4) 1 rfl rfl).1⟩
  · obtain ⟨-, -, -, -, hzero, -⟩ := integers_exact_or_reported 5 0
    exact (hzero rfl).2
  · obtain ⟨-, -, -, -, -, hnegative, -⟩ := integers_exact_or_reported 5 (-1)
    exact (hnegative (by decide)).1

end Operators

end SafeExpr
