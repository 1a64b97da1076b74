/-
  SafeExpr/Proofs/Machine/Operators.lean
  ======================================
  **The operators on a machine.**

  `binary` sends each pair of operands to the function for their types, so the functions
  behind it meet only operators of their own; they take the others to be impossible.  The
  integer operations bring their operands into range before they use an operation that
  panics: a negative or large shift is refused first, a zero divisor too, and a quotient
  that does not fit before its remainder is taken.
-/
import SafeExpr.Evaluation.Operators
import SafeExpr.Proofs.Machine.Basic

namespace SafeExpr.Machine

open IntType (i64 shiftLeft shiftRight holds_i64)
open Operators (Result overflow isBitOperator isSetOperator)

/-! ### Integers of the language -/

theorem holds_toInt (a : Int64) : i64.Holds a.toInt := by
  have hmin := a.minValue_le_toInt
  have hmax := a.toInt_le
  rw [Int64.toInt_minValue] at hmin
  rw [Int64.toInt_maxValue] at hmax
  exact ⟨hmin, hmax⟩

theorem fitInt64_eq (n : Int) : fitInt64 n = (i64.fit? n).map Int64.ofInt := by
  have hiff : Int64.minValue.toInt ≤ n ∧ n ≤ Int64.maxValue.toInt ↔ i64.Holds n := by
    rw [Int64.toInt_minValue, Int64.toInt_maxValue]
    exact Iff.rfl
  unfold fitInt64 IntType.fit?
  by_cases h : i64.Holds n
  · rw [if_pos h, if_pos (hiff.mpr h)]
    rfl
  · rw [if_neg h, if_neg (fun h' => h (hiff.mp h'))]
    rfl

/-- An integer as a value. -/
def ofInt (n : Int) : Result := .ok (.int (Int64.ofInt n))

/-- The outcome of an operation that may have none. -/
def ofInt? (n : Option Int) : Result :=
  match n with
  | some n => ofInt n
  | none => .error overflow

theorem ofInt?_fit? (n : Int) : ofInt? (i64.fit? n) = Operators.exact n := by
  rw [Operators.exact, fitInt64_eq]
  cases i64.fit? n with
  | none => rfl
  | some m => rfl

theorem exact_of_holds {n : Int} (h : i64.Holds n) : Operators.exact n = ofInt n := by
  rw [← ofInt?_fit?, IntType.fit?, if_pos h]
  rfl

theorem exact_of_not_holds {n : Int} (h : ¬ i64.Holds n) : Operators.exact n = .error overflow := by
  rw [← ofInt?_fit?, IntType.fit?, if_neg h]
  rfl

/-! ### Definitions -/

/-- Two lists behind one another. -/
def concat (make : List Value → Value) (a b : List Value) : Checked Result := do
  let n ← lengthInMemory a.length
  let m ← lengthInMemory b.length
  let total ← addSize n m
  if maxSequenceLength < total then return .error (.arithmetic .sequenceTooLong)
  let _capacity ← addSize n m
  return .ok (make (a ++ b))

/-- A sequence repeated.  Its length is the number of its characters or items; that many
    times it is checked first, and only then are the bytes of a string multiplied. -/
def repeated (times : Int64) (v : Value) : Checked Result := do
  let n := times.toInt.toNat
  if maxSequenceLength < v.length?.getD 0 * n then
    return .error (.arithmetic .sequenceTooLong)
  match v with
  | .str s =>
    let _bytes ← mulSize (byteLength s.toList) n
    return .ok (.str (String.ofList (Operators.copies n s.toList)))
  | .list items =>
    let _total ← mulSize items.length n
    return .ok (.list (Operators.copies n items))
  | .tuple items =>
    let _total ← mulSize items.length n
    return .ok (.tuple (Operators.copies n items))
  | v => return .ok v

def bitwise (op : BinaryOp) (a b : Int64) : Checked Result :=
  match op with
  | .bitAnd => return .ok (.int (a &&& b))
  | .bitOr => return .ok (.int (a ||| b))
  | .bitXor => return .ok (.int (a ^^^ b))
  | .shl =>
    if b < 0 then return .error (.arithmetic .negativeShift)
    else if a = 0 then return ofInt 0
    else if 64 ≤ b then return .error overflow
    else do
      let shifted ← shiftLeft a.toInt b.toInt
      let back ← shiftRight shifted b.toInt
      return if back = a.toInt then ofInt shifted else .error overflow
  | .shr =>
    if b < 0 then return .error (.arithmetic .negativeShift)
    else if 64 ≤ b then return ofInt (if a < 0 then -1 else 0)
    else return ofInt (← shiftRight a.toInt b.toInt)
  | _ => panic .unreachable

/-- The quotient rounded down: the one rounded to zero, less one where that is larger. -/
def floorDiv (x y : Int) : Checked Result :=
  match i64.fit? (x.tdiv y) with
  | none => return .error overflow
  | some q => do
    let r ← i64.rem x y
    if r ≠ 0 ∧ (decide (x < 0) != decide (y < 0)) then return ofInt (← i64.sub q 1)
    else return ofInt q

/-- The remainder with the sign of the divisor; zero where the quotient does not fit. -/
def floorMod (x y : Int) : Checked Result := do
  let r := if (i64.fit? (x.tdiv y)).isSome then x.tmod y else 0
  if r ≠ 0 ∧ (decide (r < 0) != decide (y < 0)) then return ofInt (← i64.add r y)
  else return ofInt r

/-- `x ** y` for `y ≥ 0`.  The exponent has to be one of 32 bits, except for the bases
    whose powers are small. -/
def power (x y : Int) : Checked Result := do
  if x = 0 ∧ 0 < y then return ofInt 0
  if x = 0 ∨ x = 1 then return ofInt 1
  if x = -1 then
    let r ← i64.rem y 2
    return ofInt (if r = 0 then 1 else -1)
  match IntType.u32.fit? y with
  | none => return .error overflow
  | some y => return ofInt? (i64.fit? (Int.pow x y.toNat))

def intArithmetic (op : BinaryOp) (a b : Int64) : Checked Result :=
  let x := a.toInt
  let y := b.toInt
  match op with
  | .add => return ofInt? (i64.fit? (x + y))
  | .sub => return ofInt? (i64.fit? (x - y))
  | .mul => return ofInt? (i64.fit? (x * y))
  | .div =>
    if b = 0 then return .error .divisionByZero
    else return .ok (.float ((Double.ofInt x).div (Double.ofInt y)))
  | .floorDiv => if b = 0 then return .error .divisionByZero else floorDiv x y
  | .mod => if b = 0 then return .error .divisionByZero else floorMod x y
  | .pow =>
    if b < 0 then
      if a = 0 then return .error .divisionByZero
      else return .ok (.float ((Double.ofInt x).pow (Double.ofInt y)))
    else power x y
  | _ => panic .unreachable

def floatArithmetic (op : BinaryOp) (x y : Double) : Checked Result :=
  match op with
  | .add | .sub | .mul | .div | .floorDiv | .mod | .pow =>
    return Operators.floatArithmetic op x y
  | _ => panic .unreachable

/-- Operators on values that are read as numbers. -/
def numeric (op : BinaryOp) (left right : Value) : Checked Result :=
  let unsupported : OperatorError := .operands (.binary op left.typeName right.typeName)
  if isBitOperator op then
    match left.asInt, right.asInt with
    | some a, some b => bitwise op a b
    | _, _ => return .error unsupported
  else
    match left.asNumber, right.asNumber with
    | some (.int a), some (.int b) => intArithmetic op a b
    | some a, some b => floatArithmetic op a.toDouble b.toDouble
    | _, _ => return .error unsupported

def times (left right : Value) : Checked Result :=
  match Operators.isSequence left, right.asInt, Operators.isSequence right, left.asInt with
  | true, some n, _, _ => repeated n left
  | _, _, true, some n => repeated n right
  | _, _, _, _ => numeric .mul left right

def binary (op : BinaryOp) (left right : Value) : Checked Result :=
  match op, left, right with
  | .add, .str a, .str b => do
    let n ← lengthInMemory a.utf8ByteSize
    let m ← lengthInMemory b.utf8ByteSize
    let total ← addSize n m
    if maxSequenceLength < total then return .error (.arithmetic .sequenceTooLong)
    return .ok (.str (a ++ b))
  | .add, .list a, .list b => concat .list a b
  | .add, .tuple a, .tuple b => concat .tuple a b
  | .mul, left, right => times left right
  | op, .set a, .set b =>
    if isSetOperator op then return .ok (.set (Operators.setOperation op a b))
    else numeric op (.set a) (.set b)
  | op, .bool a, .bool b =>
    if isSetOperator op && isBitOperator op then
      return .ok (.bool (Operators.boolOperation op a b))
    else numeric op (.bool a) (.bool b)
  | op, left, right => numeric op left right

/-! ### Integers -/

theorem shiftLeft_eq {a b : Int} (h : 0 ≤ b ∧ b < 64) :
    shiftLeft a b = .ok ((a * Int.pow 2 b.toNat).bmod 18446744073709551616) := if_pos h

theorem shiftRight_eq {a b : Int} (h : 0 ≤ b ∧ b < 64) : shiftRight a b = .ok (a >>> b.toNat) :=
  if_pos h

theorem bmod_of_holds {n : Int} (h : i64.Holds n) : n.bmod 18446744073709551616 = n :=
  Int.bmod_eq_of_le h.1 (Int.lt_add_one_of_le h.2)

/-- Shifting back gives the number again if, and only if, no bit has been lost. -/
theorem shiftBack_iff {a : Int} {n : Nat} (hn : n < 64) :
    (a * Int.pow 2 n).bmod 18446744073709551616 >>> n = a ↔ i64.Holds (a * Int.pow 2 n) := by
  have hpow : Int.pow 2 n = ((2 ^ n : Nat) : Int) := (Int.natCast_pow 2 n).symm
  have hpos : (0 : Int) < ((2 ^ n : Nat) : Int) := Int.natCast_pos.mpr (Nat.two_pow_pos n)
  have hlow : -9223372036854775808 ≤ (a * Int.pow 2 n).bmod 18446744073709551616 :=
    Int.le_bmod (by decide)
  have hhigh : (a * Int.pow 2 n).bmod 18446744073709551616 < 9223372036854775808 :=
    Int.bmod_lt (by decide)
  rw [Int.shiftRight_eq_div_pow]
  constructor
  · intro h
    -- the shifted number is a multiple of `2 ^ n`, so dividing loses nothing
    obtain ⟨k, hk⟩ : (18446744073709551616 : Int) ∣
      a * Int.pow 2 n - (a * Int.pow 2 n).bmod 18446744073709551616 := Int.dvd_self_sub_bmod
    have hsplit : (18446744073709551616 : Int) =
        ((2 ^ n : Nat) : Int) * ((2 ^ (64 - n) : Nat) : Int) := by
      rw [← Int.natCast_mul, ← Nat.pow_add, Nat.add_sub_cancel' (Nat.le_of_lt hn)]
      rfl
    have hdvd : ((2 ^ n : Nat) : Int) ∣ (a * Int.pow 2 n).bmod 18446744073709551616 := by
      have heq : (a * Int.pow 2 n).bmod 18446744073709551616 =
          a * Int.pow 2 n - 18446744073709551616 * k := by omega
      rw [heq, hpow]
      refine Int.dvd_sub (Int.dvd_mul_left _ _) (Int.dvd_trans ?_ (Int.dvd_mul_right _ _))
      exact ⟨_, hsplit⟩
    have hexact := Int.ediv_mul_cancel hdvd
    rw [h, ← hpow] at hexact
    rw [hexact]
    exact ⟨hlow, Int.le_of_lt_add_one hhigh⟩
  · intro h
    rw [bmod_of_holds h, hpow]
    exact Int.mul_ediv_cancel a (Int.ne_of_gt hpos)

/-- Dividing by a positive number leads towards zero. -/
theorem holds_ediv {a b : Int} (ha : i64.Holds a) (hb : 0 < b) : i64.Holds (a / b) := by
  have habs := Int.natAbs_ediv_le_natAbs a b
  rw [holds_i64] at *
  rcases Int.lt_or_le a 0 with hneg | hnonneg
  · have := Int.ediv_neg_of_neg_of_pos hneg hb
    omega
  · have := Int.ediv_nonneg hnonneg (Int.le_of_lt hb)
    omega

theorem holds_shiftRight {a : Int} (h : i64.Holds a) (n : Nat) : i64.Holds (a >>> n) := by
  rw [Int.shiftRight_eq_div_pow]
  exact holds_ediv h (Int.natCast_pos.mpr (Nat.two_pow_pos n))

/-- Of a number of 64 bits, a shift by 64 leaves the sign. -/
theorem shiftRight_64 {a : Int} (h : i64.Holds a) : a >>> (64 : Nat) = if a < 0 then -1 else 0 := by
  rw [holds_i64] at h
  rw [Int.shiftRight_eq_div_pow, show ((2 ^ 64 : Nat) : Int) = 18446744073709551616 from rfl]
  split
  · omega
  · omega

theorem bitwise_shl (a b : Int64) :
    bitwise .shl a b = .ok (Operators.bitwise .shl a b) := by
  have ha := holds_toInt a
  simp only [bitwise, Operators.bitwise]
  split
  · rfl
  · next hneg =>
    have hlow : 0 ≤ b.toInt := Int.not_lt.mp fun h => hneg (Int64.lt_iff_toInt_lt.mpr h)
    split
    · next hzero =>
      subst hzero
      rw [Int64.toInt_zero, Int.zero_mul]
      exact congrArg Except.ok (exact_of_holds (n := 0) (by decide)).symm
    · next hzero =>
      have hne : a.toInt ≠ 0 := fun h => hzero (Int64.toInt_inj.mp h)
      split
      · next hlarge =>
        -- a number other than zero, times `2 ^ 64`, is out of range
        have hcap : min b.toInt.toNat 64 = 64 := by
          have hle := Int64.le_iff_toInt_le.mp hlarge
          change 64 ≤ _ at hle
          omega
        rw [hcap, exact_of_not_holds]
        · rfl
        · rw [holds_i64, show Int.pow 2 64 = 18446744073709551616 from rfl]
          omega
      · next hsmall =>
        have hhigh : b.toInt < 64 :=
          Int.not_le.mp fun h => hsmall (Int64.le_iff_toInt_le.mpr h)
        rw [Nat.min_eq_left (by omega), shiftLeft_eq ⟨hlow, hhigh⟩]
        change (do
          let back ← shiftRight _ b.toInt
          pure _) = _
        rw [shiftRight_eq ⟨hlow, hhigh⟩]
        change Except.ok _ = Except.ok _
        have hback := shiftBack_iff (a := a.toInt) (n := b.toInt.toNat) (by omega)
        split
        · next h => rw [exact_of_holds (hback.mp h), bmod_of_holds (hback.mp h)]
        · next h => rw [exact_of_not_holds fun h' => h (hback.mpr h')]

theorem bitwise_shr (a b : Int64) :
    bitwise .shr a b = .ok (Operators.bitwise .shr a b) := by
  have ha := holds_toInt a
  simp only [bitwise, Operators.bitwise]
  split
  · rfl
  · next hneg =>
    have hlow : 0 ≤ b.toInt := Int.not_lt.mp fun h => hneg (Int64.lt_iff_toInt_lt.mpr h)
    rw [exact_of_holds (holds_shiftRight ha _)]
    split
    · next hlarge =>
      have hcap : min b.toInt.toNat 64 = 64 :=
        Nat.min_eq_right (by have := Int64.le_iff_toInt_le.mp hlarge; change 64 ≤ _ at this; omega)
      rw [hcap, shiftRight_64 ha]
      simp only [Int64.lt_iff_toInt_lt, Int64.toInt_zero]
      rfl
    · next hsmall =>
      have hhigh : b.toInt < 64 :=
        Int.not_le.mp fun h => hsmall (Int64.le_iff_toInt_le.mpr h)
      rw [Nat.min_eq_left (by omega), shiftRight_eq ⟨hlow, hhigh⟩]
      rfl

theorem bitwise_eq {op : BinaryOp} (hop : isBitOperator op = true) (a b : Int64) :
    bitwise op a b = .ok (Operators.bitwise op a b) := by
  cases op with
  | add | sub | mul | div | floorDiv | mod | pow => cases hop
  | bitAnd | bitOr | bitXor => rfl
  | shl => exact bitwise_shl a b
  | shr => exact bitwise_shr a b

/-! ### Quotients and powers -/

/-- The quotient rounded down, by the one rounded to zero. -/
theorem fdiv_eq_tdiv (x : Int) {y : Int} (hy : y ≠ 0) : x.fdiv y =
    if x.tmod y ≠ 0 ∧ (decide (x < 0) != decide (y < 0)) then x.tdiv y - 1 else x.tdiv y := by
  rw [Int.fdiv_eq_ediv, Int.tdiv_eq_ediv]
  by_cases hdvd : y ∣ x
  · simp [hdvd, Int.dvd_iff_tmod_eq_zero.mp hdvd]
  · have hrem : x.tmod y ≠ 0 := fun h => hdvd (Int.dvd_iff_tmod_eq_zero.mpr h)
    have hsign : y.sign = if y < 0 then -1 else 1 := by
      split
      · next h => exact Int.sign_eq_neg_one_of_neg h
      · next h => exact Int.sign_eq_one_of_pos (by omega)
    rw [hsign]
    simp only [hdvd, hrem, or_false, ne_eq, not_false_eq_true, true_and]
    by_cases hx : x < 0
    · by_cases hy' : y < 0
      · simp [hx, hy', Int.not_le.mpr hx, Int.not_le.mpr hy']
        omega
      · simp [hx, hy', Int.not_le.mpr hx, Int.not_lt.mp hy']
    · by_cases hy' : y < 0
      · simp [hx, hy', Int.not_lt.mp hx, Int.not_le.mpr hy']
      · simp [hx, hy', Int.not_lt.mp hx, Int.not_lt.mp hy']

theorem fmod_eq_tmod (x : Int) {y : Int} (hy : y ≠ 0) : x.fmod y =
    if x.tmod y ≠ 0 ∧ (decide (x.tmod y < 0) != decide (y < 0)) then x.tmod y + y
    else x.tmod y := by
  have hsplit := Int.tmod_add_mul_tdiv x y
  have hsign : x.tmod y ≠ 0 → (x.tmod y < 0 ↔ x < 0) := by
    intro hrem
    constructor
    · exact fun h => Int.not_le.mp fun hx => Int.not_le.mpr h (Int.tmod_nonneg y hx)
    · intro hx
      have := Int.tmod_nonneg y (a := -x) (by omega)
      rw [Int.neg_tmod] at this
      omega
  rw [Int.fmod_def, fdiv_eq_tdiv x hy]
  by_cases hrem : x.tmod y = 0
  · simp only [hrem, ne_eq, not_true_eq_false, false_and, if_false]
    omega
  · simp only [hrem, ne_eq, not_false_eq_true, true_and, hsign hrem]
    split
    · rw [Int.mul_sub, Int.mul_one]
      omega
    · omega

/-- There is one pair of numbers whose quotient is too large. -/
theorem holds_tdiv {x y : Int} (hx : i64.Holds x) (h : ¬ (x = i64.min ∧ y = -1)) :
    i64.Holds (x.tdiv y) := by
  have habs : (x.tdiv y).natAbs = x.natAbs / y.natAbs := Int.natAbs_tdiv x y
  rw [show i64.min = -9223372036854775808 from rfl] at h
  rw [holds_i64] at *
  rcases Nat.lt_or_ge 1 y.natAbs with hlarge | hsmall
  · have hhalf : x.natAbs / y.natAbs ≤ x.natAbs / 2 := Nat.div_le_div_left hlarge (by decide)
    omega
  · have hcases : y = 0 ∨ y = 1 ∨ y = -1 := by omega
    rcases hcases with rfl | rfl | rfl
    · rw [Int.tdiv_zero]
      omega
    · rw [Int.tdiv_one]
      exact hx
    · rw [Int.tdiv_neg, Int.tdiv_one]
      omega

/-- Where something remains, the divisor is at least two. -/
theorem two_mul_natAbs_tdiv_le {x y : Int} (hne : y ≠ 0) (hrem : x.tmod y ≠ 0) :
    2 * (x.tdiv y).natAbs ≤ x.natAbs := by
  have hlarge : 2 ≤ y.natAbs := by
    refine Nat.le_of_not_lt fun hsmall => hrem ?_
    have hcases : y = 1 ∨ y = -1 := by omega
    rcases hcases with rfl | rfl
    · exact Int.tmod_one x
    · rw [Int.tmod_neg, Int.tmod_one]
  have habs : (x.tdiv y).natAbs = x.natAbs / y.natAbs := Int.natAbs_tdiv x y
  have hhalf : x.natAbs / y.natAbs ≤ x.natAbs / 2 := Nat.div_le_div_left hlarge (by decide)
  omega

theorem natAbs_tmod_lt (x : Int) {y : Int} (hne : y ≠ 0) : (x.tmod y).natAbs < y.natAbs := by
  rw [Int.natAbs_tmod]
  exact Nat.mod_lt _ (Int.natAbs_pos.mpr hne)

theorem floorDiv_eq {x y : Int} (hx : i64.Holds x) (hne : y ≠ 0) :
    floorDiv x y = .ok (Operators.exact (x.fdiv y)) := by
  by_cases hmin : x = i64.min ∧ y = -1
  · obtain ⟨rfl, rfl⟩ := hmin
    rfl
  · have hfits := holds_tdiv hx hmin
    have hfloor := fdiv_eq_tdiv x hne
    simp only [floorDiv, IntType.fit?, if_pos hfits, IntType.rem_eq hne hfits, bind, Except.bind]
    split
    · next hround =>
      rw [if_pos hround] at hfloor
      have hlow : i64.Holds (x.tdiv y - 1) := by
        have := two_mul_natAbs_tdiv_le hne hround.1
        rw [holds_i64] at hx ⊢
        omega
      rw [IntType.sub_eq hlow, hfloor, exact_of_holds hlow]
      rfl
    · next hround =>
      rw [if_neg hround] at hfloor
      rw [hfloor, exact_of_holds hfits]
      rfl

theorem floorMod_eq {x y : Int} (hx : i64.Holds x) (hy : i64.Holds y) (hne : y ≠ 0) :
    floorMod x y = .ok (Operators.exact (x.fmod y)) := by
  by_cases hmin : x = i64.min ∧ y = -1
  · obtain ⟨rfl, rfl⟩ := hmin
    rfl
  · have hfits := holds_tdiv hx hmin
    have hmod := fmod_eq_tmod x hne
    have hsmall := natAbs_tmod_lt x hne
    rw [holds_i64] at hy
    simp only [floorMod, IntType.fit?, if_pos hfits, Option.isSome_some, if_true]
    split
    · next hround =>
      rw [if_pos hround] at hmod
      have hlow : i64.Holds (x.tmod y + y) := by
        have hsigns := hround.2
        simp only [bne_iff_ne, ne_eq, decide_eq_decide] at hsigns
        rw [holds_i64]
        omega
      rw [IntType.add_eq hlow, hmod, exact_of_holds hlow]
      rfl
    · next hround =>
      rw [if_neg hround] at hmod
      have hlow : i64.Holds (x.tmod y) := by
        rw [holds_i64]
        omega
      rw [hmod, exact_of_holds hlow]
      rfl

/-- From the exponent 64 on, the powers of other bases are too large. -/
theorem not_holds_pow {x : Int} {n : Nat} (hx : 2 ≤ x.natAbs) (hn : 64 ≤ n) :
    ¬ i64.Holds (Int.pow x n) := by
  have habs : (Int.pow x n).natAbs = x.natAbs ^ n := Int.natAbs_pow x n
  have hbase : 2 ^ 64 ≤ x.natAbs ^ n :=
    Nat.le_trans (Nat.pow_le_pow_left hx 64) (Nat.pow_le_pow_right (by omega) hn)
  rw [holds_i64]
  omega

/-- The powers of the bases that have only small ones. -/
theorem intPower_small {x : Int} (hx : x = 0 ∨ x = 1 ∨ x = -1) (n : Nat) :
    Operators.intPower x n =
      Operators.exact (Int.pow x (if n = 0 then 0 else if n % 2 = 0 then 2 else 1)) := by
  have hexponent : (if n = 0 then 0 else 2 - n % 2) =
      if n = 0 then 0 else if n % 2 = 0 then 2 else 1 := by
    split
    · rfl
    · split <;> omega
  rw [Operators.intPower, hexponent, if_pos]
  rcases hx with rfl | rfl | rfl <;> rfl

theorem power_zero {y : Int} (hy : 0 ≤ y) : power 0 y = .ok (Operators.intPower 0 y.toNat) := by
  rw [intPower_small (by decide), power]
  by_cases hpos : 0 < y
  · have hne : y.toNat ≠ 0 := by omega
    rw [if_pos ⟨rfl, hpos⟩, if_neg hne]
    split <;> rfl
  · have hzero : y = 0 := by omega
    subst hzero
    rfl

theorem power_one (y : Int) : power 1 y = .ok (Operators.intPower 1 y.toNat) := by
  have hnot : ¬ ((1 : Int) = 0 ∧ 0 < y) := fun h => absurd h.1 (by decide)
  rw [intPower_small (by decide), power, if_neg hnot, if_pos (by decide)]
  split
  · rfl
  · split <;> rfl

theorem power_negOne {y : Int} (hy : 0 ≤ y) (hmax : y ≤ i64.max) :
    power (-1) y = .ok (Operators.intPower (-1) y.toNat) := by
  have hnot : ¬ ((-1 : Int) = 0 ∧ 0 < y) := fun h => absurd h.1 (by decide)
  have hhalf : i64.Holds (y.tdiv 2) := by
    change y ≤ 9223372036854775807 at hmax
    rw [holds_i64, Int.tdiv_eq_ediv_of_nonneg hy]
    omega
  have hrem : i64.rem y 2 = .ok (y % 2) := by
    rw [IntType.rem_eq (by decide) hhalf, Int.tmod_eq_emod_of_nonneg hy]
  rw [intPower_small (by decide), power, if_neg hnot, if_neg (by decide), if_pos rfl, hrem]
  change Except.ok (ofInt (if y % 2 = 0 then 1 else -1)) = _
  by_cases hzero : y.toNat = 0
  · have heven : y % 2 = 0 := by omega
    rw [if_pos hzero, if_pos heven]
    rfl
  · rw [if_neg hzero]
    by_cases heven : y % 2 = 0
    · have heven' : y.toNat % 2 = 0 := by omega
      rw [if_pos heven, if_pos heven']
      rfl
    · have hodd : y.toNat % 2 ≠ 0 := by omega
      rw [if_neg heven, if_neg hodd]
      rfl

theorem power_eq (x : Int) {y : Int} (hy : 0 ≤ y) (hmax : y ≤ i64.max) :
    power x y = .ok (Operators.intPower x y.toNat) := by
  by_cases hsmall : x = 0 ∨ x = 1 ∨ x = -1
  · rcases hsmall with rfl | rfl | rfl
    · exact power_zero hy
    · exact power_one y
    · exact power_negOne hy hmax
  · have hlarge : 2 ≤ x.natAbs := by omega
    simp only [not_or] at hsmall
    obtain ⟨h0, h1, h2⟩ := hsmall
    simp only [power, Operators.intPower, h0, h1, h2, false_and, or_self, decide_false,
      Bool.or_self, Bool.false_eq_true, if_false]
    by_cases hfits : IntType.u32.Holds y
    · rw [IntType.fit?, if_pos hfits]
      change Except.ok (ofInt? _) = _
      rw [ofInt?_fit?]
      split
      · next h => rw [exact_of_not_holds (not_holds_pow hlarge h)]
      · rfl
    · have hexponent : 64 ≤ y.toNat := by
        change ¬ (0 ≤ y ∧ y ≤ 4294967295) at hfits
        omega
      rw [IntType.fit?, if_neg hfits, if_pos hexponent]
      rfl

/-! ### Numbers -/

theorem intArithmetic_eq {op : BinaryOp} (hop : isBitOperator op = false) (a b : Int64) :
    intArithmetic op a b = .ok (Operators.intArithmetic op a b) := by
  have ha := holds_toInt a
  have hb := holds_toInt b
  have hne : b ≠ 0 → b.toInt ≠ 0 := fun h h' => h (Int64.toInt_inj.mp h')
  cases op with
  | bitAnd | bitOr | bitXor | shl | shr => cases hop
  | add | sub | mul => exact congrArg Except.ok (ofInt?_fit? _)
  | div =>
    simp only [intArithmetic, Operators.intArithmetic]
    split <;> rfl
  | floorDiv =>
    simp only [intArithmetic, Operators.intArithmetic]
    split
    · rfl
    · next h => exact floorDiv_eq ha (hne h)
  | mod =>
    simp only [intArithmetic, Operators.intArithmetic]
    split
    · rfl
    · next h => exact floorMod_eq ha hb (hne h)
  | pow =>
    simp only [intArithmetic, Operators.intArithmetic]
    split
    · split <;> rfl
    · next h =>
      exact power_eq _ (Int.not_lt.mp fun h' => h (Int64.lt_iff_toInt_lt.mpr h')) hb.2

theorem floatArithmetic_eq {op : BinaryOp} (hop : isBitOperator op = false) (x y : Double) :
    floatArithmetic op x y = .ok (Operators.floatArithmetic op x y) := by
  cases op with
  | bitAnd | bitOr | bitXor | shl | shr => cases hop
  | _ => rfl

/-- **No operator meets the function for others.** -/
theorem numeric_eq (op : BinaryOp) (left right : Value) :
    numeric op left right = .ok (Operators.numeric op left right) := by
  unfold numeric Operators.numeric
  by_cases hop : isBitOperator op = true
  · rw [if_pos hop, if_pos hop]
    cases left.asInt with
    | none => rfl
    | some a =>
      cases right.asInt with
      | none => rfl
      | some b => exact bitwise_eq hop a b
  · rw [if_neg hop, if_neg hop]
    have hop' : isBitOperator op = false := by simpa using hop
    cases left.asNumber with
    | none => rfl
    | some x =>
      cases right.asNumber with
      | none => cases x <;> rfl
      | some y =>
        cases x with
        | int a =>
          cases y with
          | int b => exact intArithmetic_eq hop' a b
          | float y => exact floatArithmetic_eq hop' _ _
        | float x => exact floatArithmetic_eq hop' _ _

/-! ### Sequences -/

theorem byteLength_le (cs : List Char) : byteLength cs ≤ 4 * cs.length := by
  induction cs with
  | nil => exact Nat.le_refl _
  | cons c cs ih =>
    have := c.utf8Size_le_four
    rw [byteLength_cons, List.length_cons]
    omega

/-- The sum of two lengths is a size. -/
theorem gives_lengths {α : Type} {n m : Nat} {k : Nat → Nat → Nat → Checked α} {a : α}
    (h : n + m ≤ maxSize → Gives (k n m (n + m)) a) :
    Gives (do
      let n ← lengthInMemory n
      let m ← lengthInMemory m
      let total ← addSize n m
      k n m total) a := by
  by_cases hn : n ≤ maxBytes
  · by_cases hm : m ≤ maxBytes
    · have hsum : n + m ≤ maxSize := by
        unfold maxBytes at hn hm
        unfold maxSize
        omega
      simp only [lengthInMemory, if_pos hn, if_pos hm, bind, Except.bind, addSize_eq hsum]
      exact h hsum
    · simp only [lengthInMemory, if_pos hn, if_neg hm, bind, Except.bind]
      exact Or.inr rfl
  · simp only [lengthInMemory, if_neg hn, bind, Except.bind]
    exact Or.inr rfl

theorem concat_gives (make : List Value → Value) (a b : List Value) :
    Gives (concat make a b) (Operators.capped (a.length + b.length) (make (a ++ b))) := by
  unfold concat Operators.capped
  refine gives_lengths fun hsum => .of_eq ?_
  split
  · rfl
  · rw [addSize_eq hsum]
    rfl

/-- What is short enough to be made has few bytes, too. -/
theorem mulSize_of_short {n k m : Nat} (hn : n ≤ 4 * k) (h : ¬ maxSequenceLength < k * m) :
    mulSize n m = .ok (n * m) := by
  have hle : n * m ≤ 4 * (k * m) := by
    rw [← Nat.mul_assoc]
    exact Nat.mul_le_mul_right m hn
  have hcap : maxSequenceLength = 1048576 := rfl
  apply mulSize_eq
  unfold maxSize
  omega

theorem repeated_eq (times : Int64) (v : Value) :
    repeated times v = .ok (Operators.repeated times v) := by
  unfold repeated Operators.repeated
  dsimp only
  split
  · rfl
  · next hshort =>
    cases v with
    | str s =>
      change ¬ maxSequenceLength < s.length * times.toInt.toNat at hshort
      rw [← String.length_toList] at hshort
      simp only [mulSize_of_short (byteLength_le s.toList) hshort, bind, Except.bind]
      rfl
    | list items | tuple items =>
      have hle : items.length ≤ 4 * items.length := by omega
      simp only [mulSize_of_short hle hshort, bind, Except.bind]
      rfl
    | _ => rfl

/-! ### Any operands -/

theorem times_eq (left right : Value) : times left right = .ok (Operators.times left right) := by
  have hnumeric := numeric_eq .mul left right
  unfold times Operators.times
  cases Operators.isSequence left with
  | true =>
    cases right.asInt with
    | some n => exact repeated_eq n left
    | none => cases Operators.isSequence right <;> cases left.asInt <;> first
      | exact hnumeric
      | exact repeated_eq _ right
  | false =>
    cases Operators.isSequence right with
    | true => 
      cases left.asInt with
      | some n => exact repeated_eq n right
      | none => exact hnumeric
    | false => exact hnumeric

theorem add_gives (left right : Value) :
    Gives (binary .add left right) (Operators.binary .add left right) := by
  have hnumeric := numeric_eq .add left right
  cases left with
  | str a =>
    cases right with
    | str b =>
      refine gives_lengths fun hsum => .of_eq ?_
      simp only [Operators.binary, Operators.capped]
      split <;> rfl
    | _ => exact .of_eq hnumeric
  | list a =>
    cases right with
    | list b => exact concat_gives _ a b
    | _ => exact .of_eq hnumeric
  | tuple a =>
    cases right with
    | tuple b => exact concat_gives _ a b
    | _ => exact .of_eq hnumeric
  | set a =>
    cases right with
    | set b => exact .of_eq hnumeric
    | _ => exact .of_eq hnumeric
  | bool a =>
    cases right with
    | bool b => exact .of_eq hnumeric
    | _ => exact .of_eq hnumeric
  | _ => exact .of_eq hnumeric

/-- **The operators never panic.** -/
theorem binary_gives (op : BinaryOp) (left right : Value) :
    Gives (binary op left right) (Operators.binary op left right) := by
  have hnumeric := numeric_eq op left right
  cases op with
  | add => exact add_gives left right
  | mul => exact .of_eq (times_eq _ _)
  | _ =>
    apply Gives.of_eq
    cases left with
    | set a =>
      cases right with
      | set b => first | exact hnumeric | rfl
      | _ => exact hnumeric
    | bool a =>
      cases right with
      | bool b => first | exact hnumeric | rfl
      | _ => exact hnumeric
    | _ => exact hnumeric

end SafeExpr.Machine
