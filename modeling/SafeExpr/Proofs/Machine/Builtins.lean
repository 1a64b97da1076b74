/-
  SafeExpr/Proofs/Machine/Builtins.lean
  =====================================
  **The general functions on a machine.**

  Those that compute more than their operators do: powers modulo a number, rounding to
  places before the point, ranges, reading digits in a radix, and sums.  Intermediate
  results have 128 bits where 64 would not hold them.
-/
import SafeExpr.Library.Builtins
import SafeExpr.Proofs.Machine.Operators

namespace SafeExpr.Machine

open IntType (i64 i128 u32 holds_i64 holds_i128)
open Library

/-! ### Definitions -/

/-- What follows an argument that has been taken apart. -/
def attempt {α : Type} (x : Except Fault α) (k : α → Checked Answer) : Checked Answer :=
  match x with
  | .ok a => k a
  | .error fault => return .error fault

/-- A product modulo `m`. -/
def mulModulo (a b m : Int) : Checked Int := do
  let product ← i128.mul a b
  i128.remEuclid product m

/-- `b ^ e` modulo `m` by squaring, times `r`. -/
def powerLoop (m b : Int) (e : Nat) (r : Int) : Checked Int :=
  if e = 0 then return r
  else if e % 2 = 1 then do
    let r ← mulModulo r b m
    let b ← mulModulo b b m
    powerLoop m b (e / 2) r
  else do
    let b ← mulModulo b b m
    powerLoop m b (e / 2) r
termination_by e

def powerModulo (b e m : Int64) : Checked Answer :=
  if m = 0 then return .error .zeroModulus
  else if e < 0 then return .error .negativeExponent
  else do
    let base ← i128.remEuclid b.toInt m.toInt
    let r ← powerLoop m.toInt base e.toInt.toNat 1
    if m < 0 ∧ 0 < r then
      let r ← i128.add r m.toInt
      return .ok (.int (Int64.ofInt r))
    return .ok (.int (Int64.ofInt r))

def pow (base exponent modulus : Value) : Checked Answer :=
  match modulus.given with
  | none => applied "pow" <$> binary .pow base exponent
  | some modulus =>
    attempt (intArg "pow" base) fun b =>
    attempt (intArg "pow" exponent) fun e =>
    attempt (intArg "pow" modulus) fun m => powerModulo b e m

/-- The power of ten for so many places before the point, if it has 64 bits. -/
def scale? (digits : Int) : Option Int :=
  (i64.fit? (-digits)).bind fun e => (u32.fit? e).bind fun e => i64.fit? (Int.pow 10 e.toNat)

/-- A number rounded to a multiple of `scale`, a tie to the even multiple. -/
def roundToMultiple (n scale : Int) : Checked Answer := do
  let q ← i64.divEuclid n scale
  let r ← i64.remEuclid n scale
  let twice ← i128.mul 2 r
  let odd ← i64.rem q 2
  let q ← if scale < twice ∨ (twice = scale ∧ odd ≠ 0) then i64.add q 1 else pure q
  return match i64.fit? (q * scale) with
    | some n => .ok (.int (Int64.ofInt n))
    | none => .error (.overflow "round")

/-- An integer rounded to places before the point. -/
def roundInt (n : Int64) (digits : Int) : Checked Answer :=
  if 0 ≤ digits then return .ok (.int n)
  else
    match scale? digits with
    | none => return .ok (.int 0)
    | some scale => roundToMultiple n.toInt scale

def round (v digits : Value) : Checked Answer :=
  attempt (optionalArg (intArg "round") digits) fun digits =>
    match v.asNumber, digits with
    | some (.int n), none => return .ok (.int n)
    | some (.int n), some d => roundInt n d.toInt
    | some (.float x), none => return Builtins.integerOf "round" x.roundEven
    | some (.float x), some d => return .ok (.float (Builtins.roundDouble x d.toInt))
    | none, _ => return .error (.wrongType "round" "a number" v.typeName)

/-- The number of integers in a range; negative for an empty one. -/
def rangeLength (start stop step : Int) : Checked Int :=
  if 0 < step then do
    let gap ← i128.sub stop start
    let gap ← i128.add gap step
    let gap ← i128.sub gap 1
    i128.divEuclid gap step
  else do
    let gap ← i128.sub start stop
    let gap ← i128.sub gap step
    let gap ← i128.sub gap 1
    let step ← i128.neg step
    i128.divEuclid gap step

/-- One of the integers in a range. -/
def rangeItem (start step : Int) (i : Nat) : Checked Value := do
  let offset ← i128.mul i step
  let n ← i128.add start offset
  return .int (Int64.ofInt n)

def rangeItems (start stop step : Int) : Checked Answer :=
  if step = 0 then return .error .zeroStep
  else do
    let n := (← rangeLength start stop step).toNat
    if maxSequenceLength < n then return .error .rangeTooLong
    let items ← (List.range n).mapM (rangeItem start step)
    return .ok (.list items)

def range (first stop step : Value) : Checked Answer :=
  attempt (intArg "range" first) fun first =>
  attempt (optionalArg (intArg "range") stop) fun stop =>
  attempt (optionalArg (intArg "range") step) fun step =>
    let step := (step.getD 1).toInt
    match stop with
    | some stop => rangeItems first.toInt stop.toInt step
    | none => rangeItems 0 first.toInt step

/-- Digits in a radix. -/
def readInRadix (radix : Nat) (ds : List Char) : Checked (Option Nat) :=
  if 2 ≤ radix ∧ radix ≤ 36 then return readNat? radix ds else panic .radix

def readInt (base : Nat) (text : List Char) : Checked (Option Int64) :=
  let (negative, body) := Builtins.splitSign (trimBlanks text)
  let (radix, ds) := Builtins.splitMark base (body.map Char.toLower)
  if ds.head? = some '_' || ds.getLast? = some '_' || Builtins.hasDoubleUnderscore ds then
    return none
  else do
    let n ← readInRadix radix (withoutUnderscores ds)
    return n.bind fun n => fitInt64 (if negative then -(n : Int) else n)

def intOfText (text : String) (base : Int64) : Checked Answer :=
  if base ≠ 0 ∧ ¬ (2 ≤ base ∧ base ≤ 36) then return .error .badBase
  else do
    match ← readInt base.toInt.toNat text.toList with
    | some n => return .ok (.int n)
    | none => return .error (.notAnInteger base text)

def int (v base : Value) : Checked Answer :=
  attempt (optionalArg (intArg "int") base) fun b =>
    match v.given, b with
    | none, none => return .ok (.int 0)
    | none, some _ => return .error .noIntegerText
    | some (.str s), b => intOfText s (b.getD 10)
    | some _, some _ => return .error .baseOfNonString
    | some v, none =>
      match v.asNumber with
      | some (.int n) => return .ok (.int n)
      | some (.float x) => return Builtins.integerOf "int" x.trunc
      | none => return .error (.wrongType "int" "a string or a number" v.typeName)

/-- The items added one after the other. -/
def sumFrom (total : Value) : List Value → Checked Operators.Result
  | [] => return .ok total
  | v :: rest => do
    match ← binary .add total v with
    | .ok total => sumFrom total rest
    | .error e => return .error e

def sum (v start : Value) : Checked Answer :=
  match start.given.getD (.int 0) with
  | .str _ => return .error .sumOfStrings
  | start => attempt (itemsArg v) fun items => applied "sum" <$> sumFrom start items

/-! ### Powers -/

theorem attempt_gives {α : Type} {x : Except Fault α} {k : α → Checked Answer}
    {k' : α → Answer} (h : ∀ a, x = .ok a → Gives (k a) (k' a)) :
    Gives (attempt x k) (x >>= k') := by
  cases x with
  | error fault => exact .of_eq rfl
  | ok a => exact h a rfl

/-- A number that is not negative and no larger than the absolute value of one of 64 bits. -/
def IsResidue (n : Int) : Prop := 0 ≤ n ∧ n ≤ 9223372036854775808

theorem isResidue_emod {m : Int} (hm : i64.Holds m) (hne : m ≠ 0) (n : Int) :
    IsResidue (n % m) := by
  have hlow := Int.emod_nonneg n hne
  have hhigh := Int.emod_lt n hne
  rw [holds_i64] at hm
  exact ⟨hlow, by omega⟩

theorem mulModulo_eq {a b m : Int} (ha : IsResidue a) (hb : IsResidue b) (hne : m ≠ 0) :
    mulModulo a b m = .ok (a * b % m) := by
  obtain ⟨ha, hamax⟩ := ha
  obtain ⟨hb, hbmax⟩ := hb
  have hlow := Int.mul_nonneg ha hb
  have hhigh : a * b ≤ 9223372036854775808 * 9223372036854775808 :=
    Int.mul_le_mul hamax hbmax hb (by decide)
  have hquotient := Int.natAbs_ediv_le_natAbs (a * b) m
  have hproduct : i128.Holds (a * b) := by
    rw [holds_i128]
    omega
  rw [mulModulo, IntType.mul_eq hproduct]
  refine IntType.remEuclid_eq hne ?_
  rw [holds_i128]
  omega

theorem powerLoop_eq {m : Int} (hm : i64.Holds m) (hne : m ≠ 0) (fuel : Nat) {e : Nat}
    {b r : Int} (he : e < Nat.pow 2 fuel) (hb : IsResidue b) (hr : IsResidue r) :
    powerLoop m b e r = .ok (Builtins.powerLoop m fuel b e r) := by
  induction fuel generalizing e b r with
  | zero =>
    have hzero : e = 0 := Nat.lt_one_iff.mp he
    rw [powerLoop, if_pos hzero]
    rfl
  | succ fuel ih =>
    rw [powerLoop, Builtins.powerLoop]
    split
    · rfl
    · have hhalf : e / 2 < Nat.pow 2 fuel := Nat.div_lt_of_lt_mul (by rwa [Nat.mul_comm])
      rw [mulModulo_eq hb hb hne, mulModulo_eq hr hb hne]
      split
      · exact ih hhalf (isResidue_emod hm hne _) (isResidue_emod hm hne _)
      · exact ih hhalf (isResidue_emod hm hne _) hr

/-- The result is a remainder, unless nothing has been multiplied. -/
theorem powerLoop_bounds {m : Int} (hne : m ≠ 0) (fuel : Nat) (b : Int) (e : Nat) (r : Int) :
    Builtins.powerLoop m fuel b e r = r ∨
      (0 ≤ Builtins.powerLoop m fuel b e r ∧ Builtins.powerLoop m fuel b e r < m.natAbs) := by
  induction fuel generalizing b e r with
  | zero => exact Or.inl rfl
  | succ fuel ih =>
    rw [Builtins.powerLoop]
    split
    · exact Or.inl rfl
    · split
      · rcases ih (b * b % m) (e / 2) (r * b % m) with h | h
        · rw [h]
          exact Or.inr ⟨Int.emod_nonneg _ hne, Int.emod_lt _ hne⟩
        · exact Or.inr h
      · exact ih _ _ _

theorem exact_eq (function : String) {n : Int} (h : i64.Holds n) :
    Library.exact function n = .ok (.int (Int64.ofInt n)) := by
  rw [Library.exact, fitInt64_eq, IntType.fit?, if_pos h]
  rfl

theorem powerModulo_eq (b e m : Int64) :
    powerModulo b e m = .ok (Builtins.powerModulo b e m) := by
  unfold powerModulo Builtins.powerModulo
  split
  · rfl
  · next hzero =>
    split
    · rfl
    · next hneg =>
      have hm := holds_toInt m
      have hb := holds_toInt b
      have he := holds_toInt e
      have hne : m.toInt ≠ 0 := fun h => hzero (Int64.toInt_inj.mp h)
      have hquotient := Int.natAbs_ediv_le_natAbs b.toInt m.toInt
      have hsign : m < 0 ↔ m.toInt < 0 := Int64.lt_iff_toInt_lt
      rw [holds_i64] at hb he
      have hbase : i128.remEuclid b.toInt m.toInt = .ok (b.toInt % m.toInt) := by
        refine IntType.remEuclid_eq hne ?_
        rw [holds_i128]
        omega
      have hbits : e.toInt.toNat < Nat.pow 2 64 := by
        change _ < 18446744073709551616
        omega
      have hloop : powerLoop m.toInt (b.toInt % m.toInt) e.toInt.toNat 1 = .ok _ :=
        powerLoop_eq hm hne 64 hbits (isResidue_emod hm hne b.toInt) ⟨by decide, by decide⟩
      have hbounds := powerLoop_bounds hne 64 (b.toInt % m.toInt) e.toInt.toNat 1
      rw [hbase]
      change (powerLoop m.toInt (b.toInt % m.toInt) e.toInt.toNat 1 >>= _) = _
      rw [hloop]
      generalize Builtins.powerLoop m.toInt 64 (b.toInt % m.toInt) e.toInt.toNat 1 = r at hbounds
      rw [holds_i64] at hm
      simp only [bind, Except.bind, Bool.and_eq_true, decide_eq_true_eq]
      split
      · next h =>
        rw [hsign] at h
        have hsum : i128.Holds (r + m.toInt) := by
          rw [holds_i128]
          omega
        have hfits : i64.Holds (r + m.toInt) := by
          rw [holds_i64]
          omega
        rw [IntType.add_eq hsum, exact_eq "pow" hfits]
        rfl
      · next h =>
        rw [hsign] at h
        have hfits : i64.Holds r := by
          rw [holds_i64]
          omega
        rw [exact_eq "pow" hfits]
        rfl

/-! ### Rounding -/

theorem pow_ten_bounds {n : Nat} (hn : 1 ≤ n) (hle : n ≤ Builtins.maxIntPlaces) :
    10 ≤ Int.pow 10 n ∧ Int.pow 10 n ≤ 1000000000000000000 := by
  have heq : Int.pow 10 n = ((10 ^ n : Nat) : Int) := (Int.natCast_pow 10 n).symm
  have hlow : 10 ^ 1 ≤ 10 ^ n := Nat.pow_le_pow_right (by decide) hn
  have hhigh : 10 ^ n ≤ 10 ^ 18 := Nat.pow_le_pow_right (by decide) hle
  rw [heq]
  omega

/-- The powers of ten of 64 bits are those that rounding reckons with. -/
theorem scale?_eq {digits : Int} (hneg : digits < 0) :
    scale? digits =
      if (Builtins.maxIntPlaces : Int) < -digits then none
      else some (Int.pow 10 (-digits).toNat) := by
  have hplaces : (Builtins.maxIntPlaces : Int) = 18 := rfl
  rw [hplaces]
  split
  · next hlarge =>
    have hpow : ¬ i64.Holds (Int.pow 10 (-digits).toNat) := by
      have heq : Int.pow 10 (-digits).toNat = ((10 ^ (-digits).toNat : Nat) : Int) :=
        (Int.natCast_pow 10 _).symm
      have hle : 10 ^ 19 ≤ 10 ^ (-digits).toNat := Nat.pow_le_pow_right (by decide) (by omega)
      rw [holds_i64, heq]
      omega
    unfold scale?
    by_cases hfirst : i64.Holds (-digits)
    · by_cases hsecond : u32.Holds (-digits)
      · simp only [IntType.fit?, if_pos hfirst, if_pos hsecond, if_neg hpow, Option.bind_some]
      · simp only [IntType.fit?, if_pos hfirst, if_neg hsecond, Option.bind_some,
          Option.bind_none]
    · simp only [IntType.fit?, if_neg hfirst, Option.bind_none]
  · next hsmall =>
    have hbounds := pow_ten_bounds (n := (-digits).toNat) (by omega)
      (by change _ ≤ 18; omega)
    have hfirst : i64.Holds (-digits) := by
      rw [holds_i64]
      omega
    have hsecond : u32.Holds (-digits) := by
      change 0 ≤ -digits ∧ -digits ≤ 4294967295
      omega
    have hpow : i64.Holds (Int.pow 10 (-digits).toNat) := by
      rw [holds_i64]
      omega
    simp only [scale?, IntType.fit?, if_pos hfirst, if_pos hsecond, if_pos hpow,
      Option.bind_some]

theorem exact_fit? (function : String) (n : Int) :
    Library.exact function n = match i64.fit? n with
      | some n => .ok (.int (Int64.ofInt n))
      | none => .error (.overflow function) := by
  rw [Library.exact, fitInt64_eq]
  cases i64.fit? n <;> rfl

theorem roundToMultiple_eq {n scale : Int} (hn : i64.Holds n) (hlow : 10 ≤ scale)
    (hhigh : scale ≤ 1000000000000000000) :
    roundToMultiple n scale = .ok (Library.exact "round" (Builtins.roundToMultiple n scale)) := by
  have hne : scale ≠ 0 := by omega
  have hq := holds_ediv hn (b := scale) (by omega)
  have hr := Int.emod_nonneg n hne
  have hr' := Int.emod_lt_of_pos n (b := scale) (by omega)
  have htwice : i128.Holds (2 * (n % scale)) := by
    rw [holds_i128]
    omega
  have hnext : i64.Holds (n / scale + 1) := by
    have hle := Int.ediv_mul_le n hne
    rw [holds_i64] at *
    rcases Int.lt_or_le (n / scale) 0 with hneg | hnonneg
    · omega
    · have := Int.mul_le_mul_of_nonneg_left hlow hnonneg
      omega
  have hhalf : i64.Holds ((n / scale).tdiv 2) :=
    holds_tdiv hq fun h => absurd h.2 (by decide)
  have hodd : (n / scale).tmod 2 ≠ 0 ↔ n / scale % 2 ≠ 0 := by
    rw [ne_eq, ne_eq, ← Int.dvd_iff_tmod_eq_zero, Int.dvd_iff_emod_eq_zero]
  simp only [roundToMultiple, Builtins.roundToMultiple, IntType.divEuclid_eq hne hq,
    IntType.remEuclid_eq hne hq, IntType.mul_eq htwice, IntType.rem_eq (by decide) hhalf, hodd,
    IntType.add_eq hnext, exact_fit?, bind, Except.bind, Bool.or_eq_true, Bool.and_eq_true,
    decide_eq_true_eq]
  split <;> rfl

theorem roundInt_eq (n : Int64) (digits : Int) :
    roundInt n digits = .ok (Builtins.roundInt n digits) := by
  unfold roundInt Builtins.roundInt
  split
  · rfl
  · next hneg =>
    have hplaces : (Builtins.maxIntPlaces : Int) = 18 := rfl
    rw [scale?_eq (by omega)]
    by_cases hsmall : (Builtins.maxIntPlaces : Int) < -digits
    · rw [if_pos hsmall, if_pos hsmall]
      rfl
    · obtain ⟨hlow, hhigh⟩ := pow_ten_bounds (n := (-digits).toNat) (by omega)
        (by change _ ≤ 18; omega)
      rw [if_neg hsmall, if_neg hsmall]
      exact roundToMultiple_eq (holds_toInt n) hlow hhigh

theorem round_eq (v digits : Value) : Gives (round v digits) (Builtins.round v digits) := by
  refine attempt_gives fun d _ => .of_eq ?_
  cases v.asNumber with
  | none => rfl
  | some x =>
    cases x with
    | int n =>
      cases d with
      | none => rfl
      | some d => exact roundInt_eq n d.toInt
    | float x => cases d <;> rfl

theorem pow_gives (base exponent modulus : Value) :
    Gives (pow base exponent modulus) (Builtins.pow base exponent modulus) := by
  unfold pow Builtins.pow
  cases modulus.given with
  | none => exact (binary_gives .pow base exponent).map _
  | some m =>
    refine attempt_gives fun b _ => ?_
    refine attempt_gives fun e _ => ?_
    exact attempt_gives fun m _ => .of_eq (powerModulo_eq b e m)

/-! ### Ranges -/

theorem mapM_eq_map {α β : Type} {f : α → Checked β} {g : α → β} {xs : List α}
    (h : ∀ x ∈ xs, f x = .ok (g x)) : xs.mapM f = .ok (xs.map g) := by
  induction xs with
  | nil => rfl
  | cons x xs ih =>
    obtain ⟨hx, hxs⟩ := List.forall_mem_cons.mp h
    rw [List.mapM_cons, hx, ih hxs]
    rfl

/-- Three more bits than there are in each of three numbers are enough for their sum. -/
theorem holds_i128_of_small {n : Int} (h : -36893488147419103232 ≤ n ∧ n ≤ 36893488147419103232) :
    i128.Holds n := by
  rw [holds_i128]
  omega

theorem rangeLength_eq {start stop step : Int} (hstart : i64.Holds start) (hstop : i64.Holds stop)
    (hstep : i64.Holds step) (hne : step ≠ 0) :
    ∃ n, rangeLength start stop step = .ok n ∧
      n.toNat = Builtins.rangeLength start stop step := by
  rw [holds_i64] at hstart hstop hstep
  unfold rangeLength Builtins.rangeLength
  split
  · next hpos =>
    have habs := Int.natAbs_ediv_le_natAbs (stop - start + step - 1) step
    have hgap : i128.Holds (stop - start) := holds_i128_of_small (by omega)
    have hgap' : i128.Holds (stop - start + step) := holds_i128_of_small (by omega)
    have hlast : i128.Holds (stop - start + step - 1) := holds_i128_of_small (by omega)
    have hquotient : i128.Holds ((stop - start + step - 1) / step) :=
      holds_i128_of_small (by omega)
    refine ⟨_, ?_, rfl⟩
    simp only [IntType.sub_eq hgap, IntType.add_eq hgap', IntType.sub_eq hlast,
      IntType.divEuclid_eq hne hquotient, bind, Except.bind]
  · next hneg =>
    have habs := Int.natAbs_ediv_le_natAbs (start - stop - step - 1) (-step)
    have hgap : i128.Holds (start - stop) := holds_i128_of_small (by omega)
    have hgap' : i128.Holds (start - stop - step) := holds_i128_of_small (by omega)
    have hlast : i128.Holds (start - stop - step - 1) := holds_i128_of_small (by omega)
    have hopposite : i128.Holds (-step) := holds_i128_of_small (by omega)
    have hquotient : i128.Holds ((start - stop - step - 1) / -step) :=
      holds_i128_of_small (by omega)
    have hne' : -step ≠ 0 := by omega
    refine ⟨_, ?_, rfl⟩
    simp only [IntType.sub_eq hgap, IntType.sub_eq hgap', IntType.sub_eq hlast, IntType.neg,
      IntType.fit_eq hopposite, IntType.divEuclid_eq hne' hquotient, bind, Except.bind]

theorem rangeItem_eq {start step : Int} (hstart : i64.Holds start) (hstep : i64.Holds step)
    {i : Nat} (hi : i < maxSequenceLength) :
    rangeItem start step i = .ok (.int (Int64.ofInt (start + (i : Int) * step))) := by
  have hcap : maxSequenceLength = 1048576 := rfl
  rw [holds_i64] at hstart hstep
  have hlow : (i : Int) * -9223372036854775808 ≤ i * step :=
    Int.mul_le_mul_of_nonneg_left hstep.1 (Int.natCast_nonneg i)
  have hhigh : (i : Int) * step ≤ i * 9223372036854775807 :=
    Int.mul_le_mul_of_nonneg_left hstep.2 (Int.natCast_nonneg i)
  have hoffset : i128.Holds ((i : Int) * step) := by
    rw [holds_i128]
    omega
  have hsum : i128.Holds (start + (i : Int) * step) := by
    rw [holds_i128]
    omega
  rw [rangeItem, IntType.mul_eq hoffset]
  change (i128.add start ((i : Int) * step) >>= _) = _
  rw [IntType.add_eq hsum]
  rfl

theorem rangeItems_eq {start stop step : Int} (hstart : i64.Holds start) (hstop : i64.Holds stop)
    (hstep : i64.Holds step) :
    rangeItems start stop step = .ok (Builtins.rangeItems start stop step) := by
  unfold rangeItems Builtins.rangeItems
  split
  · rfl
  · next hne =>
    obtain ⟨n, hn, hlength⟩ := rangeLength_eq hstart hstop hstep hne
    rw [hn]
    simp only [bind, Except.bind, hlength]
    split
    · rfl
    · next hshort =>
      rw [mapM_eq_map fun i hi => rangeItem_eq hstart hstep
        (Nat.lt_of_lt_of_le (List.mem_range.mp hi) (Nat.le_of_not_lt hshort))]
      rfl

theorem range_gives (first stop step : Value) :
    Gives (range first stop step) (Builtins.range first stop step) := by
  refine attempt_gives fun first _ => ?_
  refine attempt_gives fun stop _ => ?_
  refine attempt_gives fun step _ => .of_eq ?_
  cases stop with
  | none => exact rangeItems_eq (by decide) (holds_toInt _) (holds_toInt _)
  | some stop => exact rangeItems_eq (holds_toInt _) (holds_toInt _) (holds_toInt _)

/-! ### Digits -/

theorem readInRadix_eq {radix : Nat} (h : 2 ≤ radix ∧ radix ≤ 36) (ds : List Char) :
    readInRadix radix ds = .ok (readNat? radix ds) := by
  rw [readInRadix, if_pos h]
  rfl

/-- Whatever the text says, the radix is one of those that digits can be read in. -/
theorem splitMark_radix {base : Nat} (h : base = 0 ∨ (2 ≤ base ∧ base ≤ 36)) (body : List Char) :
    2 ≤ (Builtins.splitMark base body).1 ∧ (Builtins.splitMark base body).1 ≤ 36 := by
  have hplain : 2 ≤ (if base = 0 then 10 else base) ∧ (if base = 0 then 10 else base) ≤ 36 := by
    split <;> omega
  have hmarked : ∀ radix ds, 2 ≤ radix ∧ radix ≤ 36 →
      2 ≤ (if base = 0 || base = radix then (radix, ds) else (base, body)).1 ∧
        (if base = 0 || base = radix then (radix, ds) else (base, body)).1 ≤ 36 := by
    intro radix ds hradix
    split
    · exact hradix
    · next hne =>
      simp only [Bool.or_eq_true, decide_eq_true_eq, not_or] at hne
      rcases h with h | h
      · exact absurd h hne.1
      · exact h
  unfold Builtins.splitMark
  dsimp only
  split
  · next radix ds heq =>
    refine hmarked radix ds ?_
    split at heq
    · cases heq
      decide
    · cases heq
      decide
    · cases heq
      decide
    · cases heq
  · exact hplain

theorem readInt_eq {base : Nat} (h : base = 0 ∨ (2 ≤ base ∧ base ≤ 36)) (text : List Char) :
    readInt base text = .ok (Builtins.readInt? base text) := by
  unfold readInt Builtins.readInt?
  dsimp only
  have hradix := splitMark_radix h ((Builtins.splitSign (trimBlanks text)).2.map Char.toLower)
  split
  · rfl
  · rw [readInRadix_eq hradix]
    rfl

theorem intOfText_eq (text : String) (base : Int64) :
    intOfText text base = .ok (Builtins.intOfText text base) := by
  unfold intOfText Builtins.intOfText
  split
  · rfl
  · next hbase =>
    have hrange : base.toInt.toNat = 0 ∨ (2 ≤ base.toInt.toNat ∧ base.toInt.toNat ≤ 36) := by
      by_cases hzero : base = 0
      · subst hzero
        exact Or.inl rfl
      · have hok := Decidable.of_not_not fun h => hbase ⟨hzero, h⟩
        have hlow : (2 : Int) ≤ base.toInt := Int64.le_iff_toInt_le.mp hok.1
        have hhigh : base.toInt ≤ 36 := Int64.le_iff_toInt_le.mp hok.2
        exact Or.inr (by omega)
    rw [readInt_eq hrange]
    cases Builtins.readInt? base.toInt.toNat text.toList <;> rfl

theorem int_gives (v base : Value) : Gives (int v base) (Builtins.int v base) := by
  refine attempt_gives fun b _ => .of_eq ?_
  cases v.given with
  | none => cases b <;> rfl
  | some v =>
    cases v with
    | str s => cases b <;> exact intOfText_eq s _
    | _ => cases b <;> rfl

/-! ### Sums -/

theorem sumFrom_gives (total : Value) (items : List Value) :
    Gives (sumFrom total items) (items.foldlM (Operators.binary .add) total) := by
  induction items generalizing total with
  | nil => exact .of_eq rfl
  | cons v rest ih =>
    rw [List.foldlM_cons]
    refine (binary_gives .add total v).bind ?_
    cases Operators.binary .add total v with
    | error e => exact .of_eq rfl
    | ok total => exact ih total

theorem sum_gives (v start : Value) : Gives (sum v start) (Builtins.sum v start) := by
  unfold sum Builtins.sum
  cases start.given.getD (.int 0) with
  | str s => exact .of_eq rfl
  | _ => exact attempt_gives fun items _ => (sumFrom_gives _ items).map _

end SafeExpr.Machine
