/-
  SafeExpr/Proofs/Number/Shortest.lean
  ====================================
  **The shortest decimal of a double tells it from every other.**

  Around each double lies the interval of the numbers that round to it (`Double.Near`).  The
  intervals of two doubles meet in an end at most, and there only one of them is closed
  (`Double.Near.unique`).  The search for the shortest decimal ends within seventeen digits,
  since the grid of that many is narrower than every interval, with a decimal in the interval
  of the double (`Double.near_shortest`).
-/
import Mathlib.Algebra.Order.Field.Power
import Mathlib.Tactic.FieldSimp
import Mathlib.Tactic.Linarith
import Mathlib.Tactic.NormNum
import Mathlib.Tactic.Positivity
import Mathlib.Tactic.Ring
import SafeExpr.Number.Shortest
import SafeExpr.Proofs.Number.Exact

namespace SafeExpr

/-- The number that the decimal stands for. -/
def Decimal.value (d : Decimal) : ℚ := d.digits * 10 ^ d.exponent

namespace Double

/-! ### Doubles in the order of their bits -/

/-- A double is its sign and its magnitude. -/
theorem eq_of_magnitude {x y : Double} (hsign : x.isNegative = y.isNegative)
    (h : x.magnitude = y.magnitude) : x = y := by
  obtain ⟨bits⟩ := x
  obtain ⟨bits'⟩ := y
  have hbits := bits.toNat_lt
  have hbits' := bits'.toNat_lt
  simp only [isNegative, magnitude, Nat.pow_eq, decide_eq_decide] at hsign h
  refine congrArg Double.mk (UInt64.toNat_inj.mp ?_)
  omega

theorem magnitude_lt (x : Double) : x.magnitude < 2 ^ 63 := Nat.mod_lt _ (by decide)

theorem mantissa_lt (x : Double) : x.mantissa < 2 ^ 53 := by
  unfold mantissa
  simp only [Nat.pow_eq]
  split <;> omega

theorem le_exponent (x : Double) : -1074 ≤ x.exponent := by
  unfold exponent
  simp only [Nat.pow_eq]
  split <;> omega

theorem exponent_lt {x : Double} (h : x.isFinite = true) : x.exponent < 972 := by
  rw [isFinite, decide_eq_true_iff, infinityMagnitude, Nat.pow_eq] at h
  unfold exponent
  simp only [Nat.pow_eq]
  split <;> omega

theorem magnitude_eq_zero {x : Double} (h : x.mantissa = 0) : x.magnitude = 0 := by
  unfold mantissa at h
  simp only [Nat.pow_eq] at h
  split at h <;> omega

/-- A double and its mantissa are odd or even alike. -/
theorem mantissa_mod_two (x : Double) : x.mantissa % 2 = x.magnitude % 2 := by
  unfold mantissa
  simp only [Nat.pow_eq]
  split <;> omega

/-- A greater double has the greater exponent, or the same and the greater mantissa. -/
theorem fields_of_magnitude_lt {x y : Double} (h : x.magnitude < y.magnitude) :
    x.exponent = y.exponent ∧ x.mantissa < y.mantissa ∨
      x.exponent < y.exponent ∧ 2 ^ 52 ≤ y.mantissa := by
  unfold exponent mantissa
  simp only [Nat.pow_eq]
  split <;> split <;> omega

/-! ### Intervals -/

/-- A quarter of the unit of the mantissa, in which the ends of the interval are counted. -/
def quarter (x : Double) : ℚ := 2 ^ (x.exponent - 2)

theorem quarter_pos (x : Double) : 0 < x.quarter := zpow_pos (by norm_num) _

/-- The number rounds to the double. -/
def Near (x : Double) (v : ℚ) : Prop :=
  if x.rounding.closed then x.rounding.low * x.quarter ≤ v ∧ v ≤ x.rounding.high * x.quarter
  else x.rounding.low * x.quarter < v ∧ v < x.rounding.high * x.quarter

theorem Near.bounds {x : Double} {v : ℚ} (h : x.Near v) :
    x.rounding.low * x.quarter ≤ v ∧ v ≤ x.rounding.high * x.quarter := by
  unfold Near at h
  split at h
  · exact h
  · exact ⟨h.1.le, h.2.le⟩

theorem closed_iff (x : Double) : x.rounding.closed = true ↔ x.magnitude % 2 = 0 := by
  rw [← mantissa_mod_two]
  exact decide_eq_true_iff

/-- An end of the interval belongs to it if the mantissa is even. -/
theorem Near.even_of_end {x : Double} {v : ℚ} (h : x.Near v)
    (hend : v = x.rounding.low * x.quarter ∨ v = x.rounding.high * x.quarter) :
    x.magnitude % 2 = 0 := by
  rw [← closed_iff]
  by_contra hopen
  rw [Near, if_neg hopen] at h
  rcases hend with rfl | rfl
  · exact lt_irrefl _ h.1
  · exact lt_irrefl _ h.2

theorem rounding_bounds {x : Double} :
    4 * x.mantissa - 2 ≤ x.rounding.low ∧ x.rounding.low ≤ 4 * x.mantissa - 1 ∧
      x.rounding.value = 4 * x.mantissa ∧ x.rounding.high = 4 * x.mantissa + 2 := by
  unfold rounding
  dsimp only
  split <;> omega

/-- Below a power of two the interval reaches half as far, but not at the least exponent. -/
theorem low_of_exponent {x : Double} (hm : 2 ^ 52 ≤ x.mantissa) (he : -1074 < x.exponent) :
    2 ^ 54 - 1 ≤ x.rounding.low := by
  unfold rounding
  simp only [Nat.pow_eq, Bool.and_eq_true, decide_eq_true_eq, bne_iff_ne]
  split <;> omega

/-- The interval is wide for the mantissa. -/
theorem rounding_width (x : Double) :
    x.rounding.low * 10 ^ 16 + 4 * x.mantissa < x.rounding.high * 10 ^ 16 := by
  have := x.mantissa_lt
  unfold rounding
  simp only [Nat.pow_eq, Bool.and_eq_true, decide_eq_true_eq, bne_iff_ne]
  split <;> omega

/-- **The interval of the greater double lies above that of the smaller one.** -/
theorem high_le_low {x y : Double} (h : x.magnitude < y.magnitude) :
    x.rounding.high * x.quarter ≤ y.rounding.low * y.quarter := by
  obtain ⟨-, -, -, hhigh⟩ := rounding_bounds (x := x)
  rcases fields_of_magnitude_lt h with ⟨he, hm⟩ | ⟨he, hm⟩
  · have hle : x.rounding.high ≤ y.rounding.low := by
      have := (rounding_bounds (x := y)).1
      omega
    rw [quarter, quarter, he]
    exact mul_le_mul_of_nonneg_right (by exact_mod_cast hle) (zpow_pos (by norm_num) _).le
  · have hle : x.rounding.high ≤ y.rounding.low * 2 := by
      have hlow := low_of_exponent hm (by have := x.le_exponent; omega)
      have := x.mantissa_lt
      omega
    have hquarter : 2 * x.quarter ≤ y.quarter := by
      have hstep : 2 * x.quarter = 2 ^ (x.exponent - 2 + 1) := by
        rw [zpow_add_one₀ (by norm_num), mul_comm]
        rfl
      rw [hstep]
      exact zpow_le_zpow_right₀ (by norm_num) (by omega)
    have hx := x.quarter_pos
    calc (x.rounding.high : ℚ) * x.quarter
        ≤ (y.rounding.low * 2 : ℕ) * x.quarter :=
          mul_le_mul_of_nonneg_right (by exact_mod_cast hle) hx.le
      _ = y.rounding.low * (2 * x.quarter) := by push_cast; ring
      _ ≤ y.rounding.low * y.quarter := mul_le_mul_of_nonneg_left hquarter (Nat.cast_nonneg _)

theorem low_lt_high (x : Double) : x.rounding.low * x.quarter < x.rounding.high * x.quarter := by
  have hlt : x.rounding.low < x.rounding.high := by
    obtain ⟨-, hlow, -, hhigh⟩ := rounding_bounds (x := x)
    omega
  exact mul_lt_mul_of_pos_right (by exact_mod_cast hlt) x.quarter_pos

/-- No number rounds to two doubles.  Where two intervals meet, both doubles would have to be
    even, and there is an odd one between them. -/
theorem Near.magnitude_le {x y : Double} {v : ℚ} (hx : x.Near v) (hy : y.Near v) :
    y.magnitude ≤ x.magnitude := by
  by_contra hlt
  rw [not_le] at hlt
  have hmeet := high_le_low hlt
  have hhigh : v = x.rounding.high * x.quarter := le_antisymm hx.bounds.2 (hmeet.trans hy.bounds.1)
  have hlow : v = y.rounding.low * y.quarter := le_antisymm (hx.bounds.2.trans hmeet) hy.bounds.1
  have hxeven := hx.even_of_end (Or.inr hhigh)
  have hyeven := hy.even_of_end (Or.inl hlow)
  have hnext : (ofMagnitude false (x.magnitude + 1)).magnitude = x.magnitude + 1 :=
    magnitude_ofMagnitude (by have := y.magnitude_lt; omega)
  have hbelow : x.magnitude < (ofMagnitude false (x.magnitude + 1)).magnitude := by omega
  have habove : (ofMagnitude false (x.magnitude + 1)).magnitude < y.magnitude := by omega
  have hgap := ((high_le_low hbelow).trans_lt (low_lt_high _)).trans_le (high_le_low habove)
  rw [← hhigh, ← hlow] at hgap
  exact lt_irrefl v hgap

theorem Near.unique {x y : Double} {v : ℚ} (hx : x.Near v) (hy : y.Near v) :
    x.magnitude = y.magnitude := le_antisymm (hy.magnitude_le hx) (hx.magnitude_le hy)

theorem Near.pos {x : Double} {v : ℚ} (h : x.Near v) (hm : x.mantissa ≠ 0) : 0 < v := by
  have hlow : 0 < x.rounding.low := by
    have := (rounding_bounds (x := x)).1
    omega
  exact (mul_pos (by exact_mod_cast hlow) x.quarter_pos).trans_le h.bounds.1

/-! ### One grid -/

section Grid

variable {r : Rounding} {tie : Tie} {up unit : Nat}

/-- What is taken of a grid lies in the interval. -/
theorem holds_of_onGrid {c : Nat} (h : onGrid r tie up unit = some c) :
    r.holds up (c * unit) = true := by
  unfold onGrid at h
  dsimp only at h
  split at h
  · next hleft _ =>
    cases h
    exact hleft
  · next _ hright =>
    cases h
    exact hright
  · cases h
  · next hleft hright =>
    have hone : c = r.value * up / unit ∨ c = r.value * up / unit + 1 := by
      split at h
      · exact Or.inl (Option.some.inj h).symm
      · split at h
        · exact Or.inr (Option.some.inj h).symm
        · split at h
          · exact Or.inr (Option.some.inj h).symm
          · split at h
            · exact Or.inl (Option.some.inj h).symm
            · exact Or.inr (Option.some.inj h).symm
    rcases hone with rfl | rfl
    · exact hleft
    · exact hright

/-- Where nothing is taken, the interval is no wider than the grid: the neighbours of the
    value are on both sides of it. -/
theorem width_le_of_onGrid (hlow : r.low < r.value) (hhigh : r.value < r.high) (hup : 0 < up)
    (hunit : 0 < unit) (h : onGrid r tie up unit = none) :
    r.high * up ≤ r.low * up + unit := by
  have hboth : r.holds up (r.value * up / unit * unit) = false ∧
      r.holds up ((r.value * up / unit + 1) * unit) = false := by
    unfold onGrid at h
    dsimp only at h
    split at h
    · cases h
    · cases h
    · next hleft hright => exact ⟨hleft, hright⟩
    · split at h
      · cases h
      · split at h
        · cases h
        · split at h <;> cases h
  have hbelow : r.low * up < r.value * up := Nat.mul_lt_mul_of_pos_right hlow hup
  have habove : r.value * up < r.high * up := Nat.mul_lt_mul_of_pos_right hhigh hup
  have hfloor : r.value * up / unit * unit ≤ r.value * up := Nat.div_mul_le_self _ _
  have hceil : r.value * up < (r.value * up / unit + 1) * unit := by
    rw [Nat.add_mul, Nat.one_mul, Nat.mul_comm (r.value * up / unit)]
    exact Nat.lt_mul_div_succ _ hunit
  have hnext : (r.value * up / unit + 1) * unit = r.value * up / unit * unit + unit := by
    rw [Nat.add_mul, Nat.one_mul]
  rw [hnext] at hboth hceil
  generalize r.value * up / unit * unit = left at *
  obtain ⟨hleft, hright⟩ := hboth
  unfold Rounding.holds at hleft hright
  by_cases hclosed : r.closed = true
  · rw [if_pos hclosed, Bool.and_eq_false_iff, decide_eq_false_iff_not,
      decide_eq_false_iff_not] at hleft hright
    omega
  · rw [if_neg hclosed, Bool.and_eq_false_iff, decide_eq_false_iff_not,
      decide_eq_false_iff_not] at hleft hright
    omega

end Grid

/-! ### The search -/

/-- The grid of exponent `k` in units of the interval: `unit` is one step of the grid, and `up` a
    quarter of the double's unit. -/
structure Scaled (x : Double) (k : Int) (up unit : Nat) (factor : ℚ) : Prop where
  pos : 0 < factor
  up_eq : (up : ℚ) = factor * x.quarter
  unit_eq : (unit : ℚ) = factor * 10 ^ k

/-- A power with the part of its exponent that is not negative. -/
theorem pow_toNat {b : ℚ} (hb : b ≠ 0) (k : Int) : b ^ k.toNat = b ^ (-k).toNat * b ^ k := by
  have hsum : (k.toNat : Int) = (-k).toNat + k := by omega
  rw [← zpow_natCast b k.toNat, hsum, zpow_add₀ hb, zpow_natCast]

theorem scaled (x : Double) (k : Int) :
    x.Scaled k (Nat.pow 2 (x.exponent - 2).toNat * Nat.pow 10 (-k).toNat)
      (Nat.pow 10 k.toNat * Nat.pow 2 (-(x.exponent - 2)).toNat)
      (2 ^ (-(x.exponent - 2)).toNat * 10 ^ (-k).toNat) := by
  constructor
  · positivity
  · push_cast [Nat.pow_eq]
    rw [pow_toNat two_ne_zero, quarter]
    ring
  · push_cast [Nat.pow_eq]
    rw [pow_toNat (by norm_num : (10 : ℚ) ≠ 0) k]
    ring

namespace Scaled

variable {x : Double} {k : Int} {up unit : Nat} {factor : ℚ} (h : x.Scaled k up unit factor)
include h

theorem cast_mul_up (a : Nat) : ((a * up : ℕ) : ℚ) = factor * (a * x.quarter) := by
  rw [Nat.cast_mul, h.up_eq]
  ring

theorem cast_mul_unit (c : Nat) : ((c * unit : ℕ) : ℚ) = factor * (c * 10 ^ k) := by
  rw [Nat.cast_mul, h.unit_eq]
  ring

theorem near_of_holds {c : Nat} (hc : x.rounding.holds up (c * unit) = true) :
    x.Near (c * 10 ^ k) := by
  unfold Rounding.holds at hc
  unfold Near
  split at hc
  · next hclosed =>
    rw [Bool.and_eq_true, decide_eq_true_eq, decide_eq_true_eq, ← Nat.cast_le (α := ℚ),
      ← Nat.cast_le (α := ℚ), h.cast_mul_up, h.cast_mul_up, h.cast_mul_unit,
      mul_le_mul_iff_right₀ h.pos, mul_le_mul_iff_right₀ h.pos] at hc
    rwa [if_pos hclosed]
  · next hopen =>
    rw [Bool.and_eq_true, decide_eq_true_eq, decide_eq_true_eq, ← Nat.cast_lt (α := ℚ),
      ← Nat.cast_lt (α := ℚ), h.cast_mul_up, h.cast_mul_up, h.cast_mul_unit,
      mul_lt_mul_iff_right₀ h.pos, mul_lt_mul_iff_right₀ h.pos] at hc
    rwa [if_neg hopen]

theorem up_pos : 0 < up := by
  have hup : (0 : ℚ) < up := by
    rw [h.up_eq]
    exact mul_pos h.pos x.quarter_pos
  exact_mod_cast hup

theorem unit_pos : 0 < unit := by
  have hunit : (0 : ℚ) < unit := by
    rw [h.unit_eq]
    exact mul_pos h.pos (zpow_pos (by norm_num) k)
  exact_mod_cast hunit

/-- The interval is wider than the grid of seventeen digits. -/
theorem exists_onGrid (tie : Tie) (hm : x.mantissa ≠ 0)
    (htop : 10 ^ (k + 16) ≤ 4 * x.mantissa * x.quarter) :
    ∃ c, onGrid x.rounding tie up unit = some c := by
  rw [← Option.ne_none_iff_exists']
  intro hnone
  obtain ⟨-, hlow, hvalue, hhigh⟩ := rounding_bounds (x := x)
  have hwidth := width_le_of_onGrid (by omega) (by omega) h.up_pos h.unit_pos hnone
  have hunit := h.cast_mul_unit 1
  rw [Nat.one_mul] at hunit
  rw [← Nat.cast_le (α := ℚ), Nat.cast_add, h.cast_mul_up, h.cast_mul_up, hunit, ← mul_add,
    mul_le_mul_iff_right₀ h.pos, Nat.cast_one, one_mul] at hwidth
  have hstep : (10 : ℚ) ^ (k + 16) = 10 ^ k * 10 ^ 16 := zpow_add₀ (by norm_num) k 16
  have hq := x.quarter_pos
  have hnarrow : (x.rounding.high : ℚ) * 10 ^ 16 * x.quarter ≤
      (x.rounding.low * 10 ^ 16 + 4 * x.mantissa) * x.quarter := by
    rw [hstep] at htop
    linarith
  rw [mul_le_mul_iff_left₀ hq] at hnarrow
  have hcount : x.rounding.high * 10 ^ 16 ≤ x.rounding.low * 10 ^ 16 + 4 * x.mantissa := by
    exact_mod_cast hnarrow
  exact absurd x.rounding_width (Nat.not_lt.mpr hcount)

end Scaled

/-- **The search finds a decimal in the interval**, if it starts at the first digit. -/
theorem near_searchGrids {x : Double} (tie : Tie) {top : Int} (hm : x.mantissa ≠ 0)
    (htop : 10 ^ top ≤ 4 * x.mantissa * x.quarter) {fuel n : Nat} (hn : fuel + n = 17) :
    x.Near (searchGrids x tie top (fuel + 1) n).value := by
  induction fuel generalizing n with
  | zero =>
    have hgrid := x.scaled (top + 1 - n)
    obtain ⟨c, hc⟩ := hgrid.exists_onGrid tie hm (by
      rwa [show top + 1 - (n : Int) + 16 = top by omega])
    rw [searchGrids, hc]
    exact hgrid.near_of_holds (holds_of_onGrid hc)
  | succ fuel ih =>
    rw [searchGrids]
    split
    · next c hc => exact (x.scaled _).near_of_holds (holds_of_onGrid hc)
    · exact ih (by omega)

/-! ### The first digit -/

/-- The estimate of the decimal exponent by the binary one is at most one too large. -/
theorem pow_estimate_le (l : Nat) (h : l ≤ 1100) : 10 ^ (l * 30103 / 100000) ≤ 5 * 2 ^ l := by
  have hall : (List.range 1101).all (fun l =>
      Nat.ble (Nat.pow 10 (l * 30103 / 100000)) (5 * Nat.pow 2 l)) = true := by
    decide +kernel
  exact Nat.le_of_ble_eq_true (List.all_eq_true.mp hall l (List.mem_range.mpr (by omega)))

/-- … and below one not too large at all. -/
theorem two_pow_le_estimate (l : Nat) (h : l ≤ 1100) :
    2 ^ l ≤ 10 ^ ((l * 30103 + 99999) / 100000) := by
  have hall : (List.range 1101).all (fun l =>
      Nat.ble (Nat.pow 2 l) (Nat.pow 10 ((l * 30103 + 99999) / 100000))) = true := by
    decide +kernel
  exact Nat.le_of_ble_eq_true (List.all_eq_true.mp hall l (List.mem_range.mpr (by omega)))

theorem pow_estimate_sub_one_le {l : Int} (hlow : -1100 ≤ l) (hhigh : l ≤ 1100) :
    (10 : ℚ) ^ (l * 30103 / 100000 - 1) ≤ 2 ^ (l - 1) := by
  rw [zpow_sub_one₀ (by norm_num), zpow_sub_one₀ two_ne_zero]
  rcases Int.le_total 0 l with hl | hl
  · obtain ⟨n, rfl⟩ := Int.eq_ofNat_of_zero_le hl
    have hpow := pow_estimate_le n (by omega)
    have hexp : (n : Int) * 30103 / 100000 = (n * 30103 / 100000 : ℕ) := by push_cast; rfl
    rw [hexp, zpow_natCast, zpow_natCast]
    have hpow' : (10 : ℚ) ^ (n * 30103 / 100000) ≤ 5 * 2 ^ n := by exact_mod_cast hpow
    linarith
  · obtain ⟨n, hn⟩ := Int.eq_ofNat_of_zero_le (Int.neg_nonneg.mpr hl)
    obtain rfl : l = -(n : Int) := by omega
    have hpow := two_pow_le_estimate n (by omega)
    have hexp : -(n : Int) * 30103 / 100000 = -((n * 30103 + 99999) / 100000 : ℕ) := by
      omega
    rw [hexp, zpow_neg, zpow_neg, zpow_natCast, zpow_natCast]
    have hpow' : (2 : ℚ) ^ n ≤ 10 ^ ((n * 30103 + 99999) / 100000) := by exact_mod_cast hpow
    have hinv : ((10 : ℚ) ^ ((n * 30103 + 99999) / 100000))⁻¹ ≤ (2 ^ n)⁻¹ :=
      inv_anti₀ (by positivity) hpow'
    have hpos : (0 : ℚ) < (2 ^ n)⁻¹ := by positivity
    linarith

/-- `10^p ≤ n / d` -/
def reaches (n d : Nat) (p : Int) : Bool :=
  if 0 ≤ p then d * Nat.pow 10 p.toNat ≤ n else d ≤ n * Nat.pow 10 (-p).toNat

theorem le_of_reaches {n d : Nat} (hd : d ≠ 0) {p : Int} (h : reaches n d p = true) :
    (10 : ℚ) ^ p ≤ n / d := by
  have hdpos : (0 : ℚ) < d := by exact_mod_cast Nat.pos_of_ne_zero hd
  rw [le_div_iff₀ hdpos]
  unfold reaches at h
  split at h
  · next hsign =>
    have hle : (d : ℚ) * 10 ^ p.toNat ≤ n := by exact_mod_cast of_decide_eq_true h
    rw [← Int.toNat_of_nonneg hsign, zpow_natCast]
    linarith
  · next hsign =>
    have hle : (d : ℚ) ≤ n * 10 ^ (-p).toNat := by exact_mod_cast of_decide_eq_true h
    have hp : p = -((-p).toNat : Int) := by omega
    rw [hp, zpow_neg, zpow_natCast, inv_mul_le_iff₀ (by positivity)]
    linarith

/-- The estimate is corrected upwards where more is reached. -/
theorem decimalExponent_cases (n d : Nat) :
    reaches n d (decimalExponent n d) = true ∨
      decimalExponent n d = ((n.log2 : Int) - d.log2) * 30103 / 100000 - 1 := by
  have hcases : ∀ (atLeast : Int → Bool) (p : Int),
      atLeast (if atLeast (p + 1) then p + 1 else if atLeast p then p else p - 1) = true ∨
        (if atLeast (p + 1) then p + 1 else if atLeast p then p else p - 1) = p - 1 := by
    intro atLeast p
    split
    · next h => exact Or.inl h
    · split
      · next h => exact Or.inl h
      · exact Or.inr rfl
  exact hcases (reaches n d) _

/-- The decimal exponent of a fraction is that of its first digit, or lies below. -/
theorem pow_decimalExponent_le {n d : Nat} (hn : n ≠ 0) (hd : d ≠ 0) (hlow : d.log2 ≤ 1100)
    (hhigh : n.log2 ≤ 1100) : (10 : ℚ) ^ decimalExponent n d ≤ n / d := by
  rcases decimalExponent_cases n d with hreaches | hlast
  · exact le_of_reaches hd hreaches
  · rw [hlast]
    refine (pow_estimate_sub_one_le (by omega) (by omega)).trans ?_
    rw [le_div_iff₀ (by exact_mod_cast Nat.pos_of_ne_zero hd)]
    have hbelow : (2 : ℚ) ^ n.log2 ≤ n := by exact_mod_cast Nat.log2_self_le hn
    have habove : (d : ℚ) ≤ 2 ^ (d.log2 + 1) := by exact_mod_cast Nat.lt_log2_self.le
    calc (2 : ℚ) ^ ((n.log2 : Int) - d.log2 - 1) * d
        ≤ 2 ^ ((n.log2 : Int) - d.log2 - 1) * 2 ^ (d.log2 + 1) :=
          mul_le_mul_of_nonneg_left habove (zpow_pos (by norm_num) _).le
      _ = 2 ^ n.log2 := by
          rw [← zpow_natCast, ← zpow_natCast, ← zpow_add₀ two_ne_zero]
          congr 1
          push_cast
          ring
      _ ≤ n := hbelow

/-! ### The shortest decimal -/

theorem value_trim (fuel : Nat) (d : Decimal) : (Decimal.trim fuel d).value = d.value := by
  induction fuel generalizing d with
  | zero => rfl
  | succ fuel ih =>
    rw [Decimal.trim]
    split
    · next h =>
      rw [Bool.and_eq_true, decide_eq_true_eq] at h
      have hdigits : d.digits = d.digits / 10 * 10 := by omega
      rw [ih, Decimal.value, Decimal.value, zpow_add_one₀ (by norm_num)]
      conv_rhs => rw [hdigits]
      push_cast
      ring
    · rfl

section Fraction

variable {x : Double}

/-- The double is this fraction of whole numbers. -/
theorem fraction_eq (x : Double) :
    ((x.mantissa * Nat.pow 2 x.exponent.toNat : ℕ) : ℚ) / (Nat.pow 2 (-x.exponent).toNat : ℕ) =
      4 * x.mantissa * x.quarter := by
  push_cast [Nat.pow_eq]
  rw [pow_toNat two_ne_zero x.exponent, quarter, zpow_sub₀ two_ne_zero]
  field_simp
  norm_num

theorem numerator_ne_zero (hm : x.mantissa ≠ 0) : x.mantissa * Nat.pow 2 x.exponent.toNat ≠ 0 :=
  Nat.mul_ne_zero hm (Nat.pos_iff_ne_zero.mp (Nat.two_pow_pos _))

theorem log2_numerator_le (hfinite : x.isFinite = true) (hm : x.mantissa ≠ 0) :
    (x.mantissa * Nat.pow 2 x.exponent.toNat).log2 ≤ 1100 := by
  have hexp : x.exponent.toNat ≤ 971 := by
    have := exponent_lt hfinite
    omega
  have hlt : x.mantissa * Nat.pow 2 x.exponent.toNat < 2 ^ 53 * 2 ^ x.exponent.toNat :=
    Nat.mul_lt_mul_of_pos_right x.mantissa_lt (Nat.two_pow_pos _)
  rw [← Nat.pow_add, ← Nat.log2_lt (numerator_ne_zero hm)] at hlt
  omega

theorem denominator_ne_zero (x : Double) : Nat.pow 2 (-x.exponent).toNat ≠ 0 :=
  Nat.pos_iff_ne_zero.mp (Nat.two_pow_pos _)

theorem log2_denominator_le (x : Double) : (Nat.pow 2 (-x.exponent).toNat).log2 ≤ 1100 := by
  rw [Nat.pow_eq, Nat.log2_two_pow]
  have := x.le_exponent
  omega

end Fraction

/-- **The shortest decimal of a double rounds to it.** -/
theorem near_shortest {x : Double} (tie : Tie) (hfinite : x.isFinite = true)
    (hm : x.mantissa ≠ 0) : x.Near (x.shortest tie).value := by
  have htop := pow_decimalExponent_le (numerator_ne_zero hm) x.denominator_ne_zero
    x.log2_denominator_le (log2_numerator_le hfinite hm)
  rw [fraction_eq] at htop
  unfold shortest
  rw [if_neg hm]
  dsimp only
  rw [value_trim]
  exact near_searchGrids tie hm htop rfl

/-- **Doubles with the same shortest decimal are the same**, but for the sign. -/
theorem magnitude_eq_of_shortest {x y : Double} {tie : Tie} (hx : x.isFinite = true)
    (hy : y.isFinite = true) (h : (x.shortest tie).value = (y.shortest tie).value) :
    x.magnitude = y.magnitude := by
  have hzero : ∀ {z : Double}, z.mantissa = 0 → (z.shortest tie).value = 0 := by
    intro z hz
    rw [shortest, if_pos hz]
    simp [Decimal.value]
  by_cases hmx : x.mantissa = 0 <;> by_cases hmy : y.mantissa = 0
  · rw [magnitude_eq_zero hmx, magnitude_eq_zero hmy]
  · have hpos := (near_shortest tie hy hmy).pos hmy
    rw [← h, hzero hmx] at hpos
    exact absurd hpos (lt_irrefl 0)
  · have hpos := (near_shortest tie hx hmx).pos hmx
    rw [h, hzero hmy] at hpos
    exact absurd hpos (lt_irrefl 0)
  · have hnear := near_shortest tie hx hmx
    rw [h] at hnear
    exact hnear.unique (near_shortest tie hy hmy)

end Double

end SafeExpr
