/-
  SafeExpr/Proofs/Number/Exact.lean
  =================================
  **The nearest doubles of integers.**

  Up to `2^53` the nearest double of an integer keeps all its digits, so small integers are told
  apart by their doubles.  The bits of the exponent tell how long the integer is, and those of
  the mantissa what it is.

  Of two integers the greater one has no smaller double.  Where they are of the same length
  both are divided by the same power of two, and rounding a quotient is monotone.  A longer
  integer has a greater exponent, and what rounding may add to the mantissa of the shorter
  one carries no farther than to that exponent.
-/
import Mathlib.Algebra.Order.Ring.Nat
import SafeExpr.Number.Double

namespace SafeExpr.Double

/-! ### Sign and magnitude -/

theorem bits_ofMagnitude {negative : Bool} {m : Nat} (hm : m < 2 ^ 63) :
    (ofMagnitude negative m).bits.toNat = (if negative then 2 ^ 63 else 0) + m := by
  have hfit : (if negative then Nat.pow 2 63 else 0) + m < 2 ^ 64 := by
    cases negative
    · simp
      omega
    · simp
      omega
  rw [ofMagnitude, UInt64.toNat_ofNat_of_lt' hfit]
  rfl

theorem magnitude_ofMagnitude {negative : Bool} {m : Nat} (hm : m < 2 ^ 63) :
    (ofMagnitude negative m).magnitude = m := by
  rw [magnitude, bits_ofMagnitude hm]
  cases negative <;> simp <;> omega

theorem isNegative_ofMagnitude {negative : Bool} {m : Nat} (hm : m < 2 ^ 63) :
    (ofMagnitude negative m).isNegative = negative := by
  rw [isNegative, bits_ofMagnitude hm]
  cases negative
  · simpa using hm
  · simp

/-- The key of a double with a given sign and magnitude. -/
theorem key_ofMagnitude {negative : Bool} {m : Nat} (hm : m < 2 ^ 63) :
    (ofMagnitude negative m).key = if negative then -(m : Int) else m := by
  rw [key, magnitude_ofMagnitude hm, isNegative_ofMagnitude hm]

theorem isNaN_ofMagnitude {negative : Bool} {m : Nat} (hm : m ≤ infinityMagnitude) :
    (ofMagnitude negative m).isNaN = false := by
  have hfit : m < 2 ^ 63 := Nat.lt_of_le_of_lt hm (by decide)
  rw [isNaN, magnitude_ofMagnitude hfit]
  exact decide_eq_false (Nat.not_lt.mpr hm)

/-! ### Rounding that changes nothing -/

/-- The mantissa of a positive integer below `2^53`. -/
theorem mantissa_bounds {m : Nat} (hpos : m ≠ 0) (hm : m < 2 ^ 53) :
    m.log2 ≤ 52 ∧ 2 ^ 52 ≤ m * 2 ^ (52 - m.log2) ∧ m * 2 ^ (52 - m.log2) < 2 ^ 53 := by
  have hlog : m.log2 ≤ 52 := Nat.lt_succ_iff.mp ((Nat.log2_lt hpos).mpr hm)
  refine ⟨hlog, ?_, ?_⟩
  · have := Nat.mul_le_mul_right (2 ^ (52 - m.log2)) (Nat.log2_self_le hpos)
    rwa [← Nat.pow_add, Nat.add_sub_cancel' hlog] at this
  · have := Nat.mul_lt_mul_of_pos_right (Nat.lt_log2_self (n := m))
      (Nat.two_pow_pos (52 - m.log2))
    rwa [← Nat.pow_add, show m.log2 + 1 + (52 - m.log2) = 53 by omega] at this

theorem roundMagnitude_of_lt {m : Nat} (hpos : m ≠ 0) (hm : m < 2 ^ 53) :
    roundMagnitude m 0 = (m.log2 + 1022) * 2 ^ 52 + m * 2 ^ (52 - m.log2) := by
  obtain ⟨hlog, -, hlt⟩ := mantissa_bounds hpos hm
  have hexponent : max ((0 : Int) + (m.log2 + 1 : Nat) - 53) (-1074) = (m.log2 : Int) - 52 := by
    omega
  have hshift : (0 - ((m.log2 : Int) - 52)).toNat = 52 - m.log2 := by omega
  have hfield : ((m.log2 : Int) - 52 + 1074).toNat = m.log2 + 1022 := by omega
  rw [roundMagnitude, if_neg hpos]
  dsimp only
  rw [hexponent, if_pos (by omega), hshift, hfield, Nat.min_eq_left]
  · rfl
  · simp only [infinityMagnitude, Nat.pow_eq]
    omega

theorem roundMagnitude_two_pow : roundMagnitude (2 ^ 53) 0 = (53 + 1022) * 2 ^ 52 + 2 ^ 52 := by
  decide

theorem roundMagnitude_inj {m n : Nat} (hm : m ≤ 2 ^ 53) (hn : n ≤ 2 ^ 53)
    (h : roundMagnitude m 0 = roundMagnitude n 0) : m = n := by
  -- how long the integer is, and the digits, from the magnitude
  have hparts : ∀ k : Nat, k ≤ 2 ^ 53 → k ≠ 0 → ∃ d, roundMagnitude k 0 =
      (k.log2 + 1022) * 2 ^ 52 + d ∧ 2 ^ 52 ≤ d ∧ d < 2 ^ 53 ∧ k.log2 ≤ 53 ∧
        d * 2 ^ k.log2 = k * 2 ^ 52 := by
    intro k hk hpos
    rcases Nat.lt_or_eq_of_le hk with hlt | rfl
    · obtain ⟨hlog, hle, hless⟩ := mantissa_bounds hpos hlt
      refine ⟨_, roundMagnitude_of_lt hpos hlt, hle, hless, by omega, ?_⟩
      rw [Nat.mul_assoc, ← Nat.pow_add, Nat.sub_add_cancel hlog]
    · exact ⟨2 ^ 52, roundMagnitude_two_pow, by decide, by decide, by decide, by decide⟩
  have hzero : roundMagnitude 0 0 = 0 := rfl
  by_cases hm0 : m = 0
  · by_cases hn0 : n = 0
    · rw [hm0, hn0]
    · obtain ⟨d, hd, -⟩ := hparts n hn hn0
      rw [hm0, hzero, hd] at h
      omega
  · obtain ⟨d, hd, hle, hlt, -, hdigits⟩ := hparts m hm hm0
    by_cases hn0 : n = 0
    · rw [hn0, hzero, hd] at h
      omega
    · obtain ⟨d', hd', hle', hlt', -, hdigits'⟩ := hparts n hn hn0
      rw [hd, hd'] at h
      have hlog : m.log2 = n.log2 := by omega
      have hsame : d = d' := by omega
      rw [hlog, hsame] at hdigits
      have := hdigits.symm.trans hdigits'
      exact Nat.eq_of_mul_eq_mul_right (by decide) this

/-! ### Keys of integers -/

theorem roundMagnitude_le (m : Nat) (e : Int) : roundMagnitude m e ≤ infinityMagnitude := by
  unfold roundMagnitude
  split
  · exact Nat.zero_le _
  · exact Nat.min_le_right _ _

theorem roundMagnitude_lt (m : Nat) (e : Int) : roundMagnitude m e < 2 ^ 63 :=
  Nat.lt_of_le_of_lt (roundMagnitude_le m e) (by decide)

/-- A decimal is read as a number of its sign, or an infinity. -/
theorem ofDecimal_eq (negative : Bool) (n : Nat) (e : Int) :
    ∃ m ≤ infinityMagnitude, ofDecimal negative n e = ofMagnitude negative m := by
  unfold ofDecimal
  dsimp only
  split
  · exact ⟨0, Nat.zero_le _, rfl⟩
  · split
    · exact ⟨infinityMagnitude, le_refl _, rfl⟩
    · split
      · exact ⟨0, Nat.zero_le _, rfl⟩
      · split
        · exact ⟨_, roundMagnitude_le _ _, rfl⟩
        · exact ⟨_, roundMagnitude_le _ _, rfl⟩

theorem ofInt_key (n : Int) : (ofInt n).key =
    if n < 0 then -(roundMagnitude n.natAbs 0 : Int) else roundMagnitude n.natAbs 0 := by
  rw [ofInt, ofScaled, key_ofMagnitude (roundMagnitude_lt _ _)]
  simp

/-- **Integers up to `2^53` have different doubles.** -/
theorem ofInt_key_inj {m n : Int} (hm : m.natAbs ≤ 2 ^ 53) (hn : n.natAbs ≤ 2 ^ 53)
    (h : (ofInt m).key = (ofInt n).key) : m = n := by
  -- only zero has the key of zero
  have hzero : ∀ k : Int, k.natAbs ≤ 2 ^ 53 → roundMagnitude k.natAbs 0 = 0 → k = 0 := by
    intro k hk hround
    have := roundMagnitude_inj hk (Nat.zero_le _) (hround.trans (rfl : 0 = roundMagnitude 0 0))
    exact Int.natAbs_eq_zero.mp this
  rw [ofInt_key, ofInt_key] at h
  split at h <;> split at h
  · have := roundMagnitude_inj hm hn (by omega)
    omega
  · have := hzero m hm (by omega)
    omega
  · have := hzero n hn (by omega)
    omega
  · have := roundMagnitude_inj hm hn (by omega)
    omega

/-! ### Rounding a quotient -/

theorem divHalfEven_bounds (n d : Nat) :
    n / d ≤ divHalfEven n d ∧ divHalfEven n d ≤ n / d + 1 := by
  simp only [divHalfEven]
  split
  · omega
  · split
    · omega
    · split <;> omega

/-- When a quotient is rounded up. -/
theorem divHalfEven_eq_succ_iff (n d : Nat) : divHalfEven n d = n / d + 1 ↔
    d < 2 * (n % d) ∨ (2 * (n % d) = d ∧ n / d % 2 = 1) := by
  simp only [divHalfEven]
  split
  · omega
  · split
    · omega
    · split <;> omega

theorem divHalfEven_mono {m n : Nat} (d : Nat) (h : m ≤ n) :
    divHalfEven m d ≤ divHalfEven n d := by
  have hupper := (divHalfEven_bounds m d).2
  have hlower := (divHalfEven_bounds n d).1
  rcases Nat.lt_or_eq_of_le (Nat.div_le_div_right (c := d) h) with hless | hsame
  · omega
  · by_cases hup : divHalfEven m d = m / d + 1
    · -- of equal quotients the one with the greater remainder is rounded up too
      have hremainder : m % d ≤ n % d := by
        have hm := Nat.mod_add_div m d
        have hn := Nat.mod_add_div n d
        rw [hsame] at hm
        omega
      have hcondition := (divHalfEven_eq_succ_iff m d).mp hup
      have hup' : divHalfEven n d = n / d + 1 :=
        (divHalfEven_eq_succ_iff n d).mpr (by omega)
      omega
    · omega

/-! ### Magnitudes -/

/-- The mantissa that the magnitude of a positive integer keeps. -/
def keptBits (m : Nat) : Nat :=
  if m.log2 ≤ 52 then m * 2 ^ (52 - m.log2) else divHalfEven m (2 ^ (m.log2 - 52))

theorem roundMagnitude_eq {m : Nat} (hpos : m ≠ 0) :
    roundMagnitude m 0 = min ((m.log2 + 1022) * 2 ^ 52 + keptBits m) infinityMagnitude := by
  have hexponent : max ((0 : Int) + (m.log2 + 1 : Nat) - 53) (-1074) = (m.log2 : Int) - 52 := by
    omega
  have hfield : ((m.log2 : Int) - 52 + 1074).toNat = m.log2 + 1022 := by omega
  have hkept : (if (m.log2 : Int) - 52 ≤ 0 then m * Nat.pow 2 (0 - ((m.log2 : Int) - 52)).toNat
      else divHalfEven m (Nat.pow 2 ((m.log2 : Int) - 52 - 0).toNat)) = keptBits m := by
    unfold keptBits
    by_cases hlog : m.log2 ≤ 52
    · rw [if_pos hlog, if_pos (by omega), show (0 - ((m.log2 : Int) - 52)).toNat = 52 - m.log2 by
        omega]
      rfl
    · rw [if_neg hlog, if_neg (by omega), show ((m.log2 : Int) - 52 - 0).toNat = m.log2 - 52 by
        omega]
      rfl
  rw [roundMagnitude, if_neg hpos]
  dsimp only
  rw [hexponent, hfield, hkept]
  rfl

/-- The mantissa has 53 bits, or is the next power of two. -/
theorem keptBits_bounds {m : Nat} (hpos : m ≠ 0) : 2 ^ 52 ≤ keptBits m ∧ keptBits m ≤ 2 ^ 53 := by
  have hlow := Nat.log2_self_le hpos
  have hhigh := Nat.lt_log2_self (n := m)
  unfold keptBits
  split
  · next hlog =>
    have hsplit : 2 ^ m.log2 * 2 ^ (52 - m.log2) = 2 ^ 52 := by
      rw [← Nat.pow_add, Nat.add_sub_cancel' hlog]
    have hsplit' : 2 ^ (m.log2 + 1) * 2 ^ (52 - m.log2) = 2 ^ 53 := by
      rw [← Nat.pow_add, show m.log2 + 1 + (52 - m.log2) = 53 by omega]
    have hmin := Nat.mul_le_mul_right (2 ^ (52 - m.log2)) hlow
    have hmax := Nat.mul_le_mul_right (2 ^ (52 - m.log2)) (Nat.le_of_lt hhigh)
    rw [hsplit] at hmin
    rw [hsplit'] at hmax
    exact ⟨hmin, hmax⟩
  · next hlog =>
    have hunit : 0 < 2 ^ (m.log2 - 52) := Nat.two_pow_pos _
    have hsplit : 2 ^ 52 * 2 ^ (m.log2 - 52) = 2 ^ m.log2 := by
      rw [← Nat.pow_add, Nat.add_sub_cancel' (by omega)]
    have hsplit' : 2 ^ 53 * 2 ^ (m.log2 - 52) = 2 ^ (m.log2 + 1) := by
      rw [← Nat.pow_add, show 53 + (m.log2 - 52) = m.log2 + 1 by omega]
    have hmin : 2 ^ 52 ≤ m / 2 ^ (m.log2 - 52) := by
      rw [Nat.le_div_iff_mul_le hunit, hsplit]
      exact hlow
    have hmax : m / 2 ^ (m.log2 - 52) < 2 ^ 53 := by
      rw [Nat.div_lt_iff_lt_mul hunit, hsplit']
      exact hhigh
    have hbounds := divHalfEven_bounds m (2 ^ (m.log2 - 52))
    omega

theorem keptBits_mono {m n : Nat} (hlog : m.log2 = n.log2) (h : m ≤ n) :
    keptBits m ≤ keptBits n := by
  unfold keptBits
  rw [hlog]
  split
  · exact Nat.mul_le_mul_right _ h
  · exact divHalfEven_mono _ h

theorem log2_mono {m n : Nat} (hpos : m ≠ 0) (h : m ≤ n) : m.log2 ≤ n.log2 :=
  (Nat.le_log2 (by omega)).mpr (Nat.le_trans (Nat.log2_self_le hpos) h)

theorem roundMagnitude_mono {m n : Nat} (h : m ≤ n) :
    roundMagnitude m 0 ≤ roundMagnitude n 0 := by
  by_cases hm : m = 0
  · rw [hm]
    exact Nat.zero_le _
  · have hn : n ≠ 0 := by omega
    rw [roundMagnitude_eq hm, roundMagnitude_eq hn]
    have hmagnitude : (m.log2 + 1022) * 2 ^ 52 + keptBits m ≤
        (n.log2 + 1022) * 2 ^ 52 + keptBits n := by
      rcases Nat.lt_or_eq_of_le (log2_mono hm h) with hlog | hlog
      · have hupper := (keptBits_bounds hm).2
        have hlower := (keptBits_bounds hn).1
        omega
      · have hkept := keptBits_mono hlog h
        omega
    omega

/-- **A greater integer has no smaller double.** -/
theorem ofInt_key_mono {m n : Int} (h : m ≤ n) : (ofInt m).key ≤ (ofInt n).key := by
  rw [ofInt_key, ofInt_key]
  split
  · next hm =>
    split
    · have := roundMagnitude_mono (m := n.natAbs) (n := m.natAbs) (by omega)
      omega
    · omega
  · next hm =>
    rw [if_neg (by omega)]
    have := roundMagnitude_mono (m := m.natAbs) (n := n.natAbs) (by omega)
    omega

theorem ofInt_isNaN (n : Int) : (ofInt n).isNaN = false := isNaN_ofMagnitude (roundMagnitude_le _ _)

end SafeExpr.Double
