/-
  SafeExpr/Proofs/Library/Rounding.lean
  =====================================
  **Integers rounded to places before the point.**

  An integer is rounded to the nearest multiple of a power of ten, and to the even one where
  two multiples are as near (`NearestMultiple`).  Two multiples differ by the power at least,
  so one that is no farther than half of it is the nearest.

  Beyond eighteen places the result is zero, without a look at the integer.  That is right
  for all but nineteen places: half of `10^19` has 64 bits, and what is above it would round
  to `10^19`, which has not.
-/
import Mathlib.Algebra.Order.Ring.Int
import SafeExpr.Library.Builtins

namespace SafeExpr

namespace Builtins

/-! ### The nearest multiple -/

/-- `r` is the multiple of `scale` nearest to `n`, and the even one of two that are as near. -/
structure NearestMultiple (scale n r : Int) : Prop where
  dvd : scale ∣ r
  nearest : ∀ m, scale ∣ m → (r - n).natAbs ≤ (m - n).natAbs
  even : ∀ m, scale ∣ m → m ≠ r → (m - n).natAbs = (r - n).natAbs → 2 * scale ∣ r

section Nearest

variable {scale n q r s : Int}

theorem natAbs_sub_ge_of_dvd {m : Int} (hr : scale ∣ r) (hm : scale ∣ m) (hne : m ≠ r) :
    scale.natAbs ≤ (m - r).natAbs :=
  Int.natAbs_le_of_dvd_ne_zero (Int.dvd_sub hm hr) (by omega)

/-- There is only one. -/
theorem NearestMultiple.unique (hscale : 0 < scale) (hr : NearestMultiple scale n r)
    (hs : NearestMultiple scale n s) : r = s := by
  by_contra hne
  have hdistance := Nat.le_antisymm (hr.nearest s hs.dvd) (hs.nearest r hr.dvd)
  -- neighbours that are both even multiples would be too far from each other
  have hreven := hr.even s hs.dvd (Ne.symm hne) hdistance.symm
  have hseven := hs.even r hr.dvd hne hdistance
  have hapart := natAbs_sub_ge_of_dvd hseven hreven hne
  have hnext := hr.nearest (r + scale) (Int.dvd_add hr.dvd (Int.dvd_refl scale))
  have hprevious := hr.nearest (r - scale) (Int.dvd_sub hr.dvd (Int.dvd_refl scale))
  omega

/-- A multiple no farther than half of `scale` is the nearest one. -/
theorem NearestMultiple.of_close (hclose : 2 * (q * scale - n).natAbs ≤ scale)
    (htie : 2 * (q * scale - n).natAbs = scale → q % 2 = 0) :
    NearestMultiple scale n (q * scale) where
  dvd := Int.dvd_mul_left q scale
  nearest m hm := by
    by_cases hne : m = q * scale
    · rw [hne]
    · have hapart := natAbs_sub_ge_of_dvd (Int.dvd_mul_left q scale) hm hne
      omega
  even m hm hne hsame := by
    have hapart := natAbs_sub_ge_of_dvd (Int.dvd_mul_left q scale) hm hne
    have heven := htie (by omega)
    exact Int.mul_dvd_mul (Int.dvd_of_emod_eq_zero heven) (Int.dvd_refl scale)

/-- **Rounding to a multiple gives the nearest one.** -/
theorem roundToMultiple_nearest (hscale : 0 < scale) :
    NearestMultiple scale n (roundToMultiple n scale) := by
  have hdivision := Int.mul_ediv_add_emod n scale
  have hlow := Int.emod_nonneg n (Int.ne_of_gt hscale)
  have hhigh := Int.emod_lt_of_pos n hscale
  have hbelow : n / scale * scale - n = -(n % scale) := by
    rw [Int.mul_comm]
    omega
  have habove : (n / scale + 1) * scale - n = scale - n % scale := by
    rw [Int.add_mul, Int.one_mul]
    omega
  simp only [roundToMultiple, Bool.or_eq_true, Bool.and_eq_true, decide_eq_true_eq]
  split
  · next hup =>
    apply NearestMultiple.of_close
    · rw [habove]
      omega
    · rw [habove]
      omega
  · next hdown =>
    apply NearestMultiple.of_close
    · rw [hbelow]
      omega
    · rw [hbelow]
      omega

/-- What is no farther from zero than half of `scale` is rounded to zero. -/
theorem nearestMultiple_zero (h : 2 * n.natAbs ≤ scale) : NearestMultiple scale n 0 := by
  have hclose : NearestMultiple scale n (0 * scale) := by
    apply NearestMultiple.of_close
    · simpa using h
    · intro _
      rfl
  rwa [Int.zero_mul] at hclose

end Nearest

/-! ### Places -/

section Places

variable {n d : Int64}

/-- Nineteen places, and an integer above half of `10^19`. -/
def BeyondScale (n d : Int64) : Prop :=
  d.toInt = -19 ∧ 5000000000000000000 < n.toInt.natAbs

theorem roundInt_of_places (hlow : d < 0) (hhigh : -18 ≤ d.toInt) :
    roundInt n d.toInt =
      Library.exact "round" (roundToMultiple n.toInt (10 ^ (-d.toInt).toNat)) := by
  have hneg := Int64.lt_iff_toInt_lt.mp hlow
  rw [Int64.toInt_zero] at hneg
  have hplaces : (maxIntPlaces : Int) = 18 := rfl
  have hscale : ((Nat.pow 10 (-d.toInt).toNat : Nat) : Int) = 10 ^ (-d.toInt).toNat :=
    Int.natCast_pow 10 _
  rw [roundInt, if_neg (by omega), if_neg (by omega), hscale]

theorem roundInt_of_many_places (h : d.toInt < -18) : roundInt n d.toInt = .ok (.int 0) := by
  have hplaces : (maxIntPlaces : Int) = 18 := rfl
  rw [roundInt, if_neg (by omega), if_pos (by omega)]

/-- Beyond nineteen places every integer of 64 bits is nearer to zero than to anything else. -/
theorem nearestMultiple_zero_of_many_places (h : d.toInt < -18) (hwithin : ¬ BeyondScale n d) :
    NearestMultiple (10 ^ (-d.toInt).toNat) n.toInt 0 := by
  apply nearestMultiple_zero
  have hmin := n.le_toInt
  have hmax := n.toInt_lt
  unfold BeyondScale at hwithin
  by_cases hnineteen : d.toInt = -19
  · rw [hnineteen]
    change _ ≤ (10000000000000000000 : Int)
    omega
  · have hscale : (10 : Int) ^ 20 ≤ 10 ^ (-d.toInt).toNat :=
      pow_le_pow_right₀ (by decide) (by omega)
    omega

/-- **Rounding to places before the point.**  For a negative number of digits the result is
    the nearest multiple of the power of ten, or the overflow error where that has no 64
    bits; except for nineteen places and more than half of `10^19`, where it is zero
    although the nearest multiple is `10^19` or its negative. -/
theorem round_places (h : d < 0) :
    ∃ r : Int, NearestMultiple (10 ^ (-d.toInt).toNat) n.toInt r ∧
      (∀ s, NearestMultiple (10 ^ (-d.toInt).toNat) n.toInt s → s = r) ∧
      (¬ BeyondScale n d → round (.int n) (.int d) = Library.exact "round" r) ∧
      (BeyondScale n d →
        round (.int n) (.int d) = .ok (.int 0) ∧ r.natAbs = 10000000000000000000) := by
  have hround : round (.int n) (.int d) = roundInt n d.toInt := rfl
  have hscale : (0 : Int) < 10 ^ (-d.toInt).toNat := pow_pos (by decide) _
  have hone : ∀ {r}, NearestMultiple (10 ^ (-d.toInt).toNat) n.toInt r →
      ∀ s, NearestMultiple (10 ^ (-d.toInt).toNat) n.toInt s → s = r :=
    fun hr s hs => hs.unique hscale hr
  by_cases hplaces : -18 ≤ d.toInt
  · have hnearest := roundToMultiple_nearest (n := n.toInt) hscale
    refine ⟨_, hnearest, hone hnearest, fun _ => ?_, fun hbeyond => ?_⟩
    · rw [hround, roundInt_of_places h hplaces]
    · have hnineteen := hbeyond.1
      omega
  · rw [hround, roundInt_of_many_places (Int.not_le.mp hplaces)]
    by_cases hbeyond : BeyondScale n d
    · have hmin := n.le_toInt
      have hmax := n.toInt_lt
      obtain ⟨hnineteen, hlarge⟩ := hbeyond
      have hpower : (10 : Int) ^ (-d.toInt).toNat = 10000000000000000000 := by
        rw [hnineteen]
        rfl
      -- the multiple on the side of the integer
      have hnearest : NearestMultiple (10 ^ (-d.toInt).toNat) n.toInt
          ((if n.toInt < 0 then -1 else 1) * 10 ^ (-d.toInt).toNat) := by
        rw [hpower]
        apply NearestMultiple.of_close
        · split <;> omega
        · split <;> omega
      refine ⟨_, hnearest, hone hnearest, fun hwithin => absurd ⟨hnineteen, hlarge⟩ hwithin,
        fun _ => ⟨rfl, ?_⟩⟩
      rw [hpower]
      split <;> rfl
    · have hnearest :=
        nearestMultiple_zero_of_many_places (Int.not_le.mp hplaces) hbeyond
      exact ⟨0, hnearest, hone hnearest, fun _ => rfl, fun h => absurd h hbeyond⟩

/-- A tie goes to the even multiple, and nineteen places are too many to see that the
    largest integer is nearer to `10^19` than to zero. -/
example : round (.int 1250) (.int (-2)) = .ok (.int 1200) ∧
    round (.int 1350) (.int (-2)) = .ok (.int 1400) ∧
    round (.int 9223372036854775807) (.int (-19)) = .ok (.int 0) := by
  refine ⟨rfl, rfl, rfl⟩

end Places

end Builtins

end SafeExpr
