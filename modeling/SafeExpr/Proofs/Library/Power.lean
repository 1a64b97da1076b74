/-
  SafeExpr/Proofs/Library/Power.lean
  ==================================
  **Powers modulo a number.**

  `powerLoop` squares the base and halves the exponent, and reduces after every product.
  What it keeps is `r * b ^ e` modulo `m`; and as soon as something has been multiplied, its
  result is a remainder.  An exponent of zero multiplies nothing, so the result is then `1`,
  whatever the modulus: modulo `1` that is no remainder.  It is the only case of this kind,
  since the sign of a negative modulus is brought in by adding the modulus.
-/
import Mathlib.Data.Int.ModEq
import SafeExpr.Proofs.Machine.Builtins

namespace SafeExpr

namespace Builtins

/-! ### The loop -/

theorem pow_half (b : Int) (e : Nat) : b ^ e = b ^ (e % 2) * (b * b) ^ (e / 2) := by
  calc b ^ e = b ^ (e % 2 + 2 * (e / 2)) := by rw [Nat.mod_add_div]
    _ = b ^ (e % 2) * (b * b) ^ (e / 2) := by rw [pow_add, pow_mul, pow_two]

/-- **The loop keeps the power that is still to be multiplied, modulo `m`.** -/
theorem powerLoop_modEq (m : Int) (fuel : Nat) {e : Nat} (b r : Int)
    (he : e < Nat.pow 2 fuel) : powerLoop m fuel b e r ≡ r * b ^ e [ZMOD m] := by
  induction fuel generalizing b e r with
  | zero =>
    have hzero : e = 0 := Nat.lt_one_iff.mp he
    rw [powerLoop, hzero, pow_zero, mul_one]
  | succ fuel ih =>
    rw [powerLoop]
    split
    · next hzero => rw [hzero, pow_zero, mul_one]
    · have hhalf : e / 2 < Nat.pow 2 fuel := Nat.div_lt_of_lt_mul (by rwa [Nat.mul_comm])
      have hsquare : (b * b % m) ^ (e / 2) ≡ (b * b) ^ (e / 2) [ZMOD m] :=
        (Int.mod_modEq _ _).pow _
      refine (ih _ _ hhalf).trans ?_
      rw [pow_half b e]
      split
      · next hodd =>
        rw [hodd, pow_one, ← mul_assoc]
        exact (Int.mod_modEq _ _).mul hsquare
      · next heven =>
        have hmod : e % 2 = 0 := by omega
        rw [hmod, pow_zero, one_mul]
        exact hsquare.mul_left r

/-- What the loop returns is a remainder, if anything is multiplied or `r` is one. -/
theorem powerLoop_remainder {m : Int} (hm : m ≠ 0) (fuel : Nat) {e : Nat} (b r : Int)
    (he : e < Nat.pow 2 fuel) (hr : e = 0 → 0 ≤ r ∧ r < m.natAbs) :
    0 ≤ powerLoop m fuel b e r ∧ powerLoop m fuel b e r < m.natAbs := by
  induction fuel generalizing b e r with
  | zero => exact hr (Nat.lt_one_iff.mp he)
  | succ fuel ih =>
    rw [powerLoop]
    split
    · next hzero => exact hr hzero
    · have hhalf : e / 2 < Nat.pow 2 fuel := Nat.div_lt_of_lt_mul (by rwa [Nat.mul_comm])
      apply ih _ _ hhalf
      -- the last bit of an exponent is set
      intro hlast
      rw [if_pos (by omega)]
      exact ⟨Int.emod_nonneg _ hm, Int.emod_lt _ hm⟩

/-! ### Remainders with the sign of the modulus -/

/-- A remainder modulo `m` has the sign of `m`, and is less than it in absolute value. -/
def IsRemainder (m r : Int) : Prop := (0 < m ∧ 0 ≤ r ∧ r < m) ∨ (m < 0 ∧ m < r ∧ r ≤ 0)

theorem IsRemainder.eq_of_modEq {m r s : Int} (hr : IsRemainder m r) (hs : IsRemainder m s)
    (h : r ≡ s [ZMOD m]) : r = s := by
  have hsmall : (s - r).natAbs < m.natAbs := by
    rcases hr with ⟨hm, hr⟩ | ⟨hm, hr⟩ <;> rcases hs with ⟨hm', hs⟩ | ⟨hm', hs⟩ <;> omega
  have hzero := Int.eq_zero_of_dvd_of_natAbs_lt_natAbs h.dvd hsmall
  omega

/-- A remainder that is not negative, with the sign of the modulus. -/
theorem isRemainder_adjust {m r : Int} (hlow : 0 ≤ r) (hhigh : r < m.natAbs) :
    IsRemainder m (if m < 0 ∧ 0 < r then r + m else r) := by
  unfold IsRemainder
  split <;> omega

/-! ### Powers -/

section Powers

variable {b e m : Int64}

/-- The result before it is brought into 64 bits. -/
def powerRemainder (b e m : Int) : Int :=
  let r := powerLoop m 64 (b % m) e.toNat 1
  if m < 0 ∧ 0 < r then r + m else r

theorem powerModulo_eq_exact (he : 0 ≤ e) (hm : m ≠ 0) :
    powerModulo b e m = Library.exact "pow" (powerRemainder b.toInt e.toInt m.toInt) := by
  have hlow : ¬ e < 0 := Int64.not_lt.mpr he
  rw [powerModulo, if_neg hm, if_neg hlow, powerRemainder]
  simp only [Int64.lt_iff_toInt_lt, Int64.toInt_zero, Bool.and_eq_true, decide_eq_true_eq]

theorem toNat_lt_two_pow (e : Int64) : e.toInt.toNat < Nat.pow 2 64 := by
  have he := Machine.holds_toInt e
  rw [Machine.IntType.holds_i64] at he
  change _ < 18446744073709551616
  omega

theorem powerRemainder_modEq (b e m : Int64) :
    powerRemainder b.toInt e.toInt m.toInt ≡ b.toInt ^ e.toInt.toNat [ZMOD m.toInt] := by
  have hloop := powerLoop_modEq m.toInt 64 (b.toInt % m.toInt) 1 (toNat_lt_two_pow e)
  rw [one_mul] at hloop
  have hpower := hloop.trans ((Int.mod_modEq b.toInt m.toInt).pow e.toInt.toNat)
  simp only [powerRemainder]
  split
  · exact Int.add_modEq_right.trans hpower
  · exact hpower

theorem powerRemainder_isRemainder (hm : m ≠ 0) (h : ¬ (e = 0 ∧ m = 1)) (he : 0 ≤ e) :
    IsRemainder m.toInt (powerRemainder b.toInt e.toInt m.toInt) := by
  have hne : m.toInt ≠ 0 := fun h' => hm (Int64.toInt_inj.mp h')
  have hlow := Int64.le_iff_toInt_le.mp he
  rw [Int64.toInt_zero] at hlow
  by_cases hstart : e.toInt.toNat = 0 → (0 : Int) ≤ 1 ∧ (1 : Int) < m.toInt.natAbs
  · obtain ⟨hmin, hmax⟩ :=
      powerLoop_remainder hne 64 (b.toInt % m.toInt) 1 (toNat_lt_two_pow e) hstart
    exact isRemainder_adjust hmin hmax
  · -- nothing is multiplied, and one is no remainder: the modulus is minus one
    rw [Classical.not_imp] at hstart
    obtain ⟨hzero, hsmall⟩ := hstart
    have hzero' : e = 0 := Int64.toInt_inj.mp (by rw [Int64.toInt_zero]; omega)
    have hone : m.toInt ≠ 1 := fun h' => h ⟨hzero', Int64.toInt_inj.mp h'⟩
    have hminus : m.toInt = -1 := by omega
    have hvalue : powerRemainder b.toInt (Int64.toInt 0) (-1) = 0 := rfl
    rw [hzero', hminus, hvalue]
    exact Or.inr ⟨by decide, by decide, by decide⟩

/-- **Modular exponentiation.**  For an exponent of at least zero and a modulus other than
    zero the power is congruent to the exact one.  It is the one remainder with this
    property, except for the exponent zero modulo one, where it is `1`. -/
theorem pow_modulo (he : 0 ≤ e) (hm : m ≠ 0) :
    ∃ r : Int64, pow (.int b) (.int e) (.int m) = .ok (.int r) ∧
      r.toInt ≡ b.toInt ^ e.toInt.toNat [ZMOD m.toInt] ∧
      (¬ (e = 0 ∧ m = 1) → IsRemainder m.toInt r.toInt ∧
        ∀ s, IsRemainder m.toInt s → s ≡ b.toInt ^ e.toInt.toNat [ZMOD m.toInt] →
          s = r.toInt) ∧
      (e = 0 ∧ m = 1 → r = 1) := by
  have hmod := powerRemainder_modEq b e m
  have hpow : pow (.int b) (.int e) (.int m) =
      Library.exact "pow" (powerRemainder b.toInt e.toInt m.toInt) := powerModulo_eq_exact he hm
  by_cases hexcept : e = 0 ∧ m = 1
  · obtain ⟨rfl, rfl⟩ := hexcept
    exact ⟨1, hpow, hmod, fun h => absurd ⟨rfl, rfl⟩ h, fun _ => rfl⟩
  · have hremainder := powerRemainder_isRemainder (b := b) hm hexcept he
    have hfits : Machine.IntType.i64.Holds (powerRemainder b.toInt e.toInt m.toInt) := by
      have hbounds := Machine.holds_toInt m
      rw [Machine.IntType.holds_i64] at hbounds ⊢
      unfold IsRemainder at hremainder
      omega
    rw [Machine.exact_eq "pow" hfits] at hpow
    have hvalue := Int64.toInt_ofInt_of_le hfits.1 (Int.lt_add_one_of_le hfits.2)
    refine ⟨_, hpow, ?_, ?_, fun h => absurd h hexcept⟩
    · rw [hvalue]
      exact hmod
    · intro _
      rw [hvalue]
      exact ⟨hremainder, fun s hs hsmod => hs.eq_of_modEq hremainder (hsmod.trans hmod.symm)⟩

/-- The exception: modulo one, only zero is a remainder. -/
example : pow (.int 5) (.int 0) (.int 1) = .ok (.int 1) := rfl

end Powers

end Builtins

end SafeExpr
