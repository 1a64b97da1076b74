/-
  SafeExpr/Number/Int64.lean
  ==========================
  **Whole numbers of 64 bits, and when an exact result is one.**

  Integer operations are computed exactly, on `Int`, and then brought back with
  `fitInt64`, which answers only for results in range.  Overflow is thus decided in one
  place, on the exact result.
-/

namespace SafeExpr

/-- The 64-bit integer equal to `n`, if there is one. -/
def fitInt64 (n : Int) : Option Int64 :=
  if Int64.minValue.toInt ≤ n ∧ n ≤ Int64.maxValue.toInt then some (Int64.ofInt n) else none

theorem fitInt64_toInt (m : Int64) : fitInt64 m.toInt = some m := by
  rw [fitInt64, if_pos ⟨m.minValue_le_toInt, m.toInt_le⟩, Int64.ofInt_toInt]

theorem fitInt64_eq_some_iff {n : Int} {m : Int64} : fitInt64 n = some m ↔ m.toInt = n := by
  constructor
  · intro h
    simp only [fitInt64] at h
    split at h
    · next hr =>
      cases h
      rw [Int64.toInt_minValue, Int64.toInt_maxValue] at hr
      exact Int64.toInt_ofInt_of_le hr.1 (by omega)
    · cases h
  · rintro rfl
    exact fitInt64_toInt m

theorem fitInt64_eq_none_iff {n : Int} :
    fitInt64 n = none ↔ ¬ (Int64.minValue.toInt ≤ n ∧ n ≤ Int64.maxValue.toInt) := by
  constructor
  · intro h hr
    rw [fitInt64, if_pos hr] at h
    cases h
  · intro h
    rw [fitInt64, if_neg h]

/-- No absolute value is larger than that of the smallest one. -/
theorem natAbs_toInt_le (n : Int64) : n.toInt.natAbs ≤ 9223372036854775808 := by
  have hlow := n.le_toInt
  have hhigh := n.toInt_lt
  omega

end SafeExpr
