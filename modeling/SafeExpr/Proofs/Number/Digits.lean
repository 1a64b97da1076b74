/-
  SafeExpr/Proofs/Number/Digits.lean
  ==================================
  **Digits that are written are read back.**

  Numbers are written with `Nat.toDigits` and read with `readDigits`, in every radix up to
  sixteen.
-/
import SafeExpr.Parse.Literal

namespace SafeExpr

/-- A text is cut where a class of characters ends. -/
theorem span_of_ends {p : Char → Bool} {cs rest : List Char} (hcs : ∀ c ∈ cs, p c = true)
    (hrest : ∀ c ∈ rest.head?, p c = false) :
    (cs ++ rest).takeWhile p = cs ∧ (cs ++ rest).dropWhile p = rest := by
  rw [List.takeWhile_append_of_pos hcs, List.dropWhile_append_of_pos hcs]
  cases rest with
  | nil => simp
  | cons c rest =>
    have hc : ¬ p c = true := by simp [hrest c rfl]
    rw [List.takeWhile_cons_of_neg hc, List.dropWhile_cons_of_neg hc, List.append_nil]
    exact ⟨rfl, rfl⟩

theorem digitValue?_digitChar {d : Nat} (h : d < 16) : digitValue? d.digitChar = some d := by
  have hall : ∀ d : Fin 16, digitValue? d.val.digitChar = some d.val := by decide
  exact hall ⟨d, h⟩

/-- Digits are read from left to right. -/
theorem readDigits_append {radix value m : Nat} {cs : List Char} (ds : List Char)
    (h : readDigits radix value cs = some m) :
    readDigits radix value (cs ++ ds) = readDigits radix m ds := by
  induction cs generalizing value with
  | nil =>
    cases h
    rfl
  | cons c cs ih =>
    simp only [readDigits, List.cons_append] at h ⊢
    split at h
    · next d hd =>
      split at h
      · next hlt =>
        rw [if_pos hlt]
        exact ih h
      · cases h
    · cases h

theorem readDigits_digitChar {radix value d : Nat} (hd : d < radix) (hradix : radix ≤ 16) :
    readDigits radix value [d.digitChar] = some (value * radix + d) := by
  simp only [readDigits, digitValue?_digitChar (Nat.lt_of_lt_of_le hd hradix), if_pos hd]

/-- **The digits of a number are those of the number.** -/
theorem readDigits_toDigits {radix : Nat} (hradix : 1 < radix) (hle : radix ≤ 16) (n : Nat) :
    readDigits radix 0 (Nat.toDigits radix n) = some n := by
  induction n using Nat.strongRecOn with
  | ind n ih =>
    rw [Nat.toDigits_eq_if hradix]
    split
    · next hlt => rw [readDigits_digitChar hlt hle, Nat.zero_mul, Nat.zero_add]
    · next hge =>
      have hdiv : n / radix < n := Nat.div_lt_self (by omega) hradix
      rw [readDigits_append _ (ih (n / radix) hdiv),
        readDigits_digitChar (Nat.mod_lt n (by omega)) hle, Nat.mul_comm, Nat.div_add_mod]

theorem readNat?_toDigits {radix : Nat} (hradix : 1 < radix) (hle : radix ≤ 16) (n : Nat) :
    readNat? radix (Nat.toDigits radix n) = some n := by
  have hne : (Nat.toDigits radix n).isEmpty = false := by
    rw [List.isEmpty_eq_false_iff]
    exact Nat.toDigits_ne_nil
  rw [readNat?, hne, if_neg Bool.false_ne_true, readDigits_toDigits hradix hle]

/-! ### Decimal digits -/

theorem isDigit_of_mem_decimal {n : Nat} : ∀ c ∈ Nat.toDigits 10 n, c.isDigit = true :=
  fun _ hc => Nat.isDigit_of_mem_toDigits (by decide) (by decide) hc

theorem mem_of_isDigit {c : Char} (h : c.isDigit = true) : c ∈ "0123456789".toList := by
  have hall : ∀ d : Fin 10, Char.ofNat (48 + d.val) ∈ "0123456789".toList := by decide
  have hrange : 48 ≤ c.toNat ∧ c.toNat ≤ 57 := by
    simpa [Char.isDigit, UInt32.le_iff_toNat_le] using h
  have hd := hall ⟨c.toNat - 48, by omega⟩
  rwa [show 48 + (c.toNat - 48) = c.toNat by omega, Char.ofNat_toNat] at hd

/-! ### Whole numbers of 64 bits -/

/-- Digits alone name no radix. -/
theorem splitRadix_of_digits {ds : List Char} (h : ∀ c ∈ ds, c.isDigit = true) :
    splitRadix ds = (10, ds) := by
  unfold splitRadix
  split
  · exact absurd (h 'x' (by simp)) (by decide)
  · exact absurd (h 'X' (by simp)) (by decide)
  · exact absurd (h 'o' (by simp)) (by decide)
  · exact absurd (h 'O' (by simp)) (by decide)
  · exact absurd (h 'b' (by simp)) (by decide)
  · exact absurd (h 'B' (by simp)) (by decide)
  · rfl

/-- **A decimal literal is read as its number, if this fits.** -/
theorem readInteger?_toDigits (n : Nat) : readInteger? (Nat.toDigits 10 n) = fitInt64 n := by
  have hplain : withoutUnderscores (Nat.toDigits 10 n) = Nat.toDigits 10 n := by
    apply List.filter_eq_self.mpr
    intro c hc
    have : c ≠ '_' := by
      rintro rfl
      exact Nat.underscore_not_in_toDigits hc
    simpa using this
  have hread : readNat? 10 (Nat.toDigits 10 n) = some n :=
    readNat?_toDigits (by decide) (by decide) n
  unfold readInteger?
  rw [hplain, splitRadix_of_digits isDigit_of_mem_decimal]
  dsimp only
  rw [hread, Option.bind_some]

end SafeExpr
