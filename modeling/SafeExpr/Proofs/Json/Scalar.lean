/-
  SafeExpr/Proofs/Json/Scalar.lean
  ================================
  **Strings and whole numbers that are written as JSON text are read back.**

  A string ends at its quote, so that anything may follow it.  A number goes on as long as
  there are digits, a point or an exponent: it is read back in front of a comma, a closing
  bracket and the end of the text (`Delimited`).
-/
import SafeExpr.Json.Read
import SafeExpr.Proofs.Json.Text
import SafeExpr.Proofs.Text.Quoted

namespace SafeExpr.JsonText

/-! ### Strings -/

theorem hexValue?_digitChar {d : Nat} (h : d < 16) : hexValue? d.digitChar = some d := by
  have hall : ∀ d : Fin 16, hexValue? d.val.digitChar = some d.val := by decide
  exact hall ⟨d, h⟩

/-- Four digits of which the first two are zero. -/
theorem hexUnit?_low {high low : Nat} (hhigh : high < 16) (hlow : low < 16) :
    hexUnit? '0' '0' high.digitChar low.digitChar = some (16 * high + low) := by
  have hzero : hexValue? '0' = some 0 := by decide
  simp [hexUnit?, hzero, hexValue?_digitChar hhigh, hexValue?_digitChar hlow]

/-- The ways in which a character of a string is written. -/
inductive StringPiece (c : Char) : List Char → Prop
  | plain (hquote : c ≠ '"') (hbackslash : c ≠ '\\') (hlarge : 0x20 ≤ c.toNat) : StringPiece c [c]
  | escaped {x : Char} (hu : x ≠ 'u') (hx : escaped? x = some c) : StringPiece c ['\\', x]
  | unit {high low : Nat} (hhigh : high < 2) (hlow : low < 16) (hc : c.toNat = 16 * high + low) :
    StringPiece c ['\\', 'u', '0', '0', high.digitChar, low.digitChar]

theorem stringPiece_stringChar (c : Char) : StringPiece c (stringChar c) := by
  unfold stringChar
  split
  · exact .escaped (by decide) rfl
  · exact .escaped (by decide) rfl
  · exact .escaped (by decide) rfl
  · exact .escaped (by decide) rfl
  · exact .escaped (by decide) rfl
  · exact .escaped (by decide) rfl
  · exact .escaped (by decide) rfl
  · next hquote hbackslash _ _ _ _ _ =>
    split
    · next hsmall =>
      rw [hexDigits_of_lt (by omega), if_pos hsmall]
      exact .unit (Nat.zero_lt_two) hsmall (Nat.zero_add _).symm
    · next hlarge =>
      split
      · next hcontrol =>
        rw [hexDigits_of_lt (by omega), if_neg hlarge]
        exact .unit (by omega) (Nat.mod_lt _ (by decide)) (by omega)
      · next hplain => exact .plain hquote hbackslash (Nat.le_of_not_lt hplain)

/-- A character is read from the piece that it is written as. -/
theorem readString_stringPiece {c : Char} {piece : List Char} (h : StringPiece c piece)
    (rest : List Char) :
    readString (piece ++ rest) = do
      let (cs, rest) ← readString rest
      return (c :: cs, rest) := by
  cases h with
  | plain hquote hbackslash hlarge =>
    have hallowed : ¬ (c = '\\' ∨ c.toNat < 0x20) := by
      rintro (heq | hlt)
      · exact hbackslash heq
      · exact absurd hlt (Nat.not_lt.mpr hlarge)
    rw [List.singleton_append, readString]
    · rw [if_neg hallowed]
    all_goals simp [hquote, hbackslash]
  | @escaped x hu hx =>
    simp only [List.cons_append, List.nil_append]
    rw [readString]
    · simp [hx]
    all_goals simp [hu]
  | @unit high low hhigh hlow hc =>
    have hunit : hexUnit? '0' '0' high.digitChar low.digitChar = some c.toNat := by
      rw [hexUnit?_low (by omega) hlow, hc]
    have hof : ofUnit? c.toNat = some c := by
      rw [ofUnit?, if_pos (by omega), Char.ofNat_toNat]
    simp only [List.cons_append, List.nil_append]
    rw [readString]
    simp [hunit, hof]

/-- **A string is read back, whatever its characters are.** -/
theorem readString_flatMap (cs rest : List Char) :
    readString (cs.flatMap stringChar ++ '"' :: rest) = some (cs, rest) := by
  induction cs with
  | nil => rfl
  | cons c cs ih =>
    rw [List.flatMap_cons, List.append_assoc,
      readString_stringPiece (stringPiece_stringChar c), ih]
    rfl

/-! ### Digits -/

theorem digitValue_digitChar {d : Nat} (h : d < 10) : digitValue d.digitChar = d := by
  have hall : ∀ d : Fin 10, digitValue d.val.digitChar = d.val := by decide
  exact hall ⟨d, h⟩

/-- Digits are taken from left to right. -/
theorem appendDigits_append {n m : Nat} {cs : List Char} (ds : List Char)
    (h : appendDigits n cs = (m, [])) : appendDigits n (cs ++ ds) = appendDigits m ds := by
  induction cs generalizing n with
  | nil =>
    cases h
    rfl
  | cons c cs ih =>
    simp only [appendDigits, List.cons_append] at h ⊢
    split at h
    · next hfits =>
      rw [if_pos hfits]
      exact ih h
    · cases h

/-- No digit of a significand that fits is dropped. -/
theorem appendDigits_toDigits {n : Nat} (h : n ≤ maxSignificand) :
    appendDigits 0 (Nat.toDigits 10 n) = (n, []) := by
  induction n using Nat.strongRecOn with
  | ind n ih =>
    have hdigit (m : Nat) (d : Nat) (hd : d < 10) (hfits : 10 * m + d ≤ maxSignificand) :
        appendDigits m [d.digitChar] = (10 * m + d, []) := by
      rw [appendDigits, digitValue_digitChar hd, if_pos hfits, appendDigits]
    rw [Nat.toDigits_eq_if (by decide)]
    split
    · next hlt => rw [hdigit 0 n hlt (by omega), Nat.mul_zero, Nat.zero_add]
    · next hge =>
      have hparts : 10 * (n / 10) + n % 10 = n := Nat.div_add_mod n 10
      rw [appendDigits_append _ (ih (n / 10) (by omega) (by omega)),
        hdigit _ _ (Nat.mod_lt n (by decide)) (by omega), hparts]

/-- Only zero starts with the digit zero. -/
theorem head?_toDigits {n : Nat} (h : n ≠ 0) : (Nat.toDigits 10 n).head? ≠ some '0' := by
  induction n using Nat.strongRecOn with
  | ind n ih =>
    rw [Nat.toDigits_eq_if (by decide)]
    split
    · next hlt =>
      have hall : ∀ d : Fin 10, d.val ≠ 0 → [d.val.digitChar].head? ≠ some '0' := by decide
      exact hall ⟨n, hlt⟩ h
    · next hge =>
      rw [List.head?_append_of_ne_nil _ Nat.toDigits_ne_nil]
      exact ih (n / 10) (by omega) (by omega)

theorem splitDigits_append {ds rest : List Char} (hds : ∀ c ∈ ds, c.isDigit = true)
    (hrest : ∀ c ∈ rest.head?, c.isDigit = false) : splitDigits (ds ++ rest) = (ds, rest) := by
  obtain ⟨htake, hdrop⟩ := span_of_ends hds hrest
  rw [splitDigits, htake, hdrop]

/-! ### Whole numbers -/

/-- What may follow a value: a comma, a closing bracket, or nothing. -/
def Delimited (rest : List Char) : Prop := ∀ c ∈ rest.head?, c = ',' ∨ c = ']' ∨ c = '\x7d'

theorem delimited_nil : Delimited [] := by
  intro c hc
  cases hc

theorem delimited_cons {c : Char} {rest : List Char} (h : c = ',' ∨ c = ']' ∨ c = '\x7d') :
    Delimited (c :: rest) := by
  intro c' hc'
  cases hc'
  exact h

theorem Delimited.isDigit_eq_false {rest : List Char} (h : Delimited rest) :
    ∀ c ∈ rest.head?, c.isDigit = false := by
  intro c hc
  rcases h c hc with rfl | rfl | rfl
  · decide
  · decide
  · decide

/-- A number ends where a value may end. -/
theorem readFraction_delimited (t : NumberText) {rest : List Char} (h : Delimited rest) :
    readFraction t rest = some (t, rest) := by
  cases rest with
  | nil => rfl
  | cons c rest =>
    rcases h c rfl with rfl | rfl | rfl
    · rfl
    · rfl
    · rfl

/-- The sign of a number in front of its digits. -/
def signText (negative : Bool) : List Char := if negative then ['-'] else []

/-- What a number may start with. -/
def StartsNumber (c : Char) : Prop := c = '-' ∨ c.isDigit = true

theorem StartsNumber.mem {c : Char} (h : StartsNumber c) : c ∈ "-0123456789".toList := by
  rcases h with rfl | h
  · decide
  · exact List.mem_cons_of_mem '-' (mem_of_isDigit h)

theorem exists_toDigits (n : Nat) :
    ∃ c cs, c.isDigit = true ∧ Nat.toDigits 10 n = c :: cs := by
  obtain ⟨c, cs, hcons⟩ := List.exists_cons_of_ne_nil (Nat.toDigits_ne_nil (b := 10) (n := n))
  refine ⟨c, cs, ?_, hcons⟩
  apply isDigit_of_mem_decimal (n := n)
  rw [hcons]
  exact List.mem_cons_self

theorem exists_signText_toDigits (negative : Bool) (n : Nat) :
    ∃ c cs, StartsNumber c ∧ signText negative ++ Nat.toDigits 10 n = c :: cs := by
  cases negative with
  | true => exact ⟨'-', Nat.toDigits 10 n, Or.inl rfl, rfl⟩
  | false =>
    obtain ⟨c, cs, hdigit, hcons⟩ := exists_toDigits n
    exact ⟨c, cs, Or.inr hdigit, hcons⟩

/-- The digits of a number are no minus sign. -/
theorem toDigits_append_ne_minus (n : Nat) (rest cs : List Char) :
    Nat.toDigits 10 n ++ rest ≠ '-' :: cs := by
  intro h
  obtain ⟨c, ds, hdigit, hcons⟩ := exists_toDigits n
  rw [hcons, List.cons_append] at h
  rw [List.head_eq_of_cons_eq h] at hdigit
  exact absurd hdigit (by decide)

/-- **The digits of a number that fits are read back, with the sign in front of them.** -/
theorem readNumber_toDigits (negative : Bool) {n : Nat} (hn : n ≤ maxSignificand)
    {rest : List Char} (hrest : Delimited rest) :
    readNumber (signText negative ++ Nat.toDigits 10 n ++ rest) =
      some (⟨negative, n, 0, true⟩, rest) := by
  have hsplit : splitDigits (Nat.toDigits 10 n ++ rest) = (Nat.toDigits 10 n, rest) :=
    splitDigits_append isDigit_of_mem_decimal hrest.isDigit_eq_false
  have hempty : (Nat.toDigits 10 n).isEmpty = false := by
    rw [List.isEmpty_eq_false_iff]
    exact Nat.toDigits_ne_nil
  have hzero :
      ((Nat.toDigits 10 n).head? == some '0' && (Nat.toDigits 10 n).length != 1) = false := by
    by_cases hn : n = 0
    · subst hn
      rfl
    · simp [head?_toDigits hn]
  have hdigits := appendDigits_toDigits hn
  have hend (negative : Bool) : readFraction ⟨negative, n, 0, true⟩ rest =
      some (⟨negative, n, 0, true⟩, rest) := readFraction_delimited _ hrest
  cases negative with
  | true =>
    simp [readNumber, signText, hsplit, hempty, hzero, hdigits, hend]
  | false =>
    -- the sign is only looked for, and the digits are what is left
    have hminus := toDigits_append_ne_minus n rest
    simp [readNumber, signText, hsplit, hempty, hzero, hdigits, hend]

/-- The parts of a whole number are put together again. -/
theorem value?_int (n : Int64) :
    NumberText.value? ⟨decide (n.toInt < 0), n.toInt.natAbs, 0, true⟩ = some (.int n) := by
  have hn : (if decide (n.toInt < 0) then -(n.toInt.natAbs : Int) else n.toInt.natAbs) =
      n.toInt := by
    split
    · next hneg =>
      simp only [decide_eq_true_eq] at hneg
      omega
    · next hneg =>
      simp only [decide_eq_true_eq] at hneg
      omega
  have hzero : (decide (n.toInt < 0) && ((n.toInt.natAbs : Int) == 0)) = false := by
    rw [Bool.and_eq_false_iff]
    by_cases hneg : n.toInt < 0
    · right
      simp
      omega
    · left
      exact decide_eq_false hneg
  simp only [NumberText.value?, if_true, hn, fitInt64_toInt, hzero, Bool.false_eq_true, if_false]

end SafeExpr.JsonText
