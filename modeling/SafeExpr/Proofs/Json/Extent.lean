/-
  SafeExpr/Proofs/Json/Extent.lean
  ================================
  **How much of a text the readers of strings and numbers take.**

  What is read at the start of a text depends on the characters that are taken and on nothing
  behind them.  A string ends at its quote.  A number goes on as long as it can, so it is the
  same in front of every text that does not prolong it (`Stops`); a blank, a comma and a
  closing bracket do not.
-/
import Mathlib.Data.List.TakeWhile
import SafeExpr.Proofs.Json.Scalar

namespace SafeExpr.JsonText

/-! ### Blanks -/

def Blanks (cs : List Char) : Prop := ∀ c ∈ cs, isBlank c = true

theorem blanks_nil : Blanks [] := List.forall_mem_nil _

theorem Blanks.append {bs cs : List Char} (hbs : Blanks bs) (hcs : Blanks cs) : Blanks (bs ++ cs) :=
  List.forall_mem_append.mpr ⟨hbs, hcs⟩

theorem skipBlanks_append {bs : List Char} (hbs : Blanks bs) (cs : List Char) :
    skipBlanks (bs ++ cs) = skipBlanks cs :=
  List.dropWhile_append_of_pos hbs

theorem skipBlanks_blanks {bs : List Char} (hbs : Blanks bs) : skipBlanks bs = [] := by
  have h := skipBlanks_append hbs []
  rwa [List.append_nil] at h

theorem exists_blanks (cs : List Char) : ∃ bs, Blanks bs ∧ cs = bs ++ skipBlanks cs :=
  ⟨cs.takeWhile isBlank, fun _ hc => List.mem_takeWhile_imp hc,
    List.takeWhile_append_dropWhile.symm⟩

theorem skipBlanks_eq_nil {cs : List Char} (h : skipBlanks cs = []) : Blanks cs := by
  obtain ⟨bs, hbs, hcs⟩ := exists_blanks cs
  rw [h, List.append_nil] at hcs
  exact hcs ▸ hbs

/-! ### Strings -/

/-- A character, however it is written, in front of a string. -/
theorem readString_extent_cons (piece : List Char) {cs s rest : List Char} {c : Char}
    (hpiece : ∀ cs, readString (piece ++ cs) = do
      let (cs, rest) ← readString cs
      return (c :: cs, rest))
    (ih : ∀ {s rest}, readString cs = some (s, rest) →
      ∃ taken, cs = taken ++ rest ∧ ∀ rest', readString (taken ++ rest') = some (s, rest'))
    (h : (do let (cs, rest) ← readString cs; return (c :: cs, rest)) = some (s, rest)) :
    ∃ taken, piece ++ cs = taken ++ rest ∧
      ∀ rest', readString (taken ++ rest') = some (s, rest') := by
  obtain ⟨⟨s', rest'⟩, hread, h⟩ := Option.bind_eq_some_iff.mp h
  cases h
  obtain ⟨taken, rfl, htaken⟩ := ih hread
  refine ⟨piece ++ taken, (List.append_assoc _ _ _).symm, fun more => ?_⟩
  rw [List.append_assoc, hpiece, htaken]
  rfl

/-- **A string ends at its quote.** -/
theorem readString_extent {cs s rest : List Char} (h : readString cs = some (s, rest)) :
    ∃ taken, cs = taken ++ rest ∧ ∀ rest', readString (taken ++ rest') = some (s, rest') := by
  fun_induction readString cs generalizing s rest with
  | case1 rest₀ =>
    cases h
    exact ⟨['"'], rfl, fun _ => rfl⟩
  | case2 a b c d x rest₀ hx ih =>
    refine readString_extent_cons ['\\', 'u', a, b, c, d] (fun cs => ?_) ih h
    simp only [List.cons_append, List.nil_append]
    rw [readString]
    simp [hx]
  | case3 a b c d a' b' c' d' rest₀ hx ih =>
    obtain ⟨high, hhigh, h⟩ := Option.bind_eq_some_iff.mp h
    obtain ⟨low, hlow, h⟩ := Option.bind_eq_some_iff.mp h
    obtain ⟨x, hunits, h⟩ := Option.bind_eq_some_iff.mp h
    refine readString_extent_cons ['\\', 'u', a, b, c, d, '\\', 'u', a', b', c', d']
      (fun cs => ?_) ih h
    simp only [List.cons_append, List.nil_append]
    rw [readString.eq_3 a b c d a' b' c' d' cs hx]
    simp [hhigh, hlow, hunits]
  | case4 => cases h
  | case5 c rest₀ hu ih =>
    obtain ⟨x, hx, h⟩ := Option.bind_eq_some_iff.mp h
    refine readString_extent_cons ['\\', c] (fun cs => ?_) ih h
    -- no digits are looked for, since `u` stands for no character by itself
    have hne : c ≠ 'u' := by
      rintro rfl
      cases hx
    simp only [List.cons_append, List.nil_append]
    rw [readString]
    · simp [hx]
    · exact fun a b c d rest hc => absurd hc hne
  | case6 => cases h
  | case7 c rest₀ hquote hunit hslash hplain ih =>
    refine readString_extent_cons [c] (fun cs => ?_) ih h
    have hbackslash : c ≠ '\\' := fun hc => hplain (Or.inl hc)
    have hend : c ≠ '"' := hquote
    rw [List.singleton_append, readString]
    · rw [if_neg hplain]
    all_goals simp [hend, hbackslash]
  | case8 => cases h

/-! ### Numbers -/

/-- A text that no number goes on into: it starts with no digit, no point and no exponent. -/
def Stops (rest : List Char) : Prop :=
  ∀ c ∈ rest.head?, c.isDigit = false ∧ c ≠ '.' ∧ c ≠ 'e' ∧ c ≠ 'E'

theorem stops_nil : Stops [] := by
  intro c hc
  cases hc

theorem stops_cons {c : Char} {rest : List Char}
    (h : c.isDigit = false ∧ c ≠ '.' ∧ c ≠ 'e' ∧ c ≠ 'E') : Stops (c :: rest) := by
  intro c' hc'
  cases hc'
  exact h

theorem Stops.isDigit_eq_false {rest : List Char} (h : Stops rest) :
    ∀ c ∈ rest.head?, c.isDigit = false := fun c hc => (h c hc).1

/-- Blanks prolong no number. -/
theorem Stops.blanks {bs rest : List Char} (h : Stops rest) (hbs : Blanks bs) :
    Stops (bs ++ rest) := by
  cases bs with
  | nil => exact h
  | cons b bs =>
    have hb := hbs b List.mem_cons_self
    simp only [isBlank, Bool.or_eq_true, decide_eq_true_eq] at hb
    apply stops_cons
    rcases hb with ((rfl | rfl) | rfl) | rfl
    · decide
    · decide
    · decide
    · decide

/-- The digits at the start of a text, and what may stand behind them instead of the rest. -/
theorem exists_splitDigits (cs : List Char) :
    ∃ digits rest, cs = digits ++ rest ∧ (∀ c ∈ digits, c.isDigit = true) ∧
      splitDigits cs = (digits, rest) ∧
      ∀ taken behind, rest = taken ++ behind → ∀ rest', Stops rest' →
        splitDigits (digits ++ (taken ++ rest')) = (digits, taken ++ rest') := by
  have hdigits : ∀ c ∈ cs.takeWhile Char.isDigit, c.isDigit = true :=
    fun c hc => List.mem_takeWhile_imp hc
  refine ⟨cs.takeWhile Char.isDigit, cs.dropWhile Char.isDigit,
    List.takeWhile_append_dropWhile.symm, hdigits, rfl, ?_⟩
  intro taken behind hrest rest' hrest'
  refine splitDigits_append hdigits ?_
  cases taken with
  | nil => exact hrest'.isDigit_eq_false
  | cons d ds =>
    have hd := List.head?_dropWhile_not Char.isDigit cs
    rw [hrest] at hd
    intro c hc
    cases hc
    simpa using hd

/-- A sign that is taken apart stays apart, whatever stands behind a digit. -/
theorem splitExponentSign_extent {cs digits rest : List Char} {negative : Bool} (hne : digits ≠ [])
    (hdigits : ∀ c ∈ digits, c.isDigit = true)
    (h : splitExponentSign cs = (negative, digits ++ rest)) :
    ∃ sign, cs = sign ++ digits ++ rest ∧
      ∀ rest', splitExponentSign (sign ++ digits ++ rest') = (negative, digits ++ rest') := by
  unfold splitExponentSign at h
  split at h
  · cases h
    exact ⟨['+'], rfl, fun _ => rfl⟩
  · cases h
    exact ⟨['-'], rfl, fun _ => rfl⟩
  · cases h
    refine ⟨[], rfl, fun rest' => ?_⟩
    obtain ⟨d, ds, rfl⟩ := List.exists_cons_of_ne_nil hne
    have hd := hdigits d List.mem_cons_self
    simp only [List.nil_append, List.cons_append]
    unfold splitExponentSign
    split
    · next heq =>
      rw [List.head_eq_of_cons_eq heq] at hd
      cases hd
    · next heq =>
      rw [List.head_eq_of_cons_eq heq] at hd
      cases hd
    · rfl

/-- Numbers of which no exponent is left to be read. -/
theorem readExponent_stops (t : NumberText) {rest : List Char} (h : Stops rest) :
    readExponent t rest = some (t, rest) := by
  cases rest with
  | nil => rfl
  | cons c rest =>
    obtain ⟨-, -, he, hE⟩ := h c rfl
    simp [readExponent, he, hE]

theorem readFraction_stops (t : NumberText) {rest : List Char} (h : Stops rest) :
    readFraction t rest = some (t, rest) := by
  have hexponent := readExponent_stops t h
  cases rest with
  | nil => rfl
  | cons c rest =>
    have hpoint := (h c rfl).2.1
    simpa [readFraction, hpoint] using hexponent

theorem readExponent_extent {t t' : NumberText} {cs rest : List Char}
    (h : readExponent t cs = some (t', rest)) :
    ∃ taken, cs = taken ++ rest ∧
      ∀ rest', Stops rest' → readExponent t (taken ++ rest') = some (t', rest') := by
  cases cs with
  | nil =>
    cases h
    exact ⟨[], rfl, fun rest' hrest' => readExponent_stops t hrest'⟩
  | cons c cs =>
    by_cases hc : (c = 'e' || c = 'E') = true
    · cases hsign : splitExponentSign cs with
      | mk negative behind =>
        obtain ⟨digits, rest₀, rfl, hdigits, hsplit, hmore⟩ := exists_splitDigits behind
        simp only [readExponent, if_pos hc, hsign, hsplit] at h
        cases digits with
        | nil => cases h
        | cons d ds =>
          cases h
          obtain ⟨sign, rfl, hkept⟩ :=
            splitExponentSign_extent (List.cons_ne_nil d ds) hdigits hsign
          refine ⟨c :: (sign ++ (d :: ds)), rfl, fun rest' hrest' => ?_⟩
          rw [List.cons_append]
          have hsplit' := hmore [] _ rfl rest' hrest'
          rw [List.nil_append] at hsplit'
          simp only [readExponent, if_pos hc, hkept, hsplit']
          rfl
    · rw [readExponent, if_neg hc] at h
      cases h
      exact ⟨[], rfl, fun rest' hrest' => readExponent_stops t hrest'⟩

theorem readFraction_extent {t t' : NumberText} {cs rest : List Char}
    (h : readFraction t cs = some (t', rest)) :
    ∃ taken, cs = taken ++ rest ∧
      ∀ rest', Stops rest' → readFraction t (taken ++ rest') = some (t', rest') := by
  unfold readFraction at h
  split at h
  · next cs =>
    obtain ⟨digits, rest₀, rfl, -, hsplit, hmore⟩ := exists_splitDigits cs
    simp only [hsplit] at h
    split at h
    · cases h
    · next hne =>
      obtain ⟨taken, rfl, htaken⟩ := readExponent_extent h
      refine ⟨'.' :: (digits ++ taken), by simp, fun rest' hrest' => ?_⟩
      rw [List.cons_append, List.append_assoc]
      simp only [readFraction, hmore taken rest rfl rest' hrest', if_neg hne]
      exact htaken rest' hrest'
  · next hpoint =>
    obtain ⟨taken, rfl, htaken⟩ := readExponent_extent h
    refine ⟨taken, rfl, fun rest' hrest' => ?_⟩
    rw [← htaken rest' hrest']
    cases taken with
    | nil => rw [List.nil_append, readFraction_stops t hrest', readExponent_stops t hrest']
    | cons c taken =>
      have hc : c ≠ '.' := by
        rintro rfl
        exact hpoint _ rfl
      simp [readFraction, hc]

/-- The number behind a sign. -/
theorem readNumber_signText {negative : Bool} {cs : List Char}
    (hcs : negative = false → ∀ rest, cs ≠ '-' :: rest) :
    readNumber (signText negative ++ cs) =
      let digits := (splitDigits cs).1
      if digits.isEmpty || digits.head? == some '0' && digits.length != 1 then none
      else
        readFraction ⟨negative, (appendDigits 0 digits).1, (appendDigits 0 digits).2.length,
          (appendDigits 0 digits).2.isEmpty⟩ (splitDigits cs).2 := by
  cases negative with
  | true => rfl
  | false =>
    have hminus := hcs rfl
    simp [readNumber, signText]

theorem exists_signText (cs : List Char) :
    ∃ negative cs', cs = signText negative ++ cs' ∧
      (negative = false → ∀ rest, cs' ≠ '-' :: rest) := by
  cases cs with
  | nil => exact ⟨false, [], rfl, fun _ _ h => by cases h⟩
  | cons c cs =>
    by_cases hc : c = '-'
    · exact ⟨true, cs, by rw [hc]; rfl, fun h => by cases h⟩
    · refine ⟨false, c :: cs, rfl, fun _ rest h => hc ?_⟩
      exact List.head_eq_of_cons_eq h

/-- **A number is the same in front of all that does not prolong it.** -/
theorem readNumber_extent {cs rest : List Char} {t : NumberText}
    (h : readNumber cs = some (t, rest)) :
    ∃ c taken, StartsNumber c ∧ cs = c :: taken ++ rest ∧
      ∀ rest', Stops rest' → readNumber (c :: taken ++ rest') = some (t, rest') := by
  obtain ⟨negative, cs, rfl, hminus⟩ := exists_signText cs
  obtain ⟨digits, behind, rfl, hdigits, hsplit, hmore⟩ := exists_splitDigits cs
  rw [readNumber_signText hminus] at h
  simp only [hsplit] at h
  split at h
  · cases h
  · next hproper =>
    obtain ⟨taken, rfl, htaken⟩ := readFraction_extent h
    have hne : digits ≠ [] := by
      rintro rfl
      exact hproper rfl
    obtain ⟨d, ds, rfl⟩ := List.exists_cons_of_ne_nil hne
    have hd := hdigits d List.mem_cons_self
    have hread : ∀ rest', Stops rest' →
        readNumber (signText negative ++ (d :: ds ++ (taken ++ rest'))) = some (t, rest') := by
      intro rest' hrest'
      have hminus' : negative = false → ∀ rest, d :: ds ++ (taken ++ rest') ≠ '-' :: rest := by
        rintro - rest heq
        rw [List.head_eq_of_cons_eq heq] at hd
        cases hd
      rw [readNumber_signText hminus']
      simp only [hmore taken rest rfl rest' hrest', if_neg hproper]
      exact htaken rest' hrest'
    cases negative with
    | true =>
      refine ⟨'-', d :: ds ++ taken, Or.inl rfl, by simp [signText], fun rest' hrest' => ?_⟩
      simpa [signText] using hread rest' hrest'
    | false =>
      refine ⟨d, ds ++ taken, Or.inr hd, by simp [signText], fun rest' hrest' => ?_⟩
      simpa [signText] using hread rest' hrest'

end SafeExpr.JsonText
