/-
  SafeExpr/Proofs/Number/Notation.lean
  ====================================
  **The text of a double tells it from every other.**

  What a text says is read off it without regard to how it came about: the digits around the
  point, and the exponent behind the mark (`decimalIn`).  Positional and scientific notation
  both say the decimal that they write (`Decimal.Written`), and the shortest decimal is that of
  one double only.  So it is in every style (`Double.render_injective`).
-/
import Mathlib.Data.Nat.Digits.Defs
import SafeExpr.Number.Notation
import SafeExpr.Proofs.Number.Numeral
import SafeExpr.Proofs.Number.Shortest

namespace SafeExpr

/-! ### Rows of digits -/

theorem numeral_append (radix : Nat) (ds es : List Char) :
    numeral radix (ds ++ es) = numeral radix ds * radix ^ es.length + numeral radix es := by
  simp only [numeral, List.map_append, List.reverse_append, Nat.ofDigits_append,
    List.length_reverse, List.length_map]
  rw [Nat.mul_comm, Nat.add_comm]

theorem numeral_zeros (radix n : Nat) : numeral radix (zeros n) = 0 := by
  have hzero : digitOf '0' = 0 := by decide
  simp only [numeral, zeros, List.map_replicate, List.reverse_replicate, hzero]
  exact Nat.ofDigits_replicate_zero

theorem numeral_zeros_append (radix n : Nat) (ds : List Char) :
    numeral radix (zeros n ++ ds) = numeral radix ds := by
  rw [numeral_append, numeral_zeros, Nat.zero_mul, Nat.zero_add]

theorem numeral_digitChars (n : Nat) : numeral 10 (Decimal.digitChars n) = n :=
  numeral_toDigits digitClass_decimal (by decide) (by decide) isDigit_of_mem_decimal

theorem allDigits_zeros (n : Nat) : AllDigits (zeros n) := by
  intro d hd
  rw [List.eq_of_mem_replicate hd]
  decide

theorem allDigits_digitChars (n : Nat) : AllDigits (Decimal.digitChars n) := isDigit_of_mem_decimal

theorem AllDigits.append {ds es : List Char} (hds : AllDigits ds) (hes : AllDigits es) :
    AllDigits (ds ++ es) := List.forall_mem_append.mpr ⟨hds, hes⟩

/-! ### What a text says -/

/-- The exponent behind the mark. -/
def exponentIn : List Char → Int
  | '-' :: ds => -(numeral 10 ds : Int)
  | '+' :: ds => numeral 10 ds
  | ds => numeral 10 ds

/-- The decimal that a text without sign stands for: its digits, those behind the point, and the
    exponent behind the mark. -/
def decimalIn (text : List Char) : Decimal :=
  let mantissa := text.takeWhile (· ≠ 'e')
  let places := (mantissa.dropWhile (· ≠ '.')).drop 1
  ⟨numeral 10 (mantissa.filter Char.isDigit),
    exponentIn ((text.dropWhile (· ≠ 'e')).drop 1) - places.length⟩

/-- What stands behind the whole digits: nothing, or a point and digits. -/
def pointed (places : List Char) : List Char := if places.isEmpty then [] else '.' :: places

theorem exponentIn_of_allDigits {ds : List Char} (h : AllDigits ds) : exponentIn ds = numeral 10 ds := by
  unfold exponentIn
  split
  · exact absurd (h '-' List.mem_cons_self) (by decide)
  · exact absurd (h '+' List.mem_cons_self) (by decide)
  · rfl

section Parts

variable {whole places : List Char} (hwhole : AllDigits whole) (hplaces : AllDigits places)
include hwhole hplaces

theorem mantissa_plain : ∀ c ∈ whole ++ pointed places, decide (c ≠ 'e') = true := by
  have hdigit : ∀ c : Char, c.isDigit = true → decide (c ≠ 'e') = true := by
    intro c hc
    rw [decide_eq_true_iff]
    rintro rfl
    cases hc
  refine List.forall_mem_append.mpr ⟨fun c hc => hdigit c (hwhole c hc), ?_⟩
  unfold pointed
  split
  · exact List.forall_mem_nil _
  · exact List.forall_mem_cons.mpr ⟨by decide, fun c hc => hdigit c (hplaces c hc)⟩

omit hplaces in
theorem places_of_mantissa :
    ((whole ++ pointed places).dropWhile (· ≠ '.')).drop 1 = places := by
  have hdigit : ∀ c ∈ whole, decide (c ≠ '.') = true := by
    intro c hc
    rw [decide_eq_true_iff]
    rintro rfl
    cases hwhole _ hc
  have hpoint : ∀ c ∈ (pointed places).head?, decide (c ≠ '.') = false := by
    unfold pointed
    split
    · rintro _ ⟨⟩
    · rintro _ ⟨⟩
      decide
  rw [(span_of_ends hdigit hpoint).2]
  unfold pointed
  split
  · next hempty => exact (List.isEmpty_iff.mp hempty).symm
  · rfl

theorem digits_of_mantissa :
    (whole ++ pointed places).filter Char.isDigit = whole ++ places := by
  have hpoint : (pointed places).filter Char.isDigit = places := by
    unfold pointed
    split
    · next hempty => exact (List.isEmpty_iff.mp hempty).symm
    · rw [List.filter_cons_of_neg (by decide), List.filter_eq_self.mpr hplaces]
  rw [List.filter_append, List.filter_eq_self.mpr hwhole, hpoint]

/-- **What a text says, part by part.** -/
theorem decimalIn_parts {rest : List Char} (hrest : ∀ c ∈ rest.head?, c = 'e') :
    decimalIn (whole ++ pointed places ++ rest) =
      ⟨numeral 10 (whole ++ places), exponentIn (rest.drop 1) - places.length⟩ := by
  have hends : ∀ c ∈ rest.head?, decide (c ≠ 'e') = false := by
    intro c hc
    rw [hrest c hc]
    decide
  obtain ⟨htake, hdrop⟩ := span_of_ends (mantissa_plain hwhole hplaces) hends
  rw [decimalIn, htake, hdrop, places_of_mantissa hwhole, digits_of_mantissa hwhole hplaces]

end Parts

namespace Decimal

/-! ### Notations -/

/-- The text writes the decimal: digits with a point among them, or digits and an exponent. -/
inductive Written (d : Decimal) : List Char → Prop
  | positional {whole places : List Char} (hwhole : AllDigits whole) (hne : whole ≠ [])
    (hplaces : AllDigits places) (hsome : places ≠ [])
    (hvalue : value ⟨numeral 10 (whole ++ places), -(places.length : Int)⟩ = d.value) :
    Written d (whole ++ pointed places)
  | scientific {whole places sign ds : List Char} (hwhole : AllDigits whole) (hne : whole ≠ [])
    (hplaces : AllDigits places) (hsign : sign ∈ signs) (hds : AllDigits ds)
    (hvalue : value ⟨numeral 10 (whole ++ places), exponentIn (sign ++ ds) - places.length⟩ =
      d.value) :
    Written d (whole ++ pointed places ++ 'e' :: (sign ++ ds))

/-- **A text says the decimal that it writes.** -/
theorem Written.value_eq {d : Decimal} {text : List Char} (h : d.Written text) :
    (decimalIn text).value = d.value := by
  cases h with
  | positional hwhole hne hplaces hsome hvalue =>
    have hnothing : ∀ c ∈ ([] : List Char).head?, c = 'e' := by
      rintro _ ⟨⟩
    have htext := decimalIn_parts hwhole hplaces hnothing
    rw [List.append_nil] at htext
    rw [htext, ← hvalue, List.drop_nil, exponentIn_of_allDigits (List.forall_mem_nil _)]
    simp [numeral]
  | scientific hwhole hne hplaces hsign hds hvalue =>
    rw [decimalIn_parts hwhole hplaces (by rintro _ ⟨⟩; rfl), ← hvalue]
    rfl

theorem digitChars_ne_nil (n : Nat) : digitChars n ≠ [] := Nat.toDigits_ne_nil

theorem pointed_of_ne_nil {places : List Char} (h : places ≠ []) : pointed places = '.' :: places :=
  if_neg (by simpa using h)

theorem written_positional (d : Decimal) : d.Written d.positional := by
  have hdigits := allDigits_digitChars d.digits
  unfold Decimal.positional
  dsimp only
  split
  · next hexp =>
    have htext : digitChars d.digits ++ zeros d.exponent.toNat ++ ['.', '0'] =
        digitChars d.digits ++ zeros d.exponent.toNat ++ pointed ['0'] := rfl
    rw [htext]
    refine .positional (hdigits.append (allDigits_zeros _)) (by simp [digitChars_ne_nil])
      (allDigits_zeros 1) (by decide) ?_
    have hzero : numeral 10 ['0'] = 0 := by decide
    rw [numeral_append, numeral_append, numeral_zeros, hzero, numeral_digitChars, zeros,
      List.length_replicate, value, value]
    have hpow : (10 : ℚ) ^ d.exponent = 10 ^ d.exponent.toNat := by
      rw [← zpow_natCast, Int.toNat_of_nonneg hexp]
    rw [hpow]
    simp
  · next hexp =>
    split
    · next hlt =>
      have hlength : ((digitChars d.digits).drop
          ((digitChars d.digits).length - (-d.exponent).toNat)).length = (-d.exponent).toNat := by
        rw [List.length_drop]
        omega
      have hsome : (digitChars d.digits).drop
          ((digitChars d.digits).length - (-d.exponent).toNat) ≠ [] := by
        rw [← List.length_pos_iff_ne_nil, hlength]
        omega
      have hne : (digitChars d.digits).take
          ((digitChars d.digits).length - (-d.exponent).toNat) ≠ [] := by
        rw [← List.length_pos_iff_ne_nil, List.length_take]
        omega
      rw [← pointed_of_ne_nil hsome]
      refine .positional (fun c hc => hdigits c (List.mem_of_mem_take hc)) hne
        (fun c hc => hdigits c (List.mem_of_mem_drop hc)) hsome ?_
      rw [List.take_append_drop, hlength, numeral_digitChars, Int.toNat_of_nonneg (by omega),
        Int.neg_neg]
    · next hle =>
      have hsome : zeros ((-d.exponent).toNat - (digitChars d.digits).length) ++
          digitChars d.digits ≠ [] := by simp [digitChars_ne_nil]
      have htext : ['0', '.'] ++ zeros ((-d.exponent).toNat - (digitChars d.digits).length) ++
          digitChars d.digits = zeros 1 ++ pointed (zeros ((-d.exponent).toNat -
            (digitChars d.digits).length) ++ digitChars d.digits) := by
        rw [pointed_of_ne_nil hsome]
        rfl
      rw [htext]
      refine .positional (allDigits_zeros 1) (by decide) ((allDigits_zeros _).append hdigits) hsome ?_
      have hlength : (zeros ((-d.exponent).toNat - (digitChars d.digits).length) ++
          digitChars d.digits).length = (-d.exponent).toNat := by
        rw [List.length_append, zeros, List.length_replicate]
        omega
      rw [hlength, numeral_zeros_append, numeral_zeros_append, numeral_digitChars,
        Int.toNat_of_nonneg (by omega), Int.neg_neg]

/-- The sign in front of the digits of an exponent. -/
def exponentSign (style : FloatStyle) (n : Int) : List Char :=
  if n < 0 then ['-'] else if style.plus then ['+'] else []

theorem exponentSign_mem (style : FloatStyle) (n : Int) : exponentSign style n ∈ signs := by
  unfold exponentSign
  split
  · simp [signs]
  · split <;> simp [signs]

theorem exponentIn_signed (style : FloatStyle) {n : Int} {ds : List Char} (hds : AllDigits ds)
    (hvalue : numeral 10 ds = n.natAbs) : exponentIn (exponentSign style n ++ ds) = n := by
  unfold exponentSign
  split
  · rw [List.singleton_append, exponentIn, hvalue]
    omega
  · have habs : (n.natAbs : Int) = n := by omega
    split
    · rw [List.singleton_append, exponentIn, hvalue, habs]
    · rw [List.nil_append, exponentIn_of_allDigits hds, hvalue, habs]

theorem written_scientific (style : FloatStyle) (d : Decimal) :
    d.Written (d.scientific style) := by
  obtain ⟨first, rest, hcons⟩ := List.exists_cons_of_ne_nil (digitChars_ne_nil d.digits)
  have hdigits := allDigits_digitChars d.digits
  rw [hcons] at hdigits
  obtain ⟨hfirst, hrest : AllDigits rest⟩ := List.forall_mem_cons.mp hdigits
  have hexponent : ∀ k, AllDigits (zeros k ++ digitChars d.leading.natAbs) :=
    fun k => (allDigits_zeros k).append (allDigits_digitChars _)
  have hvalue : ∀ k, value ⟨numeral 10 ([first] ++ rest),
      exponentIn (exponentSign style d.leading ++ (zeros k ++ digitChars d.leading.natAbs)) -
        rest.length⟩ = d.value := by
    intro k
    have hnumeral : numeral 10 (zeros k ++ digitChars d.leading.natAbs) = d.leading.natAbs := by
      rw [numeral_zeros_append, numeral_digitChars]
    have hexp : d.leading - rest.length = d.exponent := by
      rw [leading, hcons, List.length_cons]
      omega
    rw [exponentIn_signed style (hexponent k) hnumeral, hexp, List.singleton_append, ← hcons,
      numeral_digitChars]
  have htext := Written.scientific (List.forall_mem_singleton.mpr hfirst) (List.cons_ne_nil _ _) hrest
    (exponentSign_mem style _) (hexponent _)
    (hvalue (style.exponentDigits - (digitChars d.leading.natAbs).length))
  simpa only [Decimal.scientific, exponentSign, pointed, hcons, List.take_succ_cons, List.take_zero,
    List.drop_succ_cons, List.drop_zero, List.append_assoc, List.cons_append] using htext

/-- A text begins with a digit. -/
theorem Written.exists_digit {d : Decimal} {text : List Char} (h : d.Written text) :
    ∃ c cs, c.isDigit = true ∧ text = c :: cs := by
  have hfirst : ∀ {whole : List Char} (rest : List Char), AllDigits whole → whole ≠ [] →
      ∃ c cs, c.isDigit = true ∧ whole ++ rest = c :: cs := by
    intro whole rest hwhole hne
    obtain ⟨c, cs, rfl⟩ := List.exists_cons_of_ne_nil hne
    exact ⟨c, cs ++ rest, hwhole c List.mem_cons_self, rfl⟩
  cases h with
  | positional hwhole hne => exact hfirst _ hwhole hne
  | scientific hwhole hne =>
    rw [List.append_assoc]
    exact hfirst _ hwhole hne

end Decimal

/-! ### Doubles -/

namespace Double

variable {style : FloatStyle} {x y : Double}

/-- The text of the absolute value: a word, or a decimal. -/
def Spelled (style : FloatStyle) (x : Double) (body : List Char) : Prop :=
  x.isInfinite = true ∧ body = ['i', 'n', 'f'] ∨
    x.isFinite = true ∧ (x.shortest style.tie).Written body

theorem isNaN_of_infinite (h : x.isInfinite = true) : x.isNaN = false := by
  rw [isInfinite, decide_eq_true_iff] at h
  rw [isNaN, decide_eq_false_iff_not, h]
  exact Nat.lt_irrefl _

theorem render_infinite (hneg : x.isNegative = false) (h : x.isInfinite = true) :
    x.render style = "inf" := by
  unfold render
  rw [isNaN_of_infinite h, hneg, h]
  rfl

theorem spelled_render (style : FloatStyle) (h : x.isNaN = false) :
    ∃ body, Spelled style x body ∧
      (x.render style).toList = (if x.isNegative then ['-'] else []) ++ body := by
  unfold render
  rw [if_neg (by simp [h])]
  dsimp only
  split
  · next hinfinite => exact ⟨_, Or.inl ⟨hinfinite, rfl⟩, String.toList_ofList⟩
  · next hinfinite =>
    have hfinite : x.isFinite = true := by
      rw [isNaN, decide_eq_false_iff_not] at h
      rw [isInfinite, decide_eq_true_iff] at hinfinite
      rw [isFinite, decide_eq_true_iff]
      omega
    refine ⟨_, Or.inr ⟨hfinite, ?_⟩, String.toList_ofList⟩
    split
    · exact Decimal.written_positional _
    · exact Decimal.written_scientific style _

theorem Spelled.head_ne {body : List Char} (h : Spelled style x body) : body.head? ≠ some '-' := by
  rcases h with ⟨-, rfl⟩ | ⟨-, hwritten⟩
  · decide
  · obtain ⟨c, cs, hc, rfl⟩ := hwritten.exists_digit
    rintro ⟨⟩
    cases hc

theorem Spelled.magnitude_eq {body : List Char} (hx : Spelled style x body)
    (hy : Spelled style y body) : x.magnitude = y.magnitude := by
  have hword : ∀ {d : Decimal}, ¬ d.Written ['i', 'n', 'f'] := by
    intro d h
    obtain ⟨c, cs, hc, heq⟩ := h.exists_digit
    cases heq
    cases hc
  rcases hx with ⟨hx, rfl⟩ | ⟨hx, htext⟩
  · rcases hy with ⟨hy, -⟩ | ⟨-, htext⟩
    · rw [isInfinite, decide_eq_true_iff] at hx hy
      rw [hx, hy]
    · exact absurd htext hword
  · rcases hy with ⟨-, rfl⟩ | ⟨hy, htext'⟩
    · exact absurd htext hword
    · exact magnitude_eq_of_shortest hx hy (htext.value_eq.symm.trans htext'.value_eq)

/-- **Doubles with the same text are the same.** -/
theorem render_injective (hx : x.isNaN = false) (hy : y.isNaN = false)
    (h : x.render style = y.render style) : x = y := by
  obtain ⟨body, hbody, htext⟩ := spelled_render style hx
  obtain ⟨body', hbody', htext'⟩ := spelled_render style hy
  rw [h, htext'] at htext
  have hhead := hbody.head_ne
  have hhead' := hbody'.head_ne
  have hsame : x.isNegative = y.isNegative ∧ body = body' := by
    cases hxs : x.isNegative <;> cases hys : y.isNegative <;>
      simp only [hxs, hys, Bool.false_eq_true, if_true, if_false, List.nil_append,
        List.singleton_append, List.cons.injEq, true_and] at htext
    · exact ⟨rfl, htext.symm⟩
    · rw [← htext] at hhead
      exact absurd rfl hhead
    · rw [htext] at hhead'
      exact absurd rfl hhead'
    · exact ⟨rfl, htext.symm⟩
  obtain ⟨hsign, rfl⟩ := hsame
  exact eq_of_magnitude hsign (hbody.magnitude_eq hbody')

end Double

end SafeExpr
