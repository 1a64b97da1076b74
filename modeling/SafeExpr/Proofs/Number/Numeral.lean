/-
  SafeExpr/Proofs/Number/Numeral.lean
  ===================================
  **The number that the text of an integer denotes.**

  A digit counts by its place in `0123456789abcdef`, and a row of digits denotes the number of
  which they are the digits (`numeral`).  `IntegerText t n` says which texts are integers and
  what each of them denotes: digits of radix ten, or the mark of another radix and digits of
  that, with single underscores among them.

  Nothing here depends on how such texts are read.  That they are read as what they denote
  is `readInteger?_of_integerText`.
-/
import Mathlib.Data.List.Induction
import Mathlib.Data.Nat.Digits.Defs
import SafeExpr.Grammar.Expression
import SafeExpr.Proofs.Number.Digits

namespace SafeExpr

/-! ### Digits -/

/-- What a digit counts, in either case. -/
def digitOf (c : Char) : Nat := "0123456789abcdef".toList.idxOf c.toLower

/-- The number with these digits, the highest first. -/
def numeral (radix : Nat) (ds : List Char) : Nat := Nat.ofDigits radix (ds.map digitOf).reverse

theorem numeral_append_singleton (radix : Nat) (ds : List Char) (d : Char) :
    numeral radix (ds ++ [d]) = numeral radix ds * radix + digitOf d := by
  simp only [numeral, List.map_append, List.map_cons, List.map_nil, List.reverse_append,
    List.reverse_cons, List.reverse_nil, List.nil_append, List.singleton_append,
    Nat.ofDigits_cons]
  rw [Nat.mul_comm, Nat.add_comm]

def AllDigits (ds : List Char) : Prop := ∀ d ∈ ds, d.isDigit = true

/-- No sign, or one of the two. -/
def signs : List (List Char) := [[], ['+'], ['-']]

/-- A class of characters that are digits of the radix; it holds the small letters for its
    capital ones. -/
structure DigitClass (radix : Nat) (accepts : Char → Bool) : Prop where
  value {c : Char} : accepts c = true → digitValue? c = some (digitOf c)
  bound {c : Char} : accepts c = true → digitOf c < radix
  lower {c : Char} : accepts c = true → accepts c.toLower = true
  lower_value {c : Char} : accepts c = true → digitOf c.toLower = digitOf c
  word {c : Char} : accepts c = true → isWordChar c = true
  plain {c : Char} : accepts c = true → c ≠ '_'

/-- It is enough to look at each member once. -/
theorem digitClass_of_members {radix : Nat} {accepts : Char → Bool} (members : List Char)
    (hmem : ∀ c, accepts c = true → c ∈ members)
    (hcheck : members.all (fun c =>
      digitValue? c == some (digitOf c) && decide (digitOf c < radix) &&
      accepts c.toLower && digitOf c.toLower == digitOf c && isWordChar c && c != '_') = true) :
    DigitClass radix accepts := by
  have hone : ∀ {c : Char}, accepts c = true →
      digitValue? c = some (digitOf c) ∧ digitOf c < radix ∧ accepts c.toLower = true ∧
        digitOf c.toLower = digitOf c ∧ isWordChar c = true ∧ c ≠ '_' := by
    intro c hc
    have h := List.all_eq_true.mp hcheck c (hmem c hc)
    simpa only [Bool.and_eq_true, beq_iff_eq, decide_eq_true_eq, bne_iff_ne, and_assoc] using h
  constructor
  · exact fun hc => (hone hc).1
  · exact fun hc => (hone hc).2.1
  · exact fun hc => (hone hc).2.2.1
  · exact fun hc => (hone hc).2.2.2.1
  · exact fun hc => (hone hc).2.2.2.2.1
  · exact fun hc => (hone hc).2.2.2.2.2

/-- The characters from one to another. -/
def charsBetween (low high : Char) : List Char :=
  (List.range' low.toNat (high.toNat + 1 - low.toNat)).map Char.ofNat

theorem mem_charsBetween {low high c : Char} (hlow : low ≤ c) (hhigh : c ≤ high) :
    c ∈ charsBetween low high := by
  have hlow' : low.toNat ≤ c.toNat := hlow
  have hhigh' : c.toNat ≤ high.toNat := hhigh
  refine List.mem_map.mpr ⟨c.toNat, ?_, Char.ofNat_toNat c⟩
  rw [List.mem_range'_1]
  omega

theorem digitClass_decimal : DigitClass 10 Char.isDigit :=
  digitClass_of_members "0123456789".toList (fun _ => mem_of_isDigit) (by decide)

theorem digitClass_hex : DigitClass 16 isHexDigit := by
  refine digitClass_of_members
    ("0123456789".toList ++ charsBetween 'a' 'f' ++ charsBetween 'A' 'F') ?_ (by decide)
  intro c hc
  simp only [isHexDigit, Bool.or_eq_true, Bool.and_eq_true, decide_eq_true_eq] at hc
  simp only [List.mem_append]
  rcases hc with (hdigit | ⟨hlow, hhigh⟩) | ⟨hlow, hhigh⟩
  · exact Or.inl (Or.inl (mem_of_isDigit hdigit))
  · exact Or.inl (Or.inr (mem_charsBetween hlow hhigh))
  · exact Or.inr (mem_charsBetween hlow hhigh)

theorem digitClass_octal : DigitClass 8 isOctalDigit := by
  refine digitClass_of_members (charsBetween '0' '7') ?_ (by decide)
  intro c hc
  simp only [isOctalDigit, Bool.and_eq_true, decide_eq_true_eq] at hc
  exact mem_charsBetween hc.1 hc.2

theorem digitClass_binary : DigitClass 2 isBinaryDigit := by
  refine digitClass_of_members ['0', '1'] ?_ (by decide)
  intro c hc
  simpa [isBinaryDigit] using hc

section Class

variable {radix : Nat} {accepts : Char → Bool} (hclass : DigitClass radix accepts)
include hclass

/-- **Digits are read as what they denote.** -/
theorem DigitClass.readDigits_eq {ds : List Char} (hds : ∀ d ∈ ds, accepts d = true) :
    readDigits radix 0 ds = some (numeral radix ds) := by
  induction ds using List.reverseRecOn with
  | nil => rfl
  | append_singleton ds d ih =>
    have hd : accepts d = true := hds d (List.mem_append_right ds (List.mem_singleton_self d))
    have hbefore := ih fun c hc => hds c (List.mem_append_left [d] hc)
    rw [readDigits_append [d] hbefore, numeral_append_singleton]
    simp only [readDigits, hclass.value hd, if_pos (hclass.bound hd)]

theorem DigitClass.readNat?_eq {ds : List Char} (hds : ∀ d ∈ ds, accepts d = true) (hne : ds ≠ []) :
    readNat? radix ds = some (numeral radix ds) := by
  rw [readNat?, if_neg (by simpa using hne), hclass.readDigits_eq hds]

end Class

/-! ### Written digits -/

/-- What holds of every digit of the radix holds of every digit that is written. -/
theorem forall_mem_toDigits {radix : Nat} (hradix : 1 < radix) {P : Char → Prop}
    (h : ∀ d < radix, P d.digitChar) (n : Nat) : ∀ c ∈ Nat.toDigits radix n, P c := by
  induction n using Nat.strongRecOn with
  | ind n ih =>
    rw [Nat.toDigits_eq_if hradix]
    split
    · next hlt => simpa using h n hlt
    · next hge =>
      have hdiv : n / radix < n := Nat.div_lt_self (by omega) hradix
      rw [List.forall_mem_append]
      refine ⟨ih (n / radix) hdiv, ?_⟩
      simpa using h (n % radix) (Nat.mod_lt n (by omega))

/-- **The digits of a number denote it.** -/
theorem numeral_toDigits {radix : Nat} {accepts : Char → Bool} (hclass : DigitClass radix accepts)
    (hradix : 1 < radix) (hle : radix ≤ 16) {n : Nat}
    (h : ∀ c ∈ Nat.toDigits radix n, accepts c = true) :
    numeral radix (Nat.toDigits radix n) = n := by
  have hread := hclass.readDigits_eq h
  rw [readDigits_toDigits hradix hle] at hread
  exact (Option.some.inj hread).symm

/-! ### Underscores -/

/-- Digits, each perhaps behind an underscore. -/
inductive Spaced (accepts : Char → Bool) : List Char → Prop
  | nil : Spaced accepts []
  | digit {d ds} (hd : accepts d = true) (hds : Spaced accepts ds) : Spaced accepts (d :: ds)
  | underscore {d ds} (hd : accepts d = true) (hds : Spaced accepts ds) :
    Spaced accepts ('_' :: d :: ds)

theorem Spaced.append {accepts : Char → Bool} {ds es : List Char} (hds : Spaced accepts ds)
    (hes : Spaced accepts es) : Spaced accepts (ds ++ es) := by
  induction hds with
  | nil => exact hes
  | digit hd _ ih => exact .digit hd ih
  | underscore hd _ ih => exact .underscore hd ih

theorem spaced_of_forall {accepts : Char → Bool} {ds : List Char}
    (h : ∀ d ∈ ds, accepts d = true) : Spaced accepts ds := by
  induction ds with
  | nil => exact .nil
  | cons d ds ih =>
    rw [List.forall_mem_cons] at h
    exact .digit h.1 (ih h.2)

theorem withoutUnderscores_of_forall {ds : List Char} (h : ∀ d ∈ ds, d ≠ '_') :
    withoutUnderscores ds = ds := by
  apply List.filter_eq_self.mpr
  intro d hd
  simpa using h d hd

namespace Spaced

variable {radix : Nat} {accepts : Char → Bool} {ds : List Char}

theorem mem (h : Spaced accepts ds) : ∀ c ∈ ds, accepts c = true ∨ c = '_' := by
  induction h with
  | nil => exact List.forall_mem_nil _
  | digit hd _ ih => exact List.forall_mem_cons.mpr ⟨Or.inl hd, ih⟩
  | underscore hd _ ih =>
    exact List.forall_mem_cons.mpr ⟨Or.inr rfl, List.forall_mem_cons.mpr ⟨Or.inl hd, ih⟩⟩

/-- Without its underscores the text is digits. -/
theorem digits (h : Spaced accepts ds) : ∀ d ∈ withoutUnderscores ds, accepts d = true := by
  intro d hd
  obtain ⟨hmem, hplain⟩ := List.mem_filter.mp hd
  exact (h.mem d hmem).resolve_right (by simpa using hplain)

/-- … and at least one, if there was anything. -/
theorem digits_ne_nil (h : Spaced accepts ds) (hclass : DigitClass radix accepts)
    (hne : ds ≠ []) : withoutUnderscores ds ≠ [] := by
  have hkept : ∀ {d : Char}, d ∈ ds → accepts d = true → withoutUnderscores ds ≠ [] := by
    intro d hmem hd
    exact List.ne_nil_of_mem (List.mem_filter.mpr ⟨hmem, by simpa using hclass.plain hd⟩)
  cases h with
  | nil => exact absurd rfl hne
  | digit hd hds => exact hkept List.mem_cons_self hd
  | underscore hd hds => exact hkept (List.mem_cons_of_mem _ List.mem_cons_self) hd

theorem readNat?_eq (h : Spaced accepts ds) (hclass : DigitClass radix accepts) (hne : ds ≠ []) :
    readNat? radix (withoutUnderscores ds) = some (numeral radix (withoutUnderscores ds)) :=
  hclass.readNat?_eq h.digits (h.digits_ne_nil hclass hne)

/-- Small letters are as good as capital ones. -/
theorem lower (h : Spaced accepts ds) (hclass : DigitClass radix accepts) :
    Spaced accepts (ds.map Char.toLower) := by
  induction h with
  | nil => exact .nil
  | digit hd _ ih => exact .digit (hclass.lower hd) ih
  | underscore hd _ ih => exact .underscore (hclass.lower hd) ih

theorem numeral_lower (h : Spaced accepts ds) (hclass : DigitClass radix accepts) :
    numeral radix (withoutUnderscores (ds.map Char.toLower)) =
      numeral radix (withoutUnderscores ds) := by
  have hdigits : (withoutUnderscores (ds.map Char.toLower)).map digitOf =
      (withoutUnderscores ds).map digitOf := by
    induction h with
    | nil => rfl
    | digit hd _ ih | underscore hd _ ih =>
      have hplain := hclass.plain hd
      have hlower := hclass.plain (hclass.lower hd)
      simpa [withoutUnderscores, hplain, hlower, hclass.lower_value hd] using ih
  rw [numeral, numeral, hdigits]

/-- The last character is a digit. -/
theorem accepts_getLast (h : Spaced accepts ds) : ∀ c ∈ ds.getLast?, accepts c = true := by
  have hlast : ∀ {d : Char} {ds : List Char}, accepts d = true →
      (∀ c ∈ ds.getLast?, accepts c = true) → ∀ c ∈ (d :: ds).getLast?, accepts c = true := by
    intro d ds hd hds
    rw [List.getLast?_cons]
    cases hend : ds.getLast? with
    | none => simpa using hd
    | some c => simpa using hds c hend
  induction h with
  | nil => nofun
  | digit hd _ ih => exact hlast hd ih
  | underscore hd _ ih =>
    rw [List.getLast?_cons_cons]
    exact hlast hd ih

end Spaced

/-! ### Integers -/

/-- The mark of a radix other than ten: a zero and a letter, in front of digits. -/
structure RadixMark where
  radix : Nat
  lower : Char
  upper : Char
  accepts : Char → Bool

def radixMarks : List RadixMark :=
  [⟨16, 'x', 'X', isHexDigit⟩, ⟨8, 'o', 'O', isOctalDigit⟩, ⟨2, 'b', 'B', isBinaryDigit⟩]

theorem digitClass_of_mem {m : RadixMark} (hm : m ∈ radixMarks) :
    DigitClass m.radix m.accepts := by
  simp only [radixMarks, List.mem_cons, List.not_mem_nil, or_false] at hm
  rcases hm with rfl | rfl | rfl
  · exact digitClass_hex
  · exact digitClass_octal
  · exact digitClass_binary

/-- What holds of both letters of every mark. -/
theorem of_letter {P : RadixMark → Char → Prop} {m : RadixMark} {x : Char} (hm : m ∈ radixMarks)
    (hx : x = m.lower ∨ x = m.upper) (h : ∀ m ∈ radixMarks, P m m.lower ∧ P m m.upper) :
    P m x := by
  rcases hx with rfl | rfl
  · exact (h m hm).1
  · exact (h m hm).2

/-- The texts of integers, and the number that each of them denotes.  An underscore may stand
    before every digit but the first; behind a mark, before every digit. -/
inductive IntegerText : List Char → Nat → Prop
  | decimal {d ds} (hd : d.isDigit = true) (hds : Spaced Char.isDigit ds) :
    IntegerText (d :: ds) (numeral 10 (withoutUnderscores (d :: ds)))
  | marked {m x ds} (hm : m ∈ radixMarks) (hx : x = m.lower ∨ x = m.upper)
    (hds : Spaced m.accepts ds) (hne : ds ≠ []) :
    IntegerText ('0' :: x :: ds) (numeral m.radix (withoutUnderscores ds))

/-- The text of an integer consists of word characters. -/
theorem IntegerText.word {t : List Char} {n : Nat} (h : IntegerText t n) :
    ∀ c ∈ t, isWordChar c = true := by
  have hspaced : ∀ {radix accepts ds}, DigitClass radix accepts → Spaced accepts ds →
      ∀ c ∈ ds, isWordChar c = true := by
    intro radix accepts ds hclass hds c hc
    rcases hds.mem c hc with haccepts | rfl
    · exact hclass.word haccepts
    · decide
  cases h with
  | decimal hd hds =>
    exact hspaced digitClass_decimal (.digit hd hds)
  | @marked m x ds hm hx hds hne =>
    have hletter : isWordChar x = true :=
      of_letter (P := fun _ x => isWordChar x = true) hm hx (by decide)
    have hbehind := hspaced (digitClass_of_mem hm) hds
    exact List.forall_mem_cons.mpr ⟨by decide, List.forall_mem_cons.mpr ⟨hletter, hbehind⟩⟩

/-- **An integer is read as what its text denotes, if this fits.** -/
theorem readInteger?_of_integerText {t : List Char} {n : Nat} (h : IntegerText t n) :
    readInteger? t = fitInt64 n := by
  cases h with
  | @decimal d ds hd hds =>
    have hspaced : Spaced Char.isDigit (d :: ds) := .digit hd hds
    unfold readInteger?
    rw [splitRadix_of_digits hspaced.digits]
    dsimp only
    rw [hspaced.readNat?_eq digitClass_decimal (List.cons_ne_nil d ds), Option.bind_some]
  | @marked m x ds hm hx hds hne =>
    have hread := hds.readNat?_eq (digitClass_of_mem hm) hne
    have hsplit : splitRadix (withoutUnderscores ('0' :: x :: ds)) =
        (m.radix, withoutUnderscores ds) := by
      simp only [radixMarks, List.mem_cons, List.not_mem_nil, or_false] at hm
      rcases hm with rfl | rfl | rfl
      · rcases hx with rfl | rfl <;> rfl
      · rcases hx with rfl | rfl <;> rfl
      · rcases hx with rfl | rfl <;> rfl
    unfold readInteger?
    rw [hsplit]
    dsimp only
    rw [hread, Option.bind_some]

/-! ### Bases -/

/-- The texts that can be read in a base: those of its own radix, and in base zero those of every
    radix; but no underscore stands directly behind a mark. -/
inductive InBase (base : Nat) : List Char → Nat → Prop
  | decimal {d ds} (hbase : base = 0 ∨ base = 10) (hd : d.isDigit = true)
    (hds : Spaced Char.isDigit ds) :
    InBase base (d :: ds) (numeral 10 (withoutUnderscores (d :: ds)))
  | marked {m x ds} (hbase : base = 0 ∨ base = m.radix) (hm : m ∈ radixMarks)
    (hx : x = m.lower ∨ x = m.upper) (hds : Spaced m.accepts ds) (hne : ds ≠ [])
    (hhead : ds.head? ≠ some '_') :
    InBase base ('0' :: x :: ds) (numeral m.radix (withoutUnderscores ds))

theorem InBase.integerText {base n : Nat} {t : List Char} (h : InBase base t n) :
    IntegerText t n := by
  cases h with
  | decimal hbase hd hds => exact .decimal hd hds
  | marked hbase hm hx hds hne hhead => exact .marked hm hx hds hne

/-- A number is written in radix ten as a text that denotes it. -/
theorem inBase_toDigits {base : Nat} (hbase : base = 0 ∨ base = 10) (n : Nat) :
    InBase base (Nat.toDigits 10 n) n := by
  have hdigits : ∀ c ∈ Nat.toDigits 10 n, c.isDigit = true := isDigit_of_mem_decimal
  have hvalue : numeral 10 (withoutUnderscores (Nat.toDigits 10 n)) = n := by
    rw [withoutUnderscores_of_forall fun c hc => digitClass_decimal.plain (hdigits c hc)]
    exact numeral_toDigits digitClass_decimal (by decide) (by decide) hdigits
  cases htext : Nat.toDigits 10 n with
  | nil => exact absurd htext Nat.toDigits_ne_nil
  | cons d ds =>
    rw [htext] at hdigits hvalue
    rw [List.forall_mem_cons] at hdigits
    have h := InBase.decimal hbase hdigits.1 (spaced_of_forall hdigits.2)
    rwa [hvalue] at h

theorem integerText_toDigits (n : Nat) : IntegerText (Nat.toDigits 10 n) n :=
  (inBase_toDigits (Or.inr rfl) n).integerText

theorem radix_bounds {m : RadixMark} (hm : m ∈ radixMarks) : 1 < m.radix ∧ m.radix ≤ 16 := by
  simp only [radixMarks, List.mem_cons, List.not_mem_nil, or_false] at hm
  rcases hm with rfl | rfl | rfl <;> decide

/-- The digits that are written in a marked radix are digits of it. -/
theorem accepts_of_mem_toDigits {m : RadixMark} (hm : m ∈ radixMarks) (n : Nat) :
    ∀ c ∈ Nat.toDigits m.radix n, m.accepts c = true := by
  simp only [radixMarks, List.mem_cons, List.not_mem_nil, or_false] at hm
  rcases hm with rfl | rfl | rfl
  · exact forall_mem_toDigits (by decide) (by decide) n
  · exact forall_mem_toDigits (by decide) (by decide) n
  · exact forall_mem_toDigits (by decide) (by decide) n

/-- … and so it is in the other radixes, behind their marks. -/
theorem inBase_marked {base : Nat} {m : RadixMark} (hbase : base = 0 ∨ base = m.radix)
    (hm : m ∈ radixMarks) (n : Nat) :
    InBase base ('0' :: m.lower :: Nat.toDigits m.radix n) n := by
  have hclass := digitClass_of_mem hm
  have hdigits := accepts_of_mem_toDigits hm n
  have hplain : ∀ c ∈ Nat.toDigits m.radix n, c ≠ '_' := fun c hc => hclass.plain (hdigits c hc)
  have hhead : (Nat.toDigits m.radix n).head? ≠ some '_' :=
    fun h => hplain '_' (List.mem_of_mem_head? h) rfl
  obtain ⟨hradix, hle⟩ := radix_bounds hm
  have h := InBase.marked hbase hm (Or.inl rfl) (spaced_of_forall hdigits) Nat.toDigits_ne_nil hhead
  rwa [withoutUnderscores_of_forall hplain, numeral_toDigits hclass hradix hle hdigits] at h

/-! ### Signs -/

/-- The absolute value, behind a minus sign if the number is negative. -/
def signedText (n : Int64) (cs : List Char) : List Char := if n.toInt < 0 then '-' :: cs else cs

end SafeExpr
