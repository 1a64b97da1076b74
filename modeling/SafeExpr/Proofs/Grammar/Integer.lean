/-
  SafeExpr/Proofs/Grammar/Integer.lean
  ====================================
  **Reading integers.**

  The texts of integers are those that the grammar reads as one, in both directions: what the
  rule matches is such a text (`integerText_of_reads`), and such a text is matched in front of
  everything that does not prolong it (`takes_integer`).  Neither a word nor a fraction may go
  on there (`Cut`), or the text would be the beginning of something else (`float_fails`).
-/
import SafeExpr.Proofs.Grammar.Word
import SafeExpr.Proofs.Number.Numeral

namespace SafeExpr.Grammar

open Outcome (matched failed)
open Pattern (lit)

/-- Neither a word nor a fraction goes on here. -/
structure Cut (rest : List Char) : Prop where
  word : WordEnds rest
  point : ∀ ds, rest = '.' :: ds → ∀ d ∈ ds.head?, d.isDigit = false

theorem cut_nil : Cut [] where
  word := by
    rintro c ⟨⟩
  point := by
    rintro ds ⟨⟩

theorem cut_cons {c : Char} (hword : isWordChar c = false) (hpoint : c ≠ '.') (cs : List Char) :
    Cut (c :: cs) where
  word := by
    rintro _ ⟨⟩
    exact hword
  point := by
    rintro ds ⟨⟩
    exact absurd rfl hpoint

theorem cut_of_followers {rest : List Char} (h : Begins followers rest) : Cut rest := by
  obtain ⟨a, ha, more, rfl, hends⟩ := h
  simp only [followers, List.map_cons, List.map_nil, List.mem_cons, List.not_mem_nil,
    or_false] at ha
  rcases ha with rfl | rfl | rfl | rfl | rfl | rfl
  · rw [hends rfl]
    exact cut_nil
  all_goals exact cut_cons (by decide) (by decide) _

variable {radix : Nat} {accepts : Char → Bool} {t ds rest : List Char} {n : Nat}

/-! ### Digits -/

/-- No digit of the class goes on here, nor an underscore. -/
def DigitsEnd (accepts : Char → Bool) (rest : List Char) : Prop :=
  ∀ c ∈ rest.head?, accepts c = false ∧ c ≠ '_'

theorem digitsEnd_of_wordEnds (hclass : DigitClass radix accepts) (hrest : WordEnds rest) :
    DigitsEnd accepts rest := by
  intro c hc
  have hword := hrest c hc
  constructor
  · rw [← Bool.not_eq_true]
    intro haccepts
    rw [hclass.word haccepts] at hword
    cases hword
  · rintro rfl
    cases hword

/-- No digit of the class goes on here, not even behind an underscore. -/
def DigitsStop (accepts : Char → Bool) (rest : List Char) : Prop :=
  (∀ c ∈ rest.head?, accepts c = false) ∧
    ∀ more, rest = '_' :: more → ∀ c ∈ more.head?, accepts c = false

theorem DigitsEnd.stops (h : DigitsEnd accepts rest) : DigitsStop accepts rest := by
  refine ⟨fun c hc => (h c hc).1, ?_⟩
  rintro more rfl
  exact absurd rfl (h '_' rfl).2

/-- A digit, perhaps behind an underscore. -/
def spacedDigit (accepts : Char → Bool) : Pattern Rule := .optional (lit "_") ++ .char accepts

theorem takes_no_underscore (h : ∀ c ∈ rest.head?, c ≠ '_') :
    Takes (.optional (lit "_")) [] rest := by
  refine takes_nothing fun pos => .optionalSkips (.textFails (take?_eq_none ?_ pos))
  rintro ⟨more, rfl⟩
  exact h '_' rfl rfl

theorem takes_digit {d : Char} (hd : accepts d = true) (hplain : d ≠ '_') (rest : List Char) :
    Takes (spacedDigit accepts) [d] rest := by
  have hskip : Takes (.optional (lit "_")) [] ([d] ++ rest) := by
    apply takes_no_underscore
    rintro _ ⟨⟩
    exact hplain
  exact hskip.seq (takes_char hd rest)

theorem takes_underscore {d : Char} (hd : accepts d = true) (rest : List Char) :
    Takes (spacedDigit accepts) ['_', d] rest := by
  have hunderscore : Takes (.optional (lit "_")) ['_'] ([d] ++ rest) := fun pos =>
    .optional (takes_text ['_'] ([d] ++ rest) pos)
  exact hunderscore.seq (takes_char hd rest)

theorem char_fails {cs : List Char} (h : ∀ c ∈ cs.head?, accepts c = false) (pos : Nat) :
    Reads expression true (.one (.char accepts)) ⟨pos, cs⟩ failed := by
  refine .charFails ?_
  cases cs with
  | nil => rfl
  | cons c cs => simp [Cursor.char?, h c rfl]

theorem digit_fails (h : DigitsStop accepts rest) (pos : Nat) :
    Reads expression true (.one (spacedDigit accepts)) ⟨pos, rest⟩ failed := by
  by_cases hunderscore : ['_'] <+: rest
  · obtain ⟨more, rfl⟩ := hunderscore
    exact .seqFailsLater (.optional (takes_text ['_'] more pos)) (char_fails (h.2 more rfl) _)
  · exact .seqFailsLater (.optionalSkips (.textFails (take?_eq_none hunderscore pos)))
      (char_fails h.1 pos)

theorem takesMore_spaced (hclass : DigitClass radix accepts) (hds : Spaced accepts ds)
    (hrest : DigitsStop accepts rest) : TakesMore (spacedDigit accepts) ds rest := by
  induction hds with
  | nil => exact .ends (digit_fails hrest)
  | digit hd _ ih => exact .piece (takes_digit hd (hclass.plain hd) _) ih
  | underscore hd _ ih => exact .piece (takes_underscore hd _) ih

theorem takes_digits (hclass : DigitClass radix accepts) {d : Char} (hd : accepts d = true)
    (hds : Spaced accepts ds) (hrest : DigitsStop accepts rest) :
    Takes (digits accepts) (d :: ds) rest := by
  have hfirst : Takes (.char accepts) [d] (ds ++ rest) := takes_char hd _
  exact hfirst.seq (takesMore_spaced hclass hds hrest).many

/-- The digits behind a mark: any of them may stand behind an underscore. -/
theorem takes_spaced (hclass : DigitClass radix accepts) (hds : Spaced accepts ds) (hne : ds ≠ [])
    (hrest : DigitsStop accepts rest) : Takes (Pattern.some (spacedDigit accepts)) ds rest := by
  cases hds with
  | nil => exact absurd rfl hne
  | @digit d ds hd hds =>
    have hfirst : Takes (spacedDigit accepts) [d] (ds ++ rest) :=
      takes_digit hd (hclass.plain hd) _
    exact hfirst.seq (takesMore_spaced hclass hds hrest).many
  | @underscore d ds hd hds =>
    have hfirst : Takes (spacedDigit accepts) ['_', d] (ds ++ rest) := takes_underscore hd _
    exact hfirst.seq (takesMore_spaced hclass hds hrest).many

/-! ### Integers are matched -/

/-- A text of word characters with one that is neither a digit nor an underscore does not
    begin a decimal number. -/
theorem not_prefix_digits {v : List Char} (hv : v.all isWordChar = true) {x : Char} (hx : x ∈ v)
    (hdigit : x.isDigit = false ∧ x ≠ '_') (hds : Spaced Char.isDigit ds) (hrest : WordEnds rest) :
    ¬ v <+: ds ++ rest := by
  intro h
  have hmem : x ∈ ds := (prefix_of_ends hv hrest h).subset hx
  rcases hds.mem x hmem with h | h
  · rw [h] at hdigit
    cases hdigit.1
  · exact hdigit.2 h

theorem prefixedInteger_fails {lower upper : String} {c : Cursor}
    (hlower : ¬ lower.toList <+: c.rest) (hupper : ¬ upper.toList <+: c.rest) :
    Reads expression true (.one (prefixedInteger lower upper accepts)) c failed :=
  .seqFails (.choiceLater (.textFails (take?_eq_none hlower c.pos))
    (.textFails (take?_eq_none hupper c.pos)))

/-- A mark in one of its spellings. -/
theorem takes_mark {lower upper : String} {mark : List Char}
    (hmark : mark = lower.toList ∨ mark = upper.toList ∧ ¬ lower.toList <+: mark ++ rest) :
    Takes (lit lower ||| lit upper) mark rest := by
  intro pos
  rcases hmark with rfl | ⟨rfl, hlower⟩
  · exact .choice (takes_text _ _ pos)
  · exact .choiceLater (.textFails (take?_eq_none hlower pos)) (takes_text _ _ pos)

/-- Digits alone are matched, as no mark begins them. -/
theorem takes_decimal {d : Char} (hd : d.isDigit = true) (hds : Spaced Char.isDigit ds)
    (hrest : WordEnds rest) : Takes (rulePattern .integer) (d :: ds) rest := by
  have hspaced : Spaced Char.isDigit (d :: ds) := .digit hd hds
  have hnot : ∀ {v : List Char} {x : Char}, v.all isWordChar = true → x ∈ v →
      x.isDigit = false ∧ x ≠ '_' → ¬ v <+: d :: ds ++ rest :=
    fun hv hx hdigit => not_prefix_digits hv hx hdigit hspaced hrest
  intro pos
  refine .choiceLater (prefixedInteger_fails
    (hnot (x := 'x') (by decide) (by decide) (by decide))
    (hnot (x := 'X') (by decide) (by decide) (by decide))) ?_
  refine .choiceLater (prefixedInteger_fails
    (hnot (x := 'o') (by decide) (by decide) (by decide))
    (hnot (x := 'O') (by decide) (by decide) (by decide))) ?_
  refine .choiceLater (prefixedInteger_fails
    (hnot (x := 'b') (by decide) (by decide) (by decide))
    (hnot (x := 'B') (by decide) (by decide) (by decide))) ?_
  exact takes_digits digitClass_decimal hd hds
    (digitsEnd_of_wordEnds digitClass_decimal hrest).stops pos

/-- Digits behind a mark are matched, as the marks in front of this one have other letters. -/
theorem takes_marked {m : RadixMark} {x : Char} (hm : m ∈ radixMarks)
    (hx : x = m.lower ∨ x = m.upper) (hbehind : Takes (Pattern.some (spacedDigit m.accepts)) ds rest) :
    Takes (rulePattern .integer) ('0' :: x :: ds) rest := by
  intro pos
  simp only [radixMarks, List.mem_cons, List.not_mem_nil, or_false] at hm
  rcases hm with rfl | rfl | rfl
  · have hmark : Takes (lit "0x" ||| lit "0X") ['0', x] (ds ++ rest) :=
      takes_mark (by rcases hx with rfl | rfl <;> simp)
    exact .choice (hmark.seq hbehind pos)
  · have hmark : Takes (lit "0o" ||| lit "0O") ['0', x] (ds ++ rest) :=
      takes_mark (by rcases hx with rfl | rfl <;> simp)
    refine .choiceLater ?_ (.choice (hmark.seq hbehind pos))
    rcases hx with rfl | rfl <;> exact prefixedInteger_fails (by simp) (by simp)
  · have hmark : Takes (lit "0b" ||| lit "0B") ['0', x] (ds ++ rest) :=
      takes_mark (by rcases hx with rfl | rfl <;> simp)
    refine .choiceLater ?_ (.choiceLater ?_ (.choice (hmark.seq hbehind pos)))
    · rcases hx with rfl | rfl <;> exact prefixedInteger_fails (by simp) (by simp)
    · rcases hx with rfl | rfl <;> exact prefixedInteger_fails (by simp) (by simp)

/-- **The text of an integer is matched.** -/
theorem takes_integer (h : IntegerText t n) (hrest : WordEnds rest) :
    Takes (rulePattern .integer) t rest := by
  cases h with
  | decimal hd hds => exact takes_decimal hd hds hrest
  | marked hm hx hds hne =>
    have hclass := digitClass_of_mem hm
    have hends := digitsEnd_of_wordEnds hclass hrest
    exact takes_marked hm hx (takes_spaced hclass hds hne hends.stops)

/-! ### … and nothing else is -/

/-- How a number begins. -/
def digitStarts : List Ahead := "0123456789".toList.map fun c => ⟨[c], false⟩

theorem begins_digit {d : Char} (hd : d.isDigit = true) (cs : List Char) :
    Begins digitStarts (d :: cs) := by
  have hstart : (⟨[d], false⟩ : Ahead) ∈ digitStarts := List.mem_map_of_mem (mem_of_isDigit hd)
  exact begins_cons hstart cs

theorem begins_integer (h : IntegerText t n) (rest : List Char) :
    Begins digitStarts (t ++ rest) := by
  cases h with
  | decimal hd hds => exact begins_digit hd _
  | marked hm hx hds hne => exact begins_digit (by decide) _

/-- Digits are no float if neither a point with a digit nor an exponent follows. -/
theorem float_fails_of_digits {d : Char} (hd : d.isDigit = true)
    (htakes : Takes decimalDigits (d :: ds) rest)
    (hpoint : ∀ es, rest = '.' :: es → ∀ e ∈ es.head?, e.isDigit = false)
    (hexponent : ∀ c ∈ rest.head?, c ≠ 'e' ∧ c ≠ 'E') (pos : Nat) :
    Reads expression false (.one (.rule .float)) ⟨pos, d :: ds ++ rest⟩ failed := by
  have hdigits := htakes pos
  have hfraction : Reads expression true (.one (lit "." ++ decimalDigits))
      ⟨pos + byteLength (d :: ds), rest⟩ failed := by
    by_cases hprefix : ['.'] <+: rest
    · obtain ⟨es, rfl⟩ := hprefix
      have hes := hpoint es rfl
      refine .seqFailsLater (takes_text ['.'] es _) (.seqFails (.charFails ?_))
      cases es with
      | nil => rfl
      | cons e es => simp [gap, Cursor.char?, hes e rfl]
    · exact .seqFails (.textFails (take?_eq_none hprefix _))
  have hletter : ∀ c : Char, c = 'e' ∨ c = 'E' →
      Reads expression true (.one (.text [c])) ⟨pos + byteLength (d :: ds), rest⟩ failed := by
    intro c hc
    refine .textFails (take?_eq_none ?_ _)
    rintro ⟨more, rfl⟩
    obtain ⟨hlower, hupper⟩ := hexponent c rfl
    exact hc.elim hlower hupper
  have hnoExponent : Reads expression true (.one exponentPart)
      ⟨pos + byteLength (d :: ds), rest⟩ failed :=
    .seqFails (.seqFails (.choiceLater (hletter 'e' (Or.inl rfl)) (hletter 'E' (Or.inr rfl))))
  refine .ruleFails (.choiceLater ?_ (.choiceLater ?_ ?_))
  · cases hfraction with
    | seqFails hpoint => exact .seqFails (.seqFails (.seqFailsLater hdigits hpoint))
    | seqFailsLater hpoint hplaces => exact .seqFails (.seqFailsLater (.seq hdigits hpoint) hplaces)
  · have hbegins := begins_digit hd (ds ++ rest)
    exact reads_failed_of_decides (by decide) hbegins (skipBlanks_of_solid hbegins (by decide))
  · exact .seqFailsLater hdigits hnoExponent

/-- **The text of an integer does not begin a float.** -/
theorem float_fails (h : IntegerText t n) (hrest : Cut rest) (pos : Nat) :
    Reads expression false (.one (.rule .float)) ⟨pos, t ++ rest⟩ failed := by
  cases h with
  | @decimal d ds hd hds =>
    have hends := digitsEnd_of_wordEnds digitClass_decimal hrest.word
    have htakes := takes_digits digitClass_decimal hd hds hends.stops
    refine float_fails_of_digits hd htakes hrest.point ?_ pos
    intro c hc
    have hword := hrest.word c hc
    constructor
    · rintro rfl
      cases hword
    · rintro rfl
      cases hword
  | @marked m x ds hm hx hds hne =>
    -- only the zero is read, up to the letter of the mark
    obtain ⟨hdigit, hplain, hpoint, hexponent⟩ := of_letter
      (P := fun _ x => x.isDigit = false ∧ x ≠ '_' ∧ x ≠ '.' ∧ x ≠ 'e' ∧ x ≠ 'E') hm hx (by decide)
    have hzero : Takes decimalDigits ['0'] (x :: (ds ++ rest)) := by
      refine takes_digits digitClass_decimal (by decide) .nil (DigitsEnd.stops ?_)
      rintro _ ⟨⟩
      exact ⟨hdigit, hplain⟩
    refine float_fails_of_digits (by decide) hzero ?_ ?_ pos
    · rintro es ⟨⟩
      exact absurd rfl hpoint
    · rintro _ ⟨⟩
      exact hexponent

/-! ### What is matched is the text of an integer -/

/-- One more digit of a class, perhaps behind an underscore. -/
theorem spaced_of_reads {c d : Cursor} {ts : List (Tree Rule)}
    (h : Reads expression true (.one (spacedDigit accepts)) c (matched d ts)) :
    ∃ cs, c.Passes d cs ∧ cs ≠ [] ∧ ∀ {ds}, Spaced accepts ds → Spaced accepts (cs ++ ds) := by
  cases h with
  | seq hoptional hdigit =>
    cases hdigit with
    | char hchar =>
      obtain ⟨x, hx, hpasses⟩ := Cursor.passes_of_char? hchar
      cases hoptional with
      | optional hunderscore =>
        cases hunderscore with
        | text htext =>
          exact ⟨['_', x], (Cursor.passes_of_take? htext).trans hpasses, List.cons_ne_nil _ _,
            .underscore hx⟩
      | optionalSkips => exact ⟨[x], hpasses, List.cons_ne_nil _ _, .digit hx⟩

theorem spaced_of_reads_more {goal : Goal Rule} {b : Bool} {c : Cursor} {o : Outcome Rule}
    (h : Reads expression b goal c o) :
    ∀ d ts, o = matched d ts → b = true → goal = .more (spacedDigit accepts) →
      ∃ ds, Spaced accepts ds ∧ c.Passes d ds := by
  induction h with
  | @more b p c d e ts us hp hmore ihp ihmore =>
    rintro _ _ ⟨⟩ rfl ⟨⟩
    obtain ⟨ds, hds, hbehind⟩ := ihmore _ _ rfl rfl rfl
    obtain ⟨cs, hfirst, -, hspaced⟩ := spaced_of_reads hp
    exact ⟨cs ++ ds, hspaced hds, hfirst.trans hbehind⟩
  | moreEnds hp =>
    rintro _ _ ⟨⟩ rfl ⟨⟩
    exact ⟨[], .nil, .refl _⟩
  | _ =>
    intro _ _ _ _ hgoal
    cases hgoal

theorem spaced_of_reads_many {c d : Cursor} {ts : List (Tree Rule)}
    (h : Reads expression true (.one (.many (spacedDigit accepts))) c (matched d ts)) :
    ∃ ds, Spaced accepts ds ∧ c.Passes d ds := by
  cases h with
  | many hp hmore => exact spaced_of_reads_more (.more hp hmore) _ _ rfl rfl rfl
  | manySkips => exact ⟨[], .nil, .refl _⟩

/-- The mark of a radix, and digits behind it. -/
theorem marked_of_prefixed {m : RadixMark} {lower upper : String}
    (hlower : lower.toList = ['0', m.lower]) (hupper : upper.toList = ['0', m.upper])
    {c d : Cursor} {ts : List (Tree Rule)}
    (h : Reads expression true (.one (prefixedInteger lower upper m.accepts)) c (matched d ts)) :
    ∃ x ds, (x = m.lower ∨ x = m.upper) ∧ Spaced m.accepts ds ∧ ds ≠ [] ∧
      c.Passes d ('0' :: x :: ds) := by
  cases h with
  | @seq _ _ _ _ c' _ _ _ hmark hdigits =>
    have hletter : ∃ x, (x = m.lower ∨ x = m.upper) ∧ c.Passes c' ['0', x] := by
      cases hmark with
      | choice h =>
        cases h with
        | text h => exact ⟨m.lower, Or.inl rfl, hlower ▸ Cursor.passes_of_take? h⟩
      | choiceLater _ h =>
        cases h with
        | text h => exact ⟨m.upper, Or.inr rfl, hupper ▸ Cursor.passes_of_take? h⟩
    obtain ⟨x, hx, hmark⟩ := hletter
    cases hdigits with
    | seq hfirst hmore =>
      obtain ⟨cs, hfirst, hne, hspaced⟩ := spaced_of_reads hfirst
      obtain ⟨ds, hds, hbehind⟩ := spaced_of_reads_many hmore
      refine ⟨x, cs ++ ds, hx, hspaced hds, by simp [hne], ?_⟩
      exact hmark.trans (hfirst.trans hbehind)

theorem integerText_of_prefixed {m : RadixMark} (hm : m ∈ radixMarks) {lower upper : String}
    (hlower : lower.toList = ['0', m.lower]) (hupper : upper.toList = ['0', m.upper])
    {c d : Cursor} {ts : List (Tree Rule)}
    (h : Reads expression true (.one (prefixedInteger lower upper m.accepts)) c (matched d ts)) :
    ∃ t n, IntegerText t n ∧ c.Passes d t := by
  obtain ⟨x, ds, hx, hds, hne, hpasses⟩ := marked_of_prefixed hlower hupper h
  exact ⟨_, _, .marked hm hx hds hne, hpasses⟩

/-- **What is matched as an integer is the text of one.** -/
theorem integerText_of_reads {c d : Cursor} {ts : List (Tree Rule)}
    (h : Reads expression true (.one (rulePattern .integer)) c (matched d ts)) :
    ∃ t n, IntegerText t n ∧ c.Passes d t := by
  cases h with
  | choice h =>
    exact integerText_of_prefixed (m := ⟨16, 'x', 'X', isHexDigit⟩) (by simp [radixMarks])
      rfl rfl h
  | choiceLater _ h =>
    cases h with
    | choice h =>
      exact integerText_of_prefixed (m := ⟨8, 'o', 'O', isOctalDigit⟩) (by simp [radixMarks])
        rfl rfl h
    | choiceLater _ h =>
      cases h with
      | choice h =>
        exact integerText_of_prefixed (m := ⟨2, 'b', 'B', isBinaryDigit⟩) (by simp [radixMarks])
          rfl rfl h
      | choiceLater _ h =>
        cases h with
        | seq hfirst hmore =>
          cases hfirst with
          | char hchar =>
            obtain ⟨x, hx, hfirst⟩ := Cursor.passes_of_char? hchar
            obtain ⟨ds, hds, hbehind⟩ := spaced_of_reads_many hmore
            exact ⟨_, _, .decimal hx hds, hfirst.trans hbehind⟩

end SafeExpr.Grammar
