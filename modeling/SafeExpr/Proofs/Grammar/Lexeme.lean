/-
  SafeExpr/Proofs/Grammar/Lexeme.lean
  ===================================
  **The texts of tokens, and where they end.**

  A token is a word, a number, a quoted text or a sign (`TokenText`).  Where one ends is settled by
  what no longer token begins (`Longest`): for each kind of token it is shown what must not follow.
-/
import Mathlib.Data.List.TakeWhile
import SafeExpr.Proofs.Grammar.Layout
import SafeExpr.Proofs.Grammar.Number
import SafeExpr.Proofs.Grammar.Opening
import SafeExpr.Proofs.Grammar.Quoted

namespace SafeExpr.Grammar

open Outcome (matched failed)

/-! ### Tokens -/

/-- The signs that enclose or separate. -/
def markTexts : List String := ["(", ")", "[", "]", "\x7b", "\x7d", ",", "."]

/-- The signs of operators and assignments, and those that are parts of one. -/
def operatorTexts : List String :=
  ["+", "-", "*", "/", "%", "&", "|", "^", "~", "<", ">", "=", ":", "**", "//", "<<", ">>",
   "==", "!=", "<=", ">=", ":=", "+=", "-=", "*=", "/=", "%=", "&=", "|=", "^=", "@=",
   "**=", "//=", "<<=", ">>="]

/-- The texts of tokens. -/
inductive TokenText : List Char → Prop
  | word {t : List Char} (h : isWord t = true) : TokenText t
  | integer {t : List Char} {n : Nat} (h : IntegerText t n) : TokenText t
  | float {t : List Char} (h : FloatLiteral t) : TokenText t
  | string {t : List Char} (h : StringText t) : TokenText t
  | mark {t : String} (h : t ∈ markTexts) : TokenText t.toList
  | operator {t : String} (h : t ∈ operatorTexts) : TokenText t.toList

/-- No longer token begins where `t` does. -/
def Longest (t rest : List Char) : Prop := ∀ v, TokenText v → v <+: t ++ rest → v <+: t

/-! ### How tokens begin -/

/-- The kinds of characters that tokens begin with. -/
inductive Start where
  | letter | digit | point | quote | bracket | sign | other
deriving DecidableEq

def startOf (c : Char) : Start :=
  if isWordStart c then .letter
  else if c.isDigit then .digit
  else if c = '.' then .point
  else if c = '\'' ∨ c = '"' then .quote
  else if c ∈ "()[]\x7b\x7d,".toList then .bracket
  else if c ∈ "+-*/%&|^~<>=:!@".toList then .sign
  else .other

theorem startOf_digit {c : Char} (h : c.isDigit = true) : startOf c = .digit := by
  have hall : ∀ c ∈ "0123456789".toList, startOf c = .digit :=
    List.all_iff_forall_prop.mp (by decide)
  exact hall c (mem_of_isDigit h)

theorem startOf_word {c : Char} {cs : List Char} (h : isWord (c :: cs) = true) :
    startOf c = .letter := by
  rw [isWord, Bool.and_eq_true] at h
  rw [startOf, if_pos h.1]

theorem mark_length : ∀ t ∈ markTexts, t.toList.length = 1 := by decide

theorem mark_start {t : String} (h : t ∈ markTexts) (hpoint : t ≠ ".") :
    ∃ c, t.toList = [c] ∧ startOf c = .bracket := by
  have hstarts : ∀ t ∈ markTexts, t = "." ∨ t.toList.head?.map startOf = some .bracket := by
    decide
  obtain ⟨c, hc⟩ := List.length_eq_one_iff.mp (mark_length t h)
  have hstart := (hstarts t h).resolve_left hpoint
  rw [hc] at hstart
  exact ⟨c, hc, Option.some.inj hstart⟩

theorem operator_start {t : String} (h : t ∈ operatorTexts) :
    ∃ c cs, t.toList = c :: cs ∧ startOf c = .sign := by
  have hstarts : ∀ t ∈ operatorTexts, t.toList.head?.map startOf = some .sign := by decide
  have hstart := hstarts t h
  cases ht : t.toList with
  | nil =>
    rw [ht] at hstart
    cases hstart
  | cons c cs =>
    rw [ht] at hstart
    exact ⟨c, cs, rfl, Option.some.inj hstart⟩

/-- What a token is, by its first character. -/
inductive Begun : Start → List Char → Prop
  | word {t : List Char} (h : isWord t = true) : Begun .letter t
  | integer {t : List Char} {n : Nat} (h : IntegerText t n) : Begun .digit t
  | float {t : List Char} (h : FloatLiteral t) : Begun .digit t
  | fraction {t : List Char} (h : FloatLiteral t) : Begun .point t
  | point : Begun .point ['.']
  | string {t : List Char} (h : StringText t) : Begun .quote t
  | bracket {t : String} (h : t ∈ markTexts) : Begun .bracket t.toList
  | operator {t : String} (h : t ∈ operatorTexts) : Begun .sign t.toList

theorem integerText_head {t : List Char} {n : Nat} (h : IntegerText t n) :
    ∃ d more, t = d :: more ∧ d.isDigit = true := by
  cases h with
  | decimal hd hds => exact ⟨_, _, rfl, hd⟩
  | marked => exact ⟨'0', _, rfl, by decide⟩

theorem FloatLiteral.head {t : List Char} (h : FloatLiteral t) :
    ∃ c more, t = c :: more ∧ (c.isDigit = true ∨ c = '.') := by
  cases h with
  | point hwhole hplaces hex =>
    rcases hwhole with rfl | hwhole
    · exact ⟨'.', _, rfl, Or.inr rfl⟩
    · obtain ⟨d, more, rfl, hd⟩ := hwhole.head
      exact ⟨d, _, rfl, Or.inl hd⟩
  | exponent hwhole hex =>
    obtain ⟨d, more, rfl, hd⟩ := hwhole.head
    exact ⟨d, _, rfl, Or.inl hd⟩

/-- A token has a first character, and is of the kind that begins with it. -/
theorem TokenText.begun {t : List Char} (h : TokenText t) :
    ∃ c cs, t = c :: cs ∧ Begun (startOf c) t := by
  cases h with
  | word h =>
    cases t with
    | nil => cases h
    | cons c cs =>
      refine ⟨c, cs, rfl, ?_⟩
      rw [startOf_word h]
      exact .word h
  | integer h =>
    obtain ⟨d, more, rfl, hd⟩ := integerText_head h
    refine ⟨d, more, rfl, ?_⟩
    rw [startOf_digit hd]
    exact .integer h
  | float h =>
    obtain ⟨c, more, rfl, hc | rfl⟩ := h.head
    · refine ⟨c, more, rfl, ?_⟩
      rw [startOf_digit hc]
      exact .float h
    · exact ⟨'.', more, rfl, .fraction h⟩
  | string h =>
    obtain ⟨hq, hbody⟩ := h
    refine ⟨_, _, rfl, ?_⟩
    rcases hq with rfl | rfl
    · exact .string (.intro (Or.inl rfl) hbody)
    · exact .string (.intro (Or.inr rfl) hbody)
  | @mark t h =>
    by_cases hpoint : t = "."
    · subst hpoint
      exact ⟨'.', [], rfl, .point⟩
    · obtain ⟨c, ht, hstart⟩ := mark_start h hpoint
      refine ⟨c, [], ht, ?_⟩
      rw [hstart]
      exact .bracket h
  | @operator t h =>
    obtain ⟨c, cs, ht, hstart⟩ := operator_start h
    refine ⟨c, cs, ht, ?_⟩
    rw [hstart]
    exact .operator h

theorem TokenText.ne_nil {t : List Char} (h : TokenText t) : t ≠ [] := by
  obtain ⟨c, cs, rfl, -⟩ := h.begun
  exact List.cons_ne_nil c cs

/-- Tokens that begin one text are of one kind. -/
theorem TokenText.begun_ahead {c : Char} {cs v rest : List Char} (hv : TokenText v)
    (h : v <+: c :: cs ++ rest) : Begun (startOf c) v := by
  obtain ⟨x, xs, rfl, hbegun⟩ := hv.begun
  rw [List.cons_append, List.cons_prefix_cons] at h
  rw [← h.1]
  exact hbegun

/-! ### What tokens are made of -/

theorem DigitsText.chars {ds : List Char} (h : DigitsText ds) : ∀ c ∈ ds, isWordChar c = true := by
  obtain ⟨d, more, rfl, hd, hmore⟩ := h
  exact IntegerText.word (.decimal hd hmore)

/-- The characters of float literals that are no word characters. -/
def fractionChars : List Char := ".+-".toList

theorem ExponentText.chars {ex : List Char} (h : ExponentText ex) :
    ∀ c ∈ ex, isWordChar c = true ∨ c ∈ fractionChars := by
  obtain ⟨he, hsign, hds⟩ := h
  refine List.forall_mem_cons.mpr ⟨?_, List.forall_mem_append.mpr ⟨?_, ?_⟩⟩
  · rcases he with rfl | rfl <;> decide
  · rcases hsign with rfl | rfl | rfl <;> exact List.all_iff_forall_prop.mp (by decide)
  · exact fun c hc => Or.inl (hds.chars c hc)

theorem FloatLiteral.chars {t : List Char} (h : FloatLiteral t) :
    ∀ c ∈ t, isWordChar c = true ∨ c ∈ fractionChars := by
  have hdigits : ∀ {ds : List Char}, ds = [] ∨ DigitsText ds →
      ∀ c ∈ ds, isWordChar c = true ∨ c ∈ fractionChars := by
    rintro ds (rfl | hds) c hc
    · cases hc
    · exact Or.inl (hds.chars c hc)
  cases h with
  | point hwhole hplaces hex =>
    refine List.forall_mem_append.mpr ⟨hdigits hwhole, List.forall_mem_cons.mpr ⟨by decide, ?_⟩⟩
    refine List.forall_mem_append.mpr ⟨hdigits (Or.inr hplaces), ?_⟩
    rcases hex with rfl | hex
    · exact List.forall_mem_nil _
    · exact hex.chars
  | exponent hwhole hex =>
    exact List.forall_mem_append.mpr ⟨hdigits (Or.inr hwhole), hex.chars⟩

theorem not_gapStart_of_word {c : Char} (h : isWordChar c = true) : c ∉ gapStarts := by
  have hall : ∀ c ∈ startChars, c ∉ gapStarts := List.all_iff_forall_prop.mp (by decide)
  exact hall c (mem_startChars h)

/-- Only quoted text contains what a gap can begin with. -/
theorem TokenText.free {t : List Char} (h : TokenText t) (hquoted : ¬ StringText t) :
    ∀ c ∈ t, c ∉ gapStarts := by
  have hsigns : ∀ t ∈ markTexts ++ operatorTexts, t.toList.all (· ∉ gapStarts) = true := by decide
  cases h with
  | word h =>
    have hall := List.all_eq_true.mp (all_isWordChar_of_isWord h)
    exact fun c hc => not_gapStart_of_word (hall c hc)
  | integer h => exact fun c hc => not_gapStart_of_word (h.word c hc)
  | float h =>
    have hall : ∀ c ∈ fractionChars, c ∉ gapStarts := List.all_iff_forall_prop.mp (by decide)
    exact fun c hc => (h.chars c hc).elim not_gapStart_of_word (hall c)
  | string h => exact absurd h hquoted
  | mark h => exact List.all_iff_forall_prop.mp (hsigns _ (List.mem_append_left _ h))
  | operator h => exact List.all_iff_forall_prop.mp (hsigns _ (List.mem_append_right _ h))

theorem solid_of_head {c : Char} (h : c ∉ gapStarts) (cs : List Char) : Solid (c :: cs) := by
  refine solid_cons ?_ cs
  simp only [gapStarts, String.reduceToList] at h
  simpa [solid] using h

/-- A token is not skipped. -/
theorem TokenText.solid {t : List Char} (h : TokenText t) (rest : List Char) :
    Solid (t ++ rest) := by
  obtain ⟨c, cs, rfl, -⟩ := h.begun
  by_cases hquoted : StringText (c :: cs)
  · obtain ⟨hq, -⟩ := hquoted
    rcases hq with rfl | rfl <;> exact solid_of_head (by decide) _
  · exact solid_of_head (h.free hquoted c List.mem_cons_self) _

/-! ### Where a token ends -/

/-- What a token pattern takes in front of a text is settled by the text. -/
theorem Takes.unique {p : Pattern Rule} {t t' rest rest' : List Char} (h : Takes p t rest)
    (h' : Takes p t' rest') (heq : t' ++ rest' = t ++ rest) : t' = t := by
  have hread := h' 0
  rw [heq] at hread
  have hsame := hread.deterministic (h 0)
  simp only [Outcome.matched.injEq, Cursor.mk.injEq] at hsame
  rw [hsame.1.2] at heq
  exact List.append_cancel_right heq

/-- No quoted text begins another. -/
theorem string_eq_of_begins {t v rest : List Char} (ht : StringText t) (hv : StringText v)
    (h : v <+: t ++ rest) : v = t := by
  obtain ⟨more, heq⟩ := h
  exact (takes_string ht rest).unique (takes_string hv more) heq

/-- Digits and underscores. -/
def isSpaced (c : Char) : Bool := c.isDigit || c = '_'

/-- The first character that is neither a digit nor an underscore. -/
def firstMark (t : List Char) : Option Char := (t.dropWhile isSpaced).head?

theorem all_isSpaced {ds : List Char} (h : Spaced Char.isDigit ds) :
    ∀ c ∈ ds, isSpaced c = true := by
  intro c hc
  rcases h.mem c hc with hdigit | rfl
  · simp [isSpaced, hdigit]
  · rfl

theorem DigitsText.all_isSpaced {ds : List Char} (h : DigitsText ds) :
    ∀ c ∈ ds, isSpaced c = true := by
  obtain ⟨d, more, rfl, hd, hmore⟩ := h
  exact Grammar.all_isSpaced (.digit hd hmore)

theorem firstMark_append {ds : List Char} (hds : ∀ c ∈ ds, isSpaced c = true) {c : Char}
    (hc : isSpaced c = false) (cs : List Char) : firstMark (ds ++ c :: cs) = some c := by
  unfold firstMark
  rw [List.dropWhile_append_of_pos hds, List.dropWhile_cons_of_neg (by simp [hc])]
  rfl

theorem FloatLiteral.firstMark {t : List Char} (h : FloatLiteral t) (rest : List Char) :
    ∃ c ∈ ".eE".toList, firstMark (t ++ rest) = some c := by
  cases h with
  | @point whole places ex hwhole hplaces hex =>
    refine ⟨'.', by decide, ?_⟩
    rw [List.append_assoc]
    refine firstMark_append ?_ (by decide) _
    rcases hwhole with rfl | hwhole
    · exact List.forall_mem_nil _
    · exact hwhole.all_isSpaced
  | @exponent whole ex hwhole hex =>
    obtain ⟨he, -, -⟩ := hex
    rw [List.append_assoc]
    rcases he with rfl | rfl
    · exact ⟨'e', by decide, firstMark_append hwhole.all_isSpaced (by decide) _⟩
    · exact ⟨'E', by decide, firstMark_append hwhole.all_isSpaced (by decide) _⟩

/-- The text of an integer does not go on as that of a float within itself. -/
theorem not_float_prefix_of_integer {t w : List Char} {n : Nat} (ht : IntegerText t n)
    (hw : FloatLiteral w) : ¬ w <+: t := by
  rintro ⟨rest, heq⟩
  obtain ⟨c, hc, hmark⟩ := hw.firstMark rest
  rw [heq] at hmark
  cases ht with
  | decimal hd hds =>
    have hall := all_isSpaced (.digit hd hds)
    rw [Grammar.firstMark, List.dropWhile_eq_nil_iff.mpr hall] at hmark
    cases hmark
  | @marked m x ds hm hx hds hne =>
    have hletter := of_letter (P := fun _ x => isSpaced x = false ∧ x ∉ ".eE".toList) hm hx
      (by decide)
    have hzero : ∀ c ∈ ['0'], isSpaced c = true := List.all_iff_forall_prop.mp (by decide)
    have hfirst : firstMark ('0' :: x :: ds) = some x := firstMark_append hzero hletter.1 ds
    rw [hfirst] at hmark
    cases hmark
    exact hletter.2 hc

/-! ### The longest token -/

theorem isWord_of_begun {t : List Char} (h : Begun .letter t) : isWord t = true := by
  cases h with
  | word h => exact h

theorem stringText_of_begun {t : List Char} (h : Begun .quote t) : StringText t := by
  cases h with
  | string h => exact h

/-- Quoted text ends with its quote, whatever follows. -/
theorem longest_string {t : List Char} (h : StringText t) (rest : List Char) :
    Longest t rest := by
  intro v hv hstarts
  suffices hstring : StringText v from
    string_eq_of_begins h hstring hstarts ▸ List.prefix_rfl
  obtain ⟨hq, -⟩ := id h
  have hbegun := hv.begun_ahead hstarts
  rcases hq with rfl | rfl <;> exact stringText_of_begun hbegun

/-- A token is of the kind of what begins where it does. -/
theorem TokenText.begun_behind {c : Char} {cs t rest : List Char} (ht : TokenText t)
    (h : c :: cs <+: t ++ rest) : Begun (startOf c) t := by
  obtain ⟨x, xs, rfl, hbegun⟩ := ht.begun
  rw [(List.cons_prefix_cons.mp h).1]
  exact hbegun

/-- Quoted text begins only where a token is one. -/
theorem string_of_begins {t v rest : List Char} (ht : TokenText t) (hv : StringText v)
    (h : v <+: t ++ rest) : StringText t := by
  obtain ⟨hq, -⟩ := hv
  have hbegun := ht.begun_behind h
  rcases hq with rfl | rfl <;> exact stringText_of_begun hbegun

/-- A word ends where no word character follows. -/
theorem longest_word {t rest : List Char} (h : isWord t = true) (hrest : WordEnds rest) :
    Longest t rest := by
  intro v hv hstarts
  suffices hword : isWord v = true from
    prefix_of_ends (all_isWordChar_of_isWord hword) hrest hstarts
  cases t with
  | nil => cases h
  | cons c cs =>
    have hbegun := hv.begun_ahead hstarts
    rw [startOf_word h] at hbegun
    exact isWord_of_begun hbegun

/-- A float ends where it is read to. -/
theorem longest_float {t rest : List Char} (ht : FloatLiteral t)
    (htakes : Takes (rulePattern .float) t rest) : Longest t rest := by
  intro v hv hstarts
  obtain ⟨more, heq⟩ := id hstarts
  have hfloat : FloatLiteral v → v <+: t := by
    intro hv
    obtain ⟨es, behind, rfl, -, htakes'⟩ := hv.atLeast more
    rw [← htakes.unique htakes' (by rw [List.append_assoc, heq])]
    exact List.prefix_append v es
  obtain ⟨c, cs, rfl, hc⟩ := ht.head
  have hbegun := hv.begun_ahead hstarts
  rcases hc with hc | rfl
  · rw [startOf_digit hc] at hbegun
    cases hbegun with
    | integer hv =>
      rcases List.prefix_or_prefix_of_prefix hstarts (List.prefix_append _ rest) with h | h
      · exact h
      · exact absurd h (not_float_prefix_of_integer hv ht)
    | float hv => exact hfloat hv
  · have hbegun : Begun .point v := hbegun
    cases hbegun with
    | fraction hv => exact hfloat hv
    | point => exact List.cons_prefix_cons.mpr ⟨rfl, List.nil_prefix⟩

/-- An integer ends where it is read to, if no float begins there. -/
theorem longest_integer {t rest : List Char} {n : Nat} (ht : IntegerText t n)
    (htakes : Takes (rulePattern .integer) t rest) {pos : Nat}
    (hfloat : Reads expression false (.one (.rule .float)) ⟨pos, t ++ rest⟩ failed) :
    Longest t rest := by
  intro v hv hstarts
  obtain ⟨more, heq⟩ := id hstarts
  obtain ⟨d, ds, rfl, hd⟩ := integerText_head ht
  have hbegun := hv.begun_ahead hstarts
  rw [startOf_digit hd] at hbegun
  cases hbegun with
  | integer hv =>
    obtain ⟨es, behind, rfl, -, htakes'⟩ := integer_atLeast hv more
    rw [← htakes.unique htakes' (by rw [List.append_assoc, heq])]
    exact List.prefix_append v es
  | float hv =>
    obtain ⟨es, behind, rfl, -, htakes'⟩ := hv.atLeast more
    have hread := htakes'.leaf (r := .float) rfl pos
    rw [List.append_assoc, heq] at hread
    cases hfloat.deterministic hread

/-- A sign that encloses or separates is complete, a point aside. -/
theorem longest_bracket {t : String} (h : t ∈ markTexts) (hpoint : t ≠ ".") (rest : List Char) :
    Longest t.toList rest := by
  intro v hv hstarts
  refine List.prefix_of_prefix_length_le hstarts (List.prefix_append _ rest) ?_
  obtain ⟨c, ht, hstart⟩ := mark_start h hpoint
  rw [ht] at hstarts
  have hbegun := hv.begun_ahead hstarts
  rw [hstart] at hbegun
  cases hbegun with
  | bracket h' => rw [mark_length _ h', mark_length t h]

theorem FloatLiteral.behind_point {more : List Char} (h : FloatLiteral ('.' :: more)) :
    ∃ d ds, more = d :: ds ∧ d.isDigit = true := by
  have hwhole : ∀ {ds rest : List Char}, DigitsText ds → '.' :: more ≠ ds ++ rest := by
    rintro ds rest hds heq
    obtain ⟨d, ds, rfl, hd⟩ := hds.head
    cases heq
    cases hd
  generalize ht : '.' :: more = t at h
  cases h with
  | point hbefore hplaces hex =>
    rcases hbefore with rfl | hbefore
    · obtain ⟨d, ds, rfl, hd⟩ := hplaces.head
      cases ht
      exact ⟨d, _, rfl, hd⟩
    · exact absurd ht (hwhole hbefore)
  | exponent hbefore hex => exact absurd ht (hwhole hbefore)

/-- A point is complete where no digit follows. -/
theorem longest_point {rest : List Char} (hrest : ∀ c ∈ rest.head?, c.isDigit = false) :
    Longest ['.'] rest := by
  intro v hv' hstarts
  have hbegun : Begun .point v := hv'.begun_ahead hstarts
  cases hbegun with
  | point => exact List.prefix_rfl
  | fraction hv =>
    obtain ⟨more, rfl⟩ : ∃ more, v = '.' :: more := by
      cases v with
      | nil => exact absurd rfl hv'.ne_nil
      | cons c more => exact ⟨more, by rw [(List.cons_prefix_cons.mp hstarts).1]⟩
    obtain ⟨d, ds, rfl, hd⟩ := hv.behind_point
    obtain ⟨behind, heq⟩ := hstarts
    cases heq
    rw [hrest d rfl] at hd
    cases hd

/-! ### Operators -/

/-- The characters that can prolong an operator. -/
def hotChars : List Char := "=*<>/".toList

/-- No operator is prolonged here. -/
def Cold (cs : List Char) : Prop := ∀ c ∈ cs.head?, c ∉ hotChars

theorem operator_prolonged : ∀ t ∈ operatorTexts, ∀ v ∈ operatorTexts,
    t.toList <+: v.toList →
      (v.toList.drop t.toList.length).head?.all (· ∈ hotChars) = true := by
  decide

/-- An operator is complete where nothing prolongs it. -/
theorem longest_operator {t : String} (h : t ∈ operatorTexts) {rest : List Char}
    (hrest : Cold rest) : Longest t.toList rest := by
  intro v hv hstarts
  obtain ⟨c, cs, ht, hstart⟩ := operator_start h
  have hbegun := hv.begun_ahead (ht ▸ hstarts)
  rw [hstart] at hbegun
  cases hbegun with
  | @operator w hw =>
    rcases List.prefix_or_prefix_of_prefix hstarts (List.prefix_append _ rest) with hwt | htw
    · exact hwt
    · obtain ⟨tail, heq⟩ := id htw
      have hhot := operator_prolonged t h w hw htw
      rw [← heq, List.drop_left] at hhot
      rw [← heq] at hstarts ⊢
      cases tail with
      | nil => exact List.append_nil _ ▸ List.prefix_rfl
      | cons x tail =>
        obtain ⟨behind, heq⟩ := (List.prefix_append_right_inj _).mp hstarts
        have hcold := hrest x (by rw [← heq]; rfl)
        exact absurd (of_decide_eq_true hhot) hcold

end SafeExpr.Grammar
