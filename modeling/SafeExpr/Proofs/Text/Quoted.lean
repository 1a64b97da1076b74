/-
  SafeExpr/Proofs/Text/Quoted.lean
  ================================
  **Quoted values are decoded to what was quoted.**

  Every character of a quoted value is written in one of three ways (`Written`): as it is,
  behind a backslash, or as two hexadecimal digits.  Decoding goes through these pieces one
  by one, and `readQuoted_quoteValue` puts them together.

  Of any text between quotes, quoted value or not, `StringText` says that it has no third quote
  and no end of a line, unless behind a backslash.
-/
import SafeExpr.Proofs.Number.Digits
import SafeExpr.Text.Quoted

namespace SafeExpr

/-- The two quotes. -/
def IsQuote (q : Char) : Prop := q = '\'' ∨ q = '"'

/-- The ways in which a character is written between quotes `q`. -/
inductive Written (q c : Char) : List Char → Prop
  | plain (hq : c ≠ q) (hbackslash : c ≠ '\\') (hline : c ≠ '\n') : Written q c [c]
  | escaped {x} (hwidth : escapeWidth? x = none) (hx : simpleEscape x = [c]) :
    Written q c ['\\', x]
  | hex {high low : Nat} (hhigh : high < 8) (hlow : low < 16) (hc : c.toNat = high * 16 + low) :
    Written q c ['\\', 'x', high.digitChar, low.digitChar]

theorem digitChar_ne_quote {q : Char} (hq : IsQuote q) (d : Nat) : d.digitChar ≠ q := by
  rcases hq with rfl | rfl
  · simp
  · simp

/-- Two hexadecimal digits are enough for a small number. -/
theorem hexDigits_of_lt {n : Nat} (hn : n < 256) :
    hexDigits n = if n < 16 then [n.digitChar] else [(n / 16).digitChar, (n % 16).digitChar] := by
  rw [hexDigits, Nat.toDigits_eq_if (by decide)]
  split
  · rfl
  · rw [Nat.toDigits_of_lt_base (by omega)]
    rfl

theorem written_valueChar {q : Char} (hq : IsQuote q) (c : Char) :
    Written q c (valueChar q c) := by
  unfold valueChar
  split
  · exact .escaped rfl rfl
  · exact .escaped rfl rfl
  · exact .escaped rfl rfl
  · exact .escaped rfl rfl
  · next hbackslash hline _ _ =>
    split
    · next heq =>
      subst heq
      rcases hq with rfl | rfl
      · exact .escaped rfl rfl
      · exact .escaped rfl rfl
    · next hne =>
      split
      · next hsmall =>
        rw [hexDigits_of_lt (by omega), if_pos hsmall]
        exact .hex (Nat.zero_lt_succ 7) hsmall (Nat.zero_add _).symm
      · next hlarge =>
        split
        · next hcontrol =>
          simp only [Bool.or_eq_true, decide_eq_true_eq] at hcontrol
          rw [hexDigits_of_lt (by omega), if_neg hlarge]
          exact .hex (by omega) (Nat.mod_lt _ (by decide)) (by omega)
        · exact .plain hne hbackslash hline

/-! ### Decoding -/

theorem isHex_digitChar {d : Nat} (h : d < 16) : decodeText.isHex d.digitChar = true := by
  simp only [decodeText.isHex, digitValue?_digitChar h, Option.any_some, decide_eq_true_eq]
  exact h

theorem charOfCode?_toNat (c : Char) : charOfCode? c.toNat = some c := by
  have hvalid : c.toNat < 0xd800 ∨ (0xdfff < c.toNat ∧ c.toNat < 0x110000) := c.valid
  rw [charOfCode?, if_pos (by simpa using hvalid), Char.ofNat_toNat]

theorem charOfCode?_hex {c : Char} {high low : Nat} (hhigh : high < 16) (hlow : low < 16)
    (hc : c.toNat = high * 16 + low) :
    (readNat? 16 [high.digitChar, low.digitChar]).bind charOfCode? = some c := by
  have hfirst : readDigits 16 0 [high.digitChar] = some high := by
    rw [readDigits_digitChar hhigh (by decide), Nat.zero_mul, Nat.zero_add]
  have hread : readNat? 16 [high.digitChar, low.digitChar] = some c.toNat := by
    rw [readNat?, if_neg (by simp), ← List.singleton_append, readDigits_append _ hfirst,
      readDigits_digitChar hlow (by decide), hc]
  rw [hread, Option.bind_some, charOfCode?_toNat]

/-- A character is decoded from the piece that it is written as. -/
theorem decodeText_written {q c : Char} {cs : List Char} (h : Written q c cs) (pos : Nat)
    (rest : List Char) :
    ∃ pos', decodeText none pos (cs ++ rest) = (c :: ·) <$> decodeText none pos' rest := by
  cases h with
  | plain hq hbackslash hline =>
    refine ⟨pos + c.utf8Size, ?_⟩
    rw [List.singleton_append, decodeText]
    · intro h
      exact absurd h hbackslash
    · intro x r h
      exact absurd h hbackslash
  | @escaped x hwidth hx =>
    refine ⟨pos + 1 + x.utf8Size, ?_⟩
    simp only [List.cons_append, List.nil_append, decodeText, hwidth, hx]
  | @hex high low hhigh hlow hc =>
    refine ⟨pos + 2 + 1 + 1, ?_⟩
    have hhigh' : high < 16 := by omega
    simp only [List.cons_append, List.nil_append]
    rw [decodeText]
    simp only [escapeWidth?]
    rw [decodeText, if_pos (isHex_digitChar hhigh')]
    simp only [List.nil_append, List.length_singleton]
    rw [if_neg (by decide), decodeText, if_pos (isHex_digitChar hlow)]
    simp only [List.singleton_append, List.length_cons, List.length_nil]
    rw [if_pos trivial, charOfCode?_hex hhigh' hlow hc]

theorem decodeText_valueChars {q : Char} (hq : IsQuote q) (cs : List Char) (pos : Nat) :
    decodeText none pos (cs.flatMap (valueChar q)) = .ok cs := by
  induction cs generalizing pos with
  | nil => rfl
  | cons c cs ih =>
    obtain ⟨pos', hdecode⟩ :=
      decodeText_written (written_valueChar hq c) pos (cs.flatMap (valueChar q))
    rw [List.flatMap_cons, hdecode, ih]
    rfl

theorem isQuote_valueQuote (cs : List Char) : IsQuote (valueQuote cs) := by
  unfold valueQuote
  split
  · exact Or.inr rfl
  · exact Or.inl rfl

/-- **A quoted value is read as what was quoted.** -/
theorem readQuoted_quoteValue (s : String) (start : Nat) :
    readQuoted start (quoteValue s).toList = .ok s := by
  have hbody : ((quoteValue s).toList.drop 1).dropLast =
      s.toList.flatMap (valueChar (valueQuote s.toList)) := by
    simp [quoteValue]
  rw [readQuoted, hbody, decodeText_valueChars (isQuote_valueQuote _)]
  exact congrArg Except.ok String.ofList_toList

/-! ### Text between quotes -/

/-- What may stand between quotes `q`: a backslash takes the next character. -/
inductive QuotedBody (q : Char) : List Char → Prop
  | nil : QuotedBody q []
  | plain {c cs} (hq : c ≠ q) (hbackslash : c ≠ '\\') (hline : c ≠ '\n')
    (hcs : QuotedBody q cs) : QuotedBody q (c :: cs)
  | escape {c cs} (hcs : QuotedBody q cs) : QuotedBody q ('\\' :: c :: cs)

/-- A text that is quoted from end to end. -/
inductive StringText : List Char → Prop
  | intro {q body} (hq : IsQuote q) (hbody : QuotedBody q body) : StringText (q :: (body ++ [q]))

theorem QuotedBody.written {q c : Char} (hq : IsQuote q) {cs rest : List Char}
    (h : Written q c cs) (hrest : QuotedBody q rest) : QuotedBody q (cs ++ rest) := by
  cases h with
  | plain hne hbackslash hline => exact .plain hne hbackslash hline hrest
  | escaped hwidth hx => exact .escape hrest
  | @hex high low hhigh hlow hc =>
    have hdigit : ∀ d {ds}, QuotedBody q ds → QuotedBody q (Nat.digitChar d :: ds) :=
      fun d ds hds => .plain (digitChar_ne_quote hq d) (by simp) (by simp) hds
    exact .escape (hdigit high (hdigit low hrest))

theorem quotedBody_valueChars {q : Char} (hq : IsQuote q) (cs : List Char) :
    QuotedBody q (cs.flatMap (valueChar q)) := by
  induction cs with
  | nil => exact .nil
  | cons c cs ih => exact .written hq (written_valueChar hq c) ih

theorem stringText_quoteValue (s : String) : StringText (quoteValue s).toList := by
  have hq := isQuote_valueQuote s.toList
  have htext : (quoteValue s).toList =
      valueQuote s.toList :: (s.toList.flatMap (valueChar (valueQuote s.toList)) ++
        [valueQuote s.toList]) := by
    simp [quoteValue]
  rw [htext]
  exact .intro hq (quotedBody_valueChars hq s.toList)

theorem IsQuote.utf8Size {q : Char} (h : IsQuote q) : q.utf8Size = 1 := by
  rcases h with rfl | rfl <;> rfl

end SafeExpr
