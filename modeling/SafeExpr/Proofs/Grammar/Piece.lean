/-
  SafeExpr/Proofs/Grammar/Piece.lean
  ==================================
  **What the grammar reads where a token stands.**

  A rule that is read as one piece takes the token as a whole or fails, and which of the two it
  does depends on the token alone (`atToken`).  A sign that a rule spells out is the token, or
  the beginning of an operator of which another sign is left (`operator_of_begins`).
-/
import SafeExpr.Proofs.Grammar.Tokens
import SafeExpr.Proofs.Parse.Scan

namespace SafeExpr.Grammar

open Outcome (matched failed)
open Pattern (lit oneOf)

/-- A rule takes the token, or it fails there, whatever follows. -/
inductive AtToken (r : Rule) (t : List Char) : Prop
  | takes (h : ∀ rest, Follows t rest → Takes (rulePattern r) t rest)
  | fails (h : ∀ rest, Follows t rest → Fails (.rule r) (t ++ rest))

variable {r : Rule} {t cs rest : List Char}

theorem fails_of_pattern (hr : isSolid r = true)
    (h : ∀ pos, Reads expression true (.one (rulePattern r)) ⟨pos, cs⟩ failed) :
    Fails (.rule r) cs := by
  intro pos
  have htoken : expression.isToken r = true := hr
  refine .ruleFails ?_
  rw [htoken]
  exact h pos

/-! ### Words -/

/-- A token is a word, or it does not begin as one. -/
theorem TokenText.word_or_not (h : TokenText t) :
    isWord t = true ∨ ∃ c cs, t = c :: cs ∧ isWordStart c = false := by
  obtain ⟨c, cs, rfl, hbegun⟩ := h.begun
  by_cases hstart : isWordStart c = true
  · rw [startOf, if_pos hstart] at hbegun
    exact Or.inl (isWord_of_begun hbegun)
  · exact Or.inr ⟨c, cs, rfl, by simpa using hstart⟩

/-- Behind a word that is as long as it can be, no word character follows. -/
theorem Longest.wordEnds (h : Longest t rest) (ht : isWord t = true) : WordEnds rest := by
  cases rest with
  | nil => exact nofun
  | cons c rest =>
    refine wordEnds_cons ?_ rest
    rw [← Bool.not_eq_true]
    intro hc
    have hlonger : isWord (t ++ [c]) = true := by
      cases t with
      | nil => cases ht
      | cons x xs =>
        rw [isWord, Bool.and_eq_true] at ht
        rw [List.cons_append, isWord, List.all_append, ht.1, ht.2]
        simpa using hc
    have hle := h _ (.word hlonger) ⟨rest, by simp⟩
    have := hle.length_le
    simp at this

theorem ne_leadingWord {w : List Char} {c : Char} (hw : isWord w = true)
    (hc : isWordStart c = false) (cs : List Char) : w ≠ leadingWord (c :: cs) := by
  rintro rfl
  rw [leadingWord, List.takeWhile_cons] at hw
  split at hw
  · rw [isWord, hc] at hw
    cases hw
  · cases hw

/-- A rule of certain words takes each of them, and no other token. -/
theorem words_atToken (words : List String) (hr : rulePattern r = anyWord words)
    (hsolid : isSolid r = true) (hwords : Separate words)
    (hstarts : ∀ w ∈ words, isWord w.toList = true) (ht : TokenText t) : AtToken r t := by
  rcases ht.word_or_not with hword | ⟨c, cs, rfl, hstart⟩
  · have hchars := all_isWordChar_of_isWord hword
    by_cases hmem : String.ofList t ∈ words
    · refine .takes fun rest hrest => ?_
      have htakes := takes_anyWord_of_mem hwords hmem (hrest.longest.wordEnds hword)
      rwa [String.toList_ofList, ← hr] at htakes
    · refine .fails fun rest hrest => fails_words words hr hsolid hwords.chars ?_
      intro w hw heq
      rw [leadingWord_append hchars (hrest.longest.wordEnds hword)] at heq
      rw [← heq, String.ofList_toList] at hmem
      exact hmem hw
  · exact .fails fun rest _ => fails_words words hr hsolid hwords.chars fun w hw =>
      ne_leadingWord (hstarts w hw) hstart _

theorem char_start_fails {c : Char} (h : isWordStart c = false) (pos : Nat) (cs : List Char) :
    Reads expression true (.one (.char isWordStart)) ⟨pos, c :: cs⟩ failed :=
  .charFails (by simp [Cursor.char?, h])

theorem memberName_atToken (ht : TokenText t) : AtToken .memberName t := by
  rcases ht.word_or_not with hword | ⟨c, cs, rfl, hstart⟩
  · exact .takes fun rest hrest => takes_word hword (hrest.longest.wordEnds hword)
  · exact .fails fun rest _ => fails_of_pattern rfl fun pos =>
      .seqFails (char_start_fails hstart pos _)

theorem ident_atToken (ht : TokenText t) : AtToken .ident t := by
  rcases ht.word_or_not with hword | ⟨c, cs, rfl, hstart⟩
  · by_cases hmem : String.ofList t ∈ reservedWords
    · refine .fails fun rest hrest => fails_of_pattern rfl fun pos => ?_
      have hread := takes_anyWord_of_mem separate_reservedWords hmem
        (hrest.longest.wordEnds hword) pos
      rw [String.toList_ofList] at hread
      exact .seqFails (.seqFails (.unlessFails hread))
    · refine .takes fun rest hrest => ?_
      have hname : isName (String.ofList t) = true := by
        simp [isName, hword, hmem]
      have htakes := takes_ident hname (hrest.longest.wordEnds hword)
      rwa [String.toList_ofList] at htakes
  · refine .fails fun rest _ => fails_of_pattern rfl fun pos => ?_
    have hwords : ∀ w ∈ reservedWords, isWord w.toList = true := by decide
    have hnone := anyWord_fails separate_reservedWords.chars
      (fun w hw => ne_leadingWord (hwords w hw) hstart (cs ++ rest)) pos
    exact .seqFails (.seqFailsLater (.unless hnone) (char_start_fails hstart pos _))

/-! ### Numbers and quoted text -/

/-- A rule that reads certain tokens takes each of them, and no other token. -/
theorem atToken_of_reads (T : List Char → Prop)
    (hfits : (rulePattern r).fits eatsRule rankRule unitsPerChar = true) (hr : isSolid r = true)
    (hreads : ∀ c d ts, Reads expression true (.one (rulePattern r)) c (matched d ts) →
      ∃ cs, T cs ∧ c.Passes d cs)
    (htakes : T t → ∀ rest, Longest t rest → Takes (rulePattern r) t rest)
    (hstarts : ∀ v rest, T v → v <+: t ++ rest → Longest t rest → T t) : AtToken r t := by
  by_cases hT : T t
  · exact .takes fun rest hrest => htakes hT rest hrest.longest
  · refine .fails fun rest hrest => fails_of_pattern hr fun pos => ?_
    rcases reads_or_fails true (rulePattern r) ⟨pos, t ++ rest⟩ hfits with ⟨d, ts, hread⟩ | hfail
    · obtain ⟨v, hv, hpasses⟩ := hreads _ _ _ hread
      exact absurd (hstarts v rest hv ⟨d.rest, hpasses.rest.symm⟩ hrest.longest) hT
    · exact hfail

theorem string_atToken (ht : TokenText t) : AtToken .string t := by
  refine atToken_of_reads StringText (by decide) rfl (fun _ _ _ => stringText_of_reads) ?_ ?_
  · exact fun h rest _ => takes_string h rest
  · exact fun v rest hv hstarts _ => string_of_begins ht hv hstarts

/-- What is read of a text that begins with the token is the token, where more would be a longer
    one. -/
theorem takes_of_atLeast {T : List Char → Prop} (htoken : ∀ v, T v → TokenText v)
    (hleast : ∃ es behind, rest = es ++ behind ∧ T (t ++ es) ∧
      Takes (rulePattern r) (t ++ es) behind) (hlongest : Longest t rest) :
    Takes (rulePattern r) t rest := by
  obtain ⟨es, behind, rfl, htext, htakes⟩ := hleast
  have hle := hlongest _ (htoken _ htext) ⟨behind, List.append_assoc _ _ _⟩
  have hnil : es = [] := by
    have := hle.length_le
    rw [List.length_append] at this
    exact List.length_eq_zero_iff.mp (by omega)
  rw [hnil] at htakes ⊢
  rwa [List.append_nil] at htakes

theorem float_atToken (ht : TokenText t) : AtToken .float t := by
  refine atToken_of_reads FloatLiteral (by decide) rfl (fun _ _ _ => floatLiteral_of_reads) ?_ ?_
  · exact fun h rest hlongest =>
      takes_of_atLeast (fun _ => .float) (h.atLeast rest) hlongest
  · intro v rest hv hstarts hlongest
    have hvt := hlongest v (.float hv) hstarts
    obtain ⟨c, cs, rfl, hc | rfl⟩ := hv.head
    · have hbegun := ht.begun_behind hstarts
      rw [startOf_digit hc] at hbegun
      cases hbegun with
      | integer hinteger => exact absurd hvt (not_float_prefix_of_integer hinteger hv)
      | float hfloat => exact hfloat
    · have hbegun : Begun .point t := ht.begun_behind hstarts
      cases hbegun with
      | fraction hfloat => exact hfloat
      | point =>
        obtain ⟨d, ds, rfl, -⟩ := hv.behind_point
        simp at hvt

theorem integer_atToken (ht : TokenText t) (hfloat : ¬ FloatLiteral t) : AtToken .integer t := by
  refine atToken_of_reads (fun t => ∃ n, IntegerText t n) (by decide) rfl ?_ ?_ ?_
  · intro c d ts h
    obtain ⟨cs, n, hcs, hpasses⟩ := integerText_of_reads h
    exact ⟨cs, ⟨n, hcs⟩, hpasses⟩
  · rintro ⟨n, h⟩ rest hlongest
    refine takes_of_atLeast (T := fun t => ∃ n, IntegerText t n) ?_ (integer_atLeast h rest) hlongest
    rintro v ⟨n, hv⟩
    exact .integer hv
  · rintro v rest ⟨n, hv⟩ hstarts -
    obtain ⟨d, ds, rfl, hd⟩ := integerText_head hv
    have hbegun := ht.begun_behind hstarts
    rw [startOf_digit hd] at hbegun
    cases hbegun with
    | integer hinteger => exact ⟨_, hinteger⟩
    | float hfloat' => exact absurd hfloat' hfloat

/-! ### Signs -/

/-- The operators of assignments, the equals sign alone aside. -/
def assignTexts : List String :=
  ["**=", "//=", ">>=", "<<=", "+=", "-=", "*=", "/=", "%=", "&=", "|=", "^=", "@="]

/-- An operator begins only where a token is one. -/
theorem operator_of_begins {s : String} (hs : s ∈ operatorTexts) (ht : TokenText t)
    (h : s.toList <+: t ++ rest) : ∃ o ∈ operatorTexts, t = o.toList := by
  obtain ⟨c, cs, hcs, hstart⟩ := operator_start hs
  rw [hcs] at h
  have hbegun := ht.begun_behind h
  rw [hstart] at hbegun
  cases hbegun with
  | operator ho => exact ⟨_, ho, rfl⟩

theorem equals_not_begins (h : Cold rest) : ¬ "=".toList <+: rest := by
  rintro ⟨more, rfl⟩
  exact h '=' rfl (by decide)

/-- An assignment operator is read where it is the token. -/
theorem assignOp_atToken (ht : TokenText t) : AtToken .assignOp t := by
  have hsub : assignTexts ⊆ operatorTexts := by decide
  have hone : ∀ rest, Longest t rest → (∀ v ∈ assignTexts, t ≠ v.toList) → ∀ pos,
      Reads expression true (.one (oneOf (assignTexts.map lit))) ⟨pos, t ++ rest⟩ failed := by
    intro rest hlongest hnone pos
    rcases reads_words assignTexts true ⟨pos, t ++ rest⟩ with
      ⟨earlier, v, later, d, hsplit, -, htake, -⟩ | ⟨-, hfail⟩
    · have hv : v ∈ assignTexts := by rw [hsplit]; simp
      obtain ⟨o, ho, rfl⟩ := operator_of_begins (hsub hv) ht (prefix_of_take? htake)
      have hle := hlongest _ (.operator (hsub hv)) (prefix_of_take? htake)
      have hwhole : ∀ v ∈ assignTexts, ∀ o ∈ operatorTexts, v.toList <+: o.toList → o = v := by
        decide
      exact absurd (congrArg String.toList (hwhole v hv o ho hle)) (hnone v hv)
    · exact hfail
  by_cases hequals : "=".toList <+: t
  · have hsign : "=" ∈ operatorTexts := by decide
    obtain ⟨o, ho, rfl⟩ := operator_of_begins hsign ht (hequals.trans (List.prefix_append t []))
    have hnone : ∀ v ∈ assignTexts, o.toList ≠ v.toList := by
      have hheads : ∀ v ∈ assignTexts, ¬ "=".toList <+: v.toList := by decide
      exact fun v hv heq => hheads v hv (heq ▸ hequals)
    have hboth : ∀ o ∈ operatorTexts, "=".toList <+: o.toList → o = "=" ∨ o = "==" := by decide
    rcases hboth o ho hequals with rfl | rfl
    · refine .takes fun rest hrest pos => .choiceLater (hone rest hrest.longest hnone pos) ?_
      have hend : Takes (.unless (lit "=")) [] rest := takes_nothing fun pos =>
        .unless (.textFails (take?_eq_none (equals_not_begins (hrest.cold "=" ho rfl)) pos))
      exact (takes_text "=".toList ([] ++ rest)).seq hend pos
    · refine .fails fun rest hrest => fails_of_pattern rfl fun pos =>
        .choiceLater (hone rest hrest.longest hnone pos) ?_
      exact .seqFailsLater (takes_text ['='] ('=' :: rest) pos)
        (.unlessFails (takes_text ['='] rest _))
  · by_cases hassign : ∃ v ∈ assignTexts, t = v.toList
    · obtain ⟨v, hv, rfl⟩ := hassign
      have hapart : assignTexts.Pairwise fun v w => ¬ v.toList <+: w.toList := by decide
      refine .takes fun rest hrest pos => .choice (takes_oneOf hapart hv ?_ pos)
      exact fun w hw hstarts => hrest.longest _ (.operator (hsub hw)) hstarts
    · have hnone : ∀ v ∈ assignTexts, t ≠ v.toList := fun v hv heq => hassign ⟨v, hv, heq⟩
      refine .fails fun rest hrest => fails_of_pattern rfl fun pos =>
        .choiceLater (hone rest hrest.longest hnone pos) (.seqFails (.textFails ?_))
      refine take?_eq_none (fun hstarts => hequals ?_) pos
      exact hrest.longest _ (.operator (by decide)) hstarts

/-! ### Any token -/

/-- **A rule that is read as one piece takes the token or fails there.** -/
theorem atToken (hr : isSolid r = true) (hbody : r ≠ .statementBody) (ht : TokenText t)
    (hinteger : r = .integer → ¬ FloatLiteral t) : AtToken r t := by
  have hword : ∀ {r : Rule} {w : String}, rulePattern r = word w → isSolid r = true →
      isWord w.toList = true → AtToken r t := by
    intro r w hr hsolid hw
    refine words_atToken [w] hr hsolid ⟨?_, List.pairwise_singleton _ _⟩ ?_ ht
    · simpa using all_isWordChar_of_isWord hw
    · simpa using hw
  cases r with
  | statementBody => exact absurd rfl hbody
  | statementKeyword =>
    exact words_atToken statementWords rfl rfl separate_statementWords (by decide) ht
  | assignOp => exact assignOp_atToken ht
  | memberName => exact memberName_atToken ht
  | before op =>
    cases op with
    | not => exact hword rfl rfl (by decide)
    | _ => cases hr
  | between op =>
    cases op with
    | or | and | isIn | is => exact hword rfl rfl (by decide)
    | _ => cases hr
  | float => exact float_atToken ht
  | integer => exact integer_atToken ht (hinteger rfl)
  | string => exact string_atToken ht
  | boolean => exact words_atToken ["True", "False"] rfl rfl ⟨by decide, by decide⟩ (by decide) ht
  | none => exact hword rfl rfl (by decide)
  | ident => exact ident_atToken ht
  | keyword k => cases k <;> exact hword rfl rfl (by decide)
  | _ => cases hr

/-! ### Signs that a rule spells out -/

/-- The signs that enclose or separate, the point aside. -/
def bracketTexts : List String := ["(", ")", "[", "]", "\x7b", "\x7d", ","]

/-- A longer operator is another one and what is left of it, which is one as well. -/
theorem exists_tail : ∀ s ∈ operatorTexts, ∀ o ∈ operatorTexts, s.toList <+: o.toList →
    o = s ∨ ∃ tail ∈ operatorTexts, o.toList = s.toList ++ tail.toList := by
  decide

theorem mark_of_bracket : ∀ s ∈ bracketTexts, s ∈ markTexts ∧ s ≠ "." := by decide

theorem bracket_of_begins {s : String} (hs : s ∈ bracketTexts) (ht : TokenText t)
    (h : s.toList <+: t ++ rest) : t = s.toList := by
  obtain ⟨hmark, hpoint⟩ := mark_of_bracket s hs
  obtain ⟨c, hc, hstart⟩ := mark_start hmark hpoint
  rw [hc] at h ⊢
  have hbegun := ht.begun_behind h
  rw [hstart] at hbegun
  cases hbegun with
  | @bracket m hm =>
    obtain ⟨x, hx⟩ := List.length_eq_one_iff.mp (mark_length m hm)
    rw [hx] at h ⊢
    rw [(List.cons_prefix_cons.mp h).1]

theorem Follows.of_operator {s : String} (hs : s ∈ operatorTexts) (hrest : Cold rest) :
    Follows s.toList rest := ⟨longest_operator hs hrest, fun _ _ _ => hrest⟩

/-- **Where an operator is spelled, the token is that operator, or another one is left of it.** -/
theorem operator_or_tail {s : String} (hs : s ∈ operatorTexts) (ht : TokenText t)
    (hfollows : Follows t rest) (h : s.toList <+: t ++ rest) :
    t = s.toList ∨ ∃ tail, t = s.toList ++ tail ∧ TokenText tail ∧
      ∀ rest, Follows t rest → Follows tail rest := by
  obtain ⟨o, ho, rfl⟩ := operator_of_begins hs ht h
  have hle := hfollows.longest _ (.operator hs) h
  rcases exists_tail s hs o ho hle with rfl | ⟨tail, htail, heq⟩
  · exact Or.inl rfl
  · exact Or.inr ⟨tail.toList, heq, .operator htail, fun rest hrest =>
      .of_operator htail (hrest.cold o ho rfl)⟩

/-! ### Patterns of tokens -/

def isFloat : Pattern Rule → Bool
  | .rule .float => true
  | _ => false

/-- The pattern reads an integer first.  It does so only where no float has been read. -/
def guarded : Pattern Rule → Bool
  | .rule .integer => true
  | .choice p _ => guarded p
  | _ => false

/-- The pattern reads token by token: signs and rules, and no integer but where no float is. -/
def tokenwise : Pattern Rule → Bool
  | .text cs => (bracketTexts ++ operatorTexts).any fun s => s.toList = cs
  | .char _ => false
  | .rule r => isInner r
  | .seq p q => tokenwise p && tokenwise q && !guarded p && !guarded q
  | .choice p q => tokenwise p && tokenwise q && (!guarded q || isFloat p)
  | .optional p | .many p | .unless p => tokenwise p && !guarded p
  | .endOfText => true

/-- A point and a name are read together, as a point begins some floats as well. -/
theorem tokenwise_rulePattern {r : Rule} (hr : isInner r = true) (hsolid : isSolid r = false)
    (hmember : r ≠ .memberOp) :
    tokenwise (rulePattern r) = true ∧ guarded (rulePattern r) = false := by
  cases r with
  | before op => cases op <;> first | decide | cases hsolid
  | between op => cases op <;> first | decide | cases hsolid
  | memberOp => exact absurd rfl hmember
  | source | statement | statementBody | statementKeyword => cases hr
  | assignOp | memberName | float | integer | string | boolean | none | ident | keyword =>
    cases hsolid
  | _ => decide

end SafeExpr.Grammar
