/-
  SafeExpr/Proofs/Grammar/Opening.lean
  ====================================
  **How an expression begins, and where it ends.**

  The text of an expression begins with a bracket or with a word that is a name, a number or
  a constant (`Headed`).  That alone rules out most of what else the grammar tries there:
  operators in front, keywords, unpackings, closing brackets.  An expression ends where
  neither an operator after it nor one between it and another can be read (`Stops`).
-/
import SafeExpr.Proofs.Grammar.Eats

namespace SafeExpr.Grammar

open Outcome (matched failed)
open Pattern (lit oneOf)

/-! ### The first characters -/

def letterChars : List Char := "abcdefghijklmnopqrstuvwxyzABCDEFGHIJKLMNOPQRSTUVWXYZ_".toList

def startChars : List Char := letterChars ++ "0123456789([\x7b".toList

def exprStarts : List Ahead := startChars.map fun c => ⟨[c], false⟩

theorem mem_letterChars {c : Char} (h : isWordStart c = true) : c ∈ letterChars := by
  have hlower : ∀ d : Fin 26, Char.ofNat (97 + d.val) ∈ letterChars := by decide
  have hupper : ∀ d : Fin 26, Char.ofNat (65 + d.val) ∈ letterChars := by decide
  have hshift : ∀ {k : Nat}, (∀ d : Fin 26, Char.ofNat (k + d.val) ∈ letterChars) →
      k ≤ c.toNat → c.toNat < k + 26 → c ∈ letterChars := by
    intro k hall hle hlt
    have hd := hall ⟨c.toNat - k, by omega⟩
    rwa [show k + (c.toNat - k) = c.toNat by omega, Char.ofNat_toNat] at hd
  change ((decide (c.val ≥ 'A'.val ∧ c.val ≤ 'Z'.val) ||
    (decide (c.val ≥ 'a'.val) && decide (c.val ≤ 'z'.val))) || decide (c = '_')) = true at h
  simp only [Bool.or_eq_true, Bool.and_eq_true, decide_eq_true_eq, UInt32.le_iff_toNat_le] at h
  rcases h with ((h | h) | h)
  · exact hshift hupper h.1 (Nat.lt_succ_of_le h.2)
  · exact hshift hlower h.1 (Nat.lt_succ_of_le h.2)
  · rw [h]
    decide

theorem mem_startChars {c : Char} (h : isWordChar c = true) : c ∈ startChars := by
  by_cases hstart : isWordStart c = true
  · exact List.mem_append_left _ (mem_letterChars hstart)
  · have hdigit : c.isDigit = true := by
      simp only [isWordChar, isWordStart, Char.isAlphanum, Bool.or_eq_true] at h hstart
      tauto
    have hchars : "0123456789".toList ⊆ "0123456789([\x7b".toList := by decide
    exact List.mem_append_right _ (hchars (mem_of_isDigit hdigit))

/-- The words that are constants, not keywords. -/
def constantWords : List String := ["True", "False", "None"]

def letterStarts : List Ahead := letterChars.map fun c => ⟨[c], false⟩

theorem begins_word {cs : List Char} (h : isWord cs = true) (rest : List Char) :
    Begins letterStarts (cs ++ rest) := by
  cases cs with
  | nil => cases h
  | cons c cs =>
    rw [isWord, Bool.and_eq_true] at h
    have hstart : (⟨[c], false⟩ : Ahead) ∈ letterStarts :=
      List.mem_map_of_mem (mem_letterChars h.1)
    exact begins_cons hstart _

/-- The text begins as that of an expression. -/
structure Opens (cs : List Char) : Prop where
  begins : Begins exprStarts cs
  word : ∀ w ∈ reservedWords, w.toList = leadingWord cs → w ∈ constantWords

/-- A word that is a name, a number or a constant, and what may stand directly behind one; or
    a bracket. -/
inductive Headed : List Char → Prop
  | word {w tail : List Char} (hne : w ≠ []) (hall : w.all isWordChar = true)
    (hfree : ∀ v ∈ reservedWords, v.toList = w → v ∈ constantWords)
    (htail : ∀ c ∈ tail.head?, c ∈ ['(', '[', '.']) : Headed (w ++ tail)
  | bracket {c : Char} (hc : c ∈ ['(', '[', '\x7b']) (tail : List Char) : Headed (c :: tail)

theorem wordEnds_cons {c : Char} (h : isWordChar c = false) (cs : List Char) :
    WordEnds (c :: cs) := by
  rintro _ ⟨⟩
  exact h

theorem wordEnds_tail {tail rest : List Char} (htail : ∀ c ∈ tail.head?, c ∈ ['(', '[', '.'])
    (hrest : WordEnds rest) : WordEnds (tail ++ rest) := by
  cases tail with
  | nil => exact hrest
  | cons c tail =>
    have hc := htail c rfl
    simp only [List.mem_cons, List.not_mem_nil, or_false] at hc
    rcases hc with rfl | rfl | rfl <;> exact wordEnds_cons (by decide) _

/-- An operator after an expression. -/
theorem Headed.append {cs : List Char} (h : Headed cs) {c : Char} (hc : c ∈ ['(', '[', '.'])
    (more : List Char) : Headed (cs ++ c :: more) := by
  cases h with
  | @word w tail hne hall hfree htail =>
    rw [List.append_assoc]
    refine .word hne hall hfree ?_
    cases tail with
    | nil =>
      rintro _ ⟨⟩
      exact hc
    | cons x tail => exact htail
  | bracket hx tail => exact .bracket hx _

/-- **Whatever follows, the text begins as an expression.** -/
theorem Headed.opens {cs rest : List Char} (h : Headed cs) (hrest : WordEnds rest) :
    Opens (cs ++ rest) := by
  cases h with
  | @word w tail hne hall hfree htail =>
    rw [List.append_assoc]
    constructor
    · cases w with
      | nil => exact absurd rfl hne
      | cons c w =>
        rw [List.all_cons, Bool.and_eq_true] at hall
        have hstart : (⟨[c], false⟩ : Ahead) ∈ exprStarts :=
          List.mem_map_of_mem (mem_startChars hall.1)
        exact begins_cons hstart _
    · rwa [leadingWord_append hall (wordEnds_tail htail hrest)]
  | @bracket c hc tail =>
    have hstart : c ∈ startChars := by
      simp only [List.mem_cons, List.not_mem_nil, or_false] at hc
      rcases hc with rfl | rfl | rfl <;> decide
    have hchar : isWordChar c = false := by
      simp only [List.mem_cons, List.not_mem_nil, or_false] at hc
      rcases hc with rfl | rfl | rfl <;> decide
    have hmem : (⟨[c], false⟩ : Ahead) ∈ exprStarts := List.mem_map_of_mem hstart
    refine ⟨begins_cons hmem _, ?_⟩
    intro w hw heq
    have hnone : leadingWord (c :: tail ++ rest) = [] := by
      simp [leadingWord, hchar]
    have hsome : ∀ w ∈ reservedWords, w.toList ≠ [] := by decide
    rw [hnone] at heq
    exact absurd heq (hsome w hw)

/-! ### What cannot be read where an expression begins -/

theorem Opens.solid {cs : List Char} (h : Opens cs) : Solid cs :=
  solid_of_begins h.begins (by decide)

theorem Opens.fails {cs : List Char} {p : Pattern Rule} (h : Opens cs)
    (hp : expression.decides exprStarts p .fails = true) : Fails p cs :=
  fails_of_begins h.begins (by decide) hp

theorem Opens.head_ne {cs : List Char} (h : Opens cs) {c : Char} (hc : c ∉ startChars) :
    cs.head? ≠ some c := by
  obtain ⟨a, ha, more, rfl, -⟩ := h.begins
  obtain ⟨d, hd, rfl⟩ := List.mem_map.mp ha
  rintro ⟨⟩
  exact hc hd

/-- A token of certain words, where the word is another one. -/
theorem fails_words (words : List String) {r : Rule} {cs : List Char}
    (hr : rulePattern r = anyWord words) (hsolid : isSolid r = true)
    (hchars : ∀ w ∈ words, w.toList.all isWordChar = true)
    (h : ∀ w ∈ words, w.toList ≠ leadingWord cs) : Fails (.rule r) cs := by
  intro pos
  have htoken : expression.isToken r = true := hsolid
  have hpattern : expression.pattern r = anyWord words := hr
  refine .ruleFails ?_
  rw [htoken, hpattern]
  exact anyWord_fails hchars h pos

theorem Opens.fails_words {cs : List Char} (h : Opens cs) (words : List String) {r : Rule}
    (hr : rulePattern r = anyWord words) (hsolid : isSolid r = true)
    (hwords : words.all (fun w => reservedWords.contains w && !constantWords.contains w) = true) :
    Fails (.rule r) cs := by
  have hreserved : ∀ w ∈ words, w ∈ reservedWords ∧ w ∉ constantWords := by
    intro w hw
    have hboth := List.all_eq_true.mp hwords w hw
    simpa using hboth
  refine Grammar.fails_words words hr hsolid ?_ ?_
  · exact fun w hw => separate_reservedWords.chars w (hreserved w hw).1
  · exact fun w hw heq => (hreserved w hw).2 (h.word w (hreserved w hw).1 heq)

theorem Opens.keyword_fails {cs : List Char} (h : Opens cs) (k : Keyword) :
    Fails (keyword k) cs := by
  refine h.fails_words [k.word] rfl rfl ?_
  cases k <;> decide

/-- The rules of operators in front of an operand, in the order in which they are tried. -/
def prefixRules : List Rule := [.lambda, .not, .neg, .pos, .invert].map .before

theorem prefixPart_eq : prefixPart = oneOf (prefixRules.map .rule) := rfl

/-- No operator stands in front. -/
theorem Opens.before_fails {cs : List Char} (h : Opens cs) : Fails prefixPart cs := by
  have hlambda : Fails (.rule (.before .lambda)) cs :=
    .rule (.seq (.seq (h.keyword_fails .lambda))) rfl
  have hnot : Fails (.rule (.before .not)) cs := h.fails_words ["not"] rfl rfl (by decide)
  rw [prefixPart_eq]
  exact fails_oneOf_except [.before .lambda, .before .not] h.begins (by decide) (by decide)
    (by simp [hlambda, hnot])

/-! ### Names -/

/-- A word is read as a name, or no name is read there at all. -/
theorem ident_eats_or_fails {w tail more : List Char} (hall : w.all isWordChar = true)
    (hends : WordEnds tail) (hskip : Skips tail more) :
    Eats ident (w ++ tail) more (Single (IsToken .ident w)) ∨ Fails ident (w ++ tail) := by
  by_cases hname : isName (String.ofList w) = true
  · have htakes := takes_ident hname hends
    rw [String.toList_ofList] at htakes
    exact Or.inl (htakes.eats rfl hskip)
  · refine Or.inr fun pos => .ruleFails ?_
    rw [isName, String.toList_ofList, Bool.and_eq_true, Bool.not_eq_true', ← Bool.not_eq_true,
      List.contains_iff_mem] at hname
    by_cases hword : isWord w = true
    · have hreserved : String.ofList w ∈ reservedWords := by
        by_contra hnot
        exact hname ⟨hword, hnot⟩
      have hread := takes_anyWord_of_mem separate_reservedWords hreserved hends pos
      rw [String.toList_ofList] at hread
      exact .seqFails (.seqFails (.unlessFails hread))
    · -- the word begins with a digit, or there is none
      have hstart : Cursor.char? isWordStart ⟨pos, w ++ tail⟩ = none := by
        cases w with
        | nil =>
          cases tail with
          | nil => rfl
          | cons c tail =>
            have hc : isWordStart c = false := by
              rw [← Bool.not_eq_true]
              intro hc
              have hend := hends c rfl
              rw [isWordChar_of_isWordStart hc] at hend
              cases hend
            simp [Cursor.char?, hc]
        | cons c w =>
          rw [List.all_cons, Bool.and_eq_true] at hall
          have hc : isWordStart c = false := by
            rw [isWord, Bool.and_eq_true, hall.2] at hword
            simpa using hword
          simp [Cursor.char?, hc]
      have hnone : ∀ v ∈ reservedWords, v.toList ≠ leadingWord (w ++ tail) := by
        have hwords : ∀ v ∈ reservedWords, isWord v.toList = true := by decide
        intro v hv heq
        rw [leadingWord_append hall hends] at heq
        exact hword (heq ▸ hwords v hv)
      have hfails := anyWord_fails separate_reservedWords.chars hnone pos
      exact .seqFails (.seqFailsLater (.unless hfails) (.charFails hstart))

/-- A word that no equals sign follows is no keyword of a call. -/
theorem keywordArg_fails {w tail more : List Char} (hall : w.all isWordChar = true)
    (hends : WordEnds tail) (hskip : Skips tail more) (hequals : Fails (lit "=") more) :
    Fails (.rule .keywordArg) (w ++ tail) := by
  rcases ident_eats_or_fails hall hends hskip with hread | hfail
  · exact .rule (.seq (.seq (hread.fails hequals))) rfl
  · exact .rule (.seq (.seq (.seq hfail))) rfl

theorem Headed.keywordArg_fails {cs rest more : List Char} (h : Headed cs)
    (hrest : WordEnds rest) (hskip : Skips rest more) (hequals : Fails (lit "=") more) :
    Fails (.rule .keywordArg) (cs ++ rest) := by
  cases h with
  | @word w tail hne hall hfree htail =>
    rw [List.append_assoc]
    have hends := wordEnds_tail htail hrest
    cases tail with
    | nil => exact Grammar.keywordArg_fails hall hends hskip hequals
    | cons c tail =>
      have hc := htail c rfl
      simp only [List.mem_cons, List.not_mem_nil, or_false] at hc
      have hsolid : solid ⟨[c], false⟩ = true := by
        rcases hc with rfl | rfl | rfl <;> decide
      refine Grammar.keywordArg_fails hall hends (solid_cons hsolid _).skips ?_
      rcases hc with rfl | rfl | rfl <;> exact fails_at (by decide) (by decide) _
  | @bracket c hc tail =>
    simp only [List.mem_cons, List.not_mem_nil, or_false] at hc
    have hfail : Fails ident (c :: tail ++ rest) := by
      rcases hc with rfl | rfl | rfl <;> exact fails_at (by decide) (by decide) _
    exact .rule (.seq (.seq (.seq hfail))) rfl

theorem operandPart_eq : operandPart = oneOf (operandRules.map .rule) := rfl

/-! ### Where an expression ends -/

/-- A term can end in front of `rest`, which goes on with `more`: no word, no number and no
    operator after a term goes on there. -/
structure Ends (rest more : List Char) : Prop where
  cut : Cut rest
  skips : Skips rest more
  after : Fails postfixPart more

/-- A whole expression can end there: no operator with another term behind it goes on, and no
    equals sign would make it a keyword. -/
structure Stops (rest more : List Char) : Prop extends Ends rest more where
  between : Fails (infixPart ++ termPart) more
  equals : Fails (lit "=") more

theorem after_fails {more : List Char} (h : ∀ c ∈ more.head?, c ∉ ['(', '[', '.']) :
    Fails postfixPart more := by
  have hmark : ∀ {c : Char}, c ∈ ['(', '[', '.'] → Fails (.text [c]) more := by
    intro c hc
    refine fails_text ?_
    rintro ⟨cs, rfl⟩
    exact h c rfl hc
  have hcall : Fails (.rule .callOp) more :=
    .rule (.choice (.seq (.seq (hmark (by decide)))) (.seq (.seq (hmark (by decide))))) rfl
  have hsubscript : Fails (.rule .subscriptOp) more :=
    .rule (.seq (.seq (hmark (by decide)))) rfl
  have hmember : Fails (.rule .memberOp) more := .rule (.seq (hmark (by decide))) rfl
  exact hcall.choice (hsubscript.choice hmember)

theorem ends_nil : Ends [] [] := by
  refine ⟨cut_nil, solid_nil.skips, after_fails ?_⟩
  rintro _ ⟨⟩

theorem ends_mark {c : Char} (hword : isWordChar c = false) (hc : c ∉ ['(', '[', '.'])
    (hsolid : solid ⟨[c], false⟩ = true) (cs : List Char) : Ends (c :: cs) (c :: cs) := by
  refine ⟨cut_cons hword ?_ cs, (solid_cons hsolid cs).skips, after_fails ?_⟩
  · rintro rfl
    exact hc (by simp)
  · rintro _ ⟨⟩
    exact hc

theorem ends_blank {c : Char} (hc : c ∉ ['(', '[', '.']) (hsolid : solid ⟨[c], false⟩ = true)
    (cs : List Char) : Ends (' ' :: c :: cs) (c :: cs) := by
  refine ⟨cut_cons (by decide) (by decide) _, (solid_cons hsolid cs).skips.blank, after_fails ?_⟩
  rintro _ ⟨⟩
  exact hc

/-- The rules of operators between expressions, in the order in which they are tried. -/
def infixRules : List Rule := Infix.all.map .between

theorem infixPart_eq : infixPart = oneOf (infixRules.map .rule) := rfl

theorem between_fails {as : List Ahead} {cs : List Char} (exceptions : List Rule)
    (hcs : Begins as cs) (hsolid : as.all solid = true)
    (hcheck : infixRules.all (fun q =>
      exceptions.contains q || expression.decides as (.rule q) .fails) = true)
    (hfail : ∀ q ∈ exceptions, Fails (.rule q) cs) : Fails infixPart cs := by
  rw [infixPart_eq]
  exact fails_oneOf_except exceptions hcs hsolid hcheck hfail

theorem stops_nil : Stops [] [] := by
  have hbegins : Begins [.end] [] := ⟨_, List.mem_singleton_self _, [], rfl, fun _ => rfl⟩
  exact ⟨ends_nil, .seq (between_fails [] hbegins (by decide) (by decide) (List.forall_mem_nil _)),
    fails_of_begins hbegins (by decide) (by decide)⟩

/-- In front of a comma or a closing bracket. -/
theorem stops_mark {c : Char} (hc : c ∈ [',', ')', ']', '\x7d']) (cs : List Char) :
    Stops (c :: cs) (c :: cs) := by
  have hbegins : Begins [⟨[','], false⟩, ⟨[')'], false⟩, ⟨[']'], false⟩, ⟨['\x7d'], false⟩]
      (c :: cs) := by
    refine begins_cons ?_ cs
    simp only [List.mem_cons, List.not_mem_nil, or_false] at hc ⊢
    rcases hc with rfl | rfl | rfl | rfl <;> simp
  refine ⟨?_, .seq (between_fails [] hbegins (by decide) (by decide) (List.forall_mem_nil _)),
    fails_of_begins hbegins (by decide) (by decide)⟩
  simp only [List.mem_cons, List.not_mem_nil, or_false] at hc
  rcases hc with rfl | rfl | rfl | rfl <;> exact ends_mark (by decide) (by decide) (by decide) cs

/-- In front of a colon or an equals sign, if no equals sign follows it. -/
theorem stops_colon {cs : List Char} (h : cs.head? ≠ some '=') : Stops (':' :: cs) (':' :: cs) := by
  refine ⟨ends_mark (by decide) (by decide) (by decide) cs, .seq (between_fails [.between .walrus]
    (begins_cons (List.mem_singleton_self _) cs) (by decide) (by decide) ?_),
    fails_at (by decide) (by decide) cs⟩
  intro q hq
  rw [List.mem_singleton.mp hq]
  refine .rule (fails_text ?_) rfl
  rintro ⟨more, heq⟩
  cases heq
  exact h rfl

theorem equals_fails {cs : List Char} (h : cs.head? ≠ some '=') :
    Fails (infixPart ++ termPart) ('=' :: cs) := by
  refine .seq (between_fails [.between .eq] (begins_cons (List.mem_singleton_self _) cs) (by decide)
    (by decide) ?_)
  intro q hq
  rw [List.mem_singleton.mp hq]
  refine .rule (fails_text ?_) rfl
  rintro ⟨more, heq⟩
  cases heq
  exact h rfl

theorem ends_keyword (k : Keyword) (cs : List Char) :
    Ends (' ' :: (k.word.toList ++ ' ' :: cs)) (k.word.toList ++ ' ' :: cs) := by
  cases k <;> exact ends_blank (by decide) (by decide) _

/-- In front of a keyword that is no operator. -/
theorem stops_keyword {k : Keyword} (hk : k ∈ [.else, .for]) (cs : List Char) :
    Stops (' ' :: (k.word.toList ++ ' ' :: cs)) (k.word.toList ++ ' ' :: cs) := by
  have hbegins : Begins [⟨k.word.toList ++ [' '], false⟩] (k.word.toList ++ ' ' :: cs) :=
    begins_known cs (by simp)
  simp only [List.mem_cons, List.not_mem_nil, or_false] at hk
  refine ⟨ends_keyword k cs, .seq (between_fails [] hbegins ?_ ?_ (List.forall_mem_nil _)),
    fails_of_begins hbegins ?_ ?_⟩
  · rcases hk with rfl | rfl <;> decide
  · rcases hk with rfl | rfl <;> decide
  · rcases hk with rfl | rfl <;> decide
  · rcases hk with rfl | rfl <;> decide

end SafeExpr.Grammar
