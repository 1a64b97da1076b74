/-
  SafeExpr/Proofs/Grammar/Word.lean
  =================================
  **Words and names in a text.**

  A word of the grammar is read where it is the whole of the word that stands there
  (`leadingWord`), and nowhere else.  A name is any other word.  Both directions are given:
  what is read is a word or a name, and a word or a name is read.
-/
import SafeExpr.Proofs.Grammar.Placed
import SafeExpr.Proofs.Grammar.Token
import SafeExpr.Proofs.Syntax.Fits

namespace SafeExpr

/-- The word at the start of a text, if there is one. -/
def leadingWord (cs : List Char) : List Char := cs.takeWhile isWordChar

/-- No word goes on here. -/
def WordEnds (rest : List Char) : Prop := ∀ c ∈ rest.head?, isWordChar c = false

theorem leadingWord_append {w rest : List Char} (hw : w.all isWordChar = true)
    (hrest : WordEnds rest) : leadingWord (w ++ rest) = w := by
  unfold leadingWord
  rw [List.takeWhile_append_of_pos (List.all_eq_true.mp hw)]
  cases rest with
  | nil => simp
  | cons c rest =>
    rw [List.takeWhile_cons_of_neg (by simp [hrest c rfl]), List.append_nil]

/-- Characters of a class, in front of where the class ends, are all in front of it. -/
theorem prefix_of_ends {accepts : Char → Bool} {v w rest : List Char}
    (hv : v.all accepts = true) (hrest : ∀ c ∈ rest.head?, accepts c = false)
    (h : v <+: w ++ rest) : v <+: w := by
  rcases List.prefix_or_prefix_of_prefix h (List.prefix_append w rest) with hvw | hwv
  · exact hvw
  · obtain ⟨more, rfl⟩ := hwv
    cases more with
    | nil => simp
    | cons x more =>
      rw [List.prefix_append_right_inj] at h
      obtain ⟨behind, rfl⟩ := h
      have hx := hrest x rfl
      rw [List.all_append, List.all_cons, hx] at hv
      simp at hv

namespace Grammar

open Outcome (matched failed)
open Pattern (lit oneOf)

/-! ### The words of a list -/

theorem take?_eq_none {cs rest : List Char} (h : ¬ cs <+: rest) (pos : Nat) :
    Cursor.take? cs ⟨pos, rest⟩ = none := by
  rw [Cursor.take?, if_neg]
  rwa [List.isPrefixOf_iff_prefix]

theorem prefix_of_take? {cs : List Char} {c d : Cursor} (h : c.take? cs = some d) :
    cs <+: c.rest := by
  rw [(Cursor.passes_of_take? h).rest]
  exact List.prefix_append _ _

/-- The first word of a list that begins the text is read, or there is none. -/
theorem reads_words (words : List String) (b : Bool) (c : Cursor) :
    (∃ earlier w later d, words = earlier ++ w :: later ∧
      (∀ v ∈ earlier, ¬ v.toList <+: c.rest) ∧ c.take? w.toList = some d ∧
        Reads expression b (.one (oneOf (words.map lit))) c (matched d [])) ∨
    (∀ w ∈ words, ¬ w.toList <+: c.rest) ∧
      Reads expression b (.one (oneOf (words.map lit))) c failed := by
  induction words with
  | nil =>
    refine Or.inr ⟨List.forall_mem_nil _, .charFails ?_⟩
    unfold Cursor.char?
    split <;> rfl
  | cons w words ih =>
    by_cases hw : w.toList <+: c.rest
    · obtain ⟨rest, hrest⟩ := hw
      have htake : c.take? w.toList = some ⟨c.pos + byteLength w.toList, rest⟩ := by
        have := take?_append c.pos w.toList rest
        rwa [hrest] at this
      refine Or.inl ⟨[], w, words, _, rfl, List.forall_mem_nil _, htake, ?_⟩
      cases words with
      | nil => exact .text htake
      | cons v words => exact .choice (.text htake)
    · have hfail : Reads expression b (.one (lit w)) c failed :=
        .textFails (take?_eq_none hw c.pos)
      cases words with
      | nil => exact Or.inr ⟨by simpa using hw, hfail⟩
      | cons v words =>
        rcases ih with ⟨earlier, x, later, d, hwords, hearlier, htake, hread⟩ | ⟨hnone, hread⟩
        · refine Or.inl ⟨w :: earlier, x, later, d, by rw [hwords]; rfl, ?_, htake,
            .choiceLater hfail hread⟩
          exact List.forall_mem_cons.mpr ⟨hw, hearlier⟩
        · exact Or.inr ⟨List.forall_mem_cons.mpr ⟨hw, hnone⟩, .choiceLater hfail hread⟩

/-- The words consist of word characters, and none begins a later one. -/
structure Separate (words : List String) : Prop where
  chars : ∀ w ∈ words, w.toList.all isWordChar = true
  apart : words.Pairwise fun v w => ¬ v.toList <+: w.toList

variable {words : List String}

/-- Where the word is none of the list, none is read. -/
theorem anyWord_fails (hchars : ∀ w ∈ words, w.toList.all isWordChar = true) {cs : List Char}
    (h : ∀ w ∈ words, w.toList ≠ leadingWord cs) (pos : Nat) :
    Reads expression true (.one (anyWord words)) ⟨pos, cs⟩ failed := by
  rcases reads_words words true ⟨pos, cs⟩ with
    ⟨earlier, w, later, d, rfl, -, htake, hread⟩ | ⟨-, hread⟩
  · have hmem : w ∈ earlier ++ w :: later := List.mem_append_right _ List.mem_cons_self
    refine .seqFailsLater hread ?_
    rcases d with ⟨pos', rest⟩
    have hrest : cs = w.toList ++ rest := (Cursor.passes_of_take? htake).rest
    cases rest with
    | nil =>
      have hends : WordEnds [] := fun c hc => by cases hc
      rw [hrest, leadingWord_append (hchars w hmem) hends] at h
      exact absurd rfl (h w hmem)
    | cons x rest =>
      by_cases hx : isWordChar x = true
      · -- the word goes on behind what was read of it
        exact .unlessFails (.char (char?_cons hx pos' rest))
      · have hends : WordEnds (x :: rest) := by
          intro c hc
          cases hc
          simpa using hx
        rw [hrest, leadingWord_append (hchars w hmem) hends] at h
        exact absurd rfl (h w hmem)
  · exact .seqFails hread

theorem takes_wordEnd {rest : List Char} (h : WordEnds rest) :
    Takes (.unless (.char isWordChar)) [] rest := by
  refine takes_nothing fun pos => .unless (.charFails ?_)
  cases rest with
  | nil => rfl
  | cons c rest => simp [Cursor.char?, h c rfl]

/-- One text of a list, none of which begins a later one. -/
theorem takes_oneOf (hapart : words.Pairwise fun v w => ¬ v.toList <+: w.toList) {w : String}
    (hw : w ∈ words) {rest : List Char}
    (hends : ∀ v ∈ words, v.toList <+: w.toList ++ rest → v.toList <+: w.toList) :
    Takes (oneOf (words.map lit)) w.toList rest := by
  intro pos
  have hprefix : w.toList <+: w.toList ++ rest := List.prefix_append _ _
  rcases reads_words words true ⟨pos, w.toList ++ rest⟩ with
    ⟨earlier, v, later, d, hsplit, hearlier, htake, hread⟩ | ⟨hnone, -⟩
  · have hvw : v = w := by
      have hv : v ∈ words := hsplit ▸ List.mem_append_right _ List.mem_cons_self
      have hlater := (List.pairwise_append.mp (hsplit ▸ hapart)).2.1
      rw [hsplit] at hw
      rcases List.mem_append.mp hw with hw | hw
      · exact absurd hprefix (hearlier w hw)
      · rcases List.mem_cons.mp hw with hw | hw
        · exact hw.symm
        · have hnot := (List.pairwise_cons.mp hlater).1 w hw
          exact absurd (hends v hv (prefix_of_take? htake)) hnot
    subst hvw
    rw [take?_append] at htake
    cases htake
    exact hread
  · exact absurd hprefix (hnone w hw)

/-- A word of the list is read where it is the whole word. -/
theorem takes_anyWord_of_mem (hwords : Separate words) {w : String} (hw : w ∈ words)
    {rest : List Char} (hrest : WordEnds rest) : Takes (anyWord words) w.toList rest := by
  intro pos
  have hread := takes_oneOf hwords.apart hw (fun v hv => prefix_of_ends (hwords.chars v hv) hrest) pos
  have hboth := Reads.seq hread (takes_wordEnd hrest (pos + byteLength w.toList))
  exact hboth

/-- One of the words has been read. -/
theorem oneOf_of_reads {b : Bool} {c d : Cursor} {ts : List (Tree Rule)}
    (h : Reads expression b (.one (oneOf (words.map lit))) c (matched d ts)) :
    ∃ w ∈ words, c.Passes d w.toList := by
  rcases reads_words words b c with ⟨earlier, w, later, e, rfl, -, htake, hread⟩ | ⟨-, hread⟩
  · cases h.deterministic hread
    exact ⟨w, List.mem_append_right _ List.mem_cons_self, Cursor.passes_of_take? htake⟩
  · cases h.deterministic hread

theorem word_of_reads {c d : Cursor} {ts : List (Tree Rule)}
    (h : Reads expression true (.one (anyWord words)) c (matched d ts)) :
    ∃ w ∈ words, c.Passes d w.toList := by
  cases h with
  | seq hp hq =>
    cases hq
    exact oneOf_of_reads hp

/-! ### Runs of characters -/

variable {accepts : Char → Bool}

theorem not_accepts_of_char? {c : Cursor} (h : c.char? accepts = none) :
    ∀ x ∈ c.rest.head?, accepts x = false := by
  unfold Cursor.char? at h
  split at h
  · next x rest hrest =>
    rw [hrest]
    rintro _ ⟨⟩
    split at h
    · cases h
    · next hx => simpa using hx
  · next hrest =>
    rw [hrest]
    rintro _ ⟨⟩

/-- What a repetition takes of one class of characters, and that it takes all of them. -/
theorem chars_of_reads_more {goal : Goal Rule} {b : Bool} {c : Cursor} {o : Outcome Rule}
    (h : Reads expression b goal c o) :
    ∀ d ts, o = matched d ts → b = true → goal = .more (.char accepts) →
      ∃ cs, cs.all accepts = true ∧ c.Passes d cs ∧ ∀ x ∈ d.rest.head?, accepts x = false := by
  induction h with
  | @more b p c d e ts us hp hmore ihp ihmore =>
    rintro _ _ ⟨⟩ rfl ⟨⟩
    obtain ⟨cs, hcs, hpasses, hends⟩ := ihmore _ _ rfl rfl rfl
    cases hp with
    | char hchar =>
      obtain ⟨x, hx, hfirst⟩ := Cursor.passes_of_char? hchar
      refine ⟨x :: cs, ?_, hfirst.trans hpasses, hends⟩
      rw [List.all_cons, hx, hcs]
      rfl
  | @moreEnds b p c hp =>
    rintro _ _ ⟨⟩ rfl ⟨⟩
    refine ⟨[], rfl, .refl _, ?_⟩
    cases hp with
    | charFails hchar => exact not_accepts_of_char? hchar
  | _ =>
    intro _ _ _ _ hgoal
    cases hgoal

theorem chars_of_reads {c d : Cursor} {ts : List (Tree Rule)}
    (h : Reads expression true (.one (.many (.char accepts))) c (matched d ts)) :
    ∃ cs, cs.all accepts = true ∧ c.Passes d cs ∧ ∀ x ∈ d.rest.head?, accepts x = false := by
  cases h with
  | many hp hmore =>
    obtain ⟨cs, hcs, hpasses, hends⟩ := chars_of_reads_more hmore _ _ rfl rfl rfl
    cases hp with
    | char hchar =>
      obtain ⟨x, hx, hfirst⟩ := Cursor.passes_of_char? hchar
      refine ⟨x :: cs, ?_, hfirst.trans hpasses, hends⟩
      rw [List.all_cons, hx, hcs]
      rfl
  | manySkips hp =>
    cases hp with
    | charFails hchar => exact ⟨[], rfl, .refl _, not_accepts_of_char? hchar⟩

theorem takesMore_chars {cs rest : List Char} (hcs : cs.all accepts = true)
    (hrest : ∀ x ∈ rest.head?, accepts x = false) : TakesMore (.char accepts) cs rest := by
  induction cs with
  | nil =>
    refine .ends fun pos => .charFails ?_
    cases rest with
    | nil => rfl
    | cons x rest => simp [Cursor.char?, hrest x rfl]
  | cons c cs ih =>
    rw [List.all_cons, Bool.and_eq_true] at hcs
    exact TakesMore.piece (takes_char hcs.1 _) (ih hcs.2)

/-! ### Names -/

theorem separate_reservedWords : Separate reservedWords := by
  constructor
  · decide
  · decide

theorem separate_statementWords : Separate statementWords := by
  constructor
  · decide
  · decide

/-- A word character, and all that follow it. -/
theorem isWord_of_reads {c d : Cursor} {ts : List (Tree Rule)}
    (h : Reads expression true (.one (.char isWordStart ++ .many (.char isWordChar))) c
      (matched d ts)) :
    ∃ cs, isWord cs = true ∧ c.Passes d cs ∧ WordEnds d.rest := by
  cases h with
  | seq hp hq =>
    cases hp with
    | char hchar =>
      obtain ⟨x, hx, hfirst⟩ := Cursor.passes_of_char? hchar
      obtain ⟨cs, hcs, hpasses, hends⟩ := chars_of_reads hq
      refine ⟨x :: cs, ?_, hfirst.trans hpasses, hends⟩
      rw [isWord, hx, hcs]
      rfl

theorem takes_word {cs rest : List Char} (hcs : isWord cs = true) (hrest : WordEnds rest) :
    Takes (.char isWordStart ++ .many (.char isWordChar)) cs rest := by
  cases cs with
  | nil => cases hcs
  | cons c cs =>
    rw [isWord, Bool.and_eq_true] at hcs
    exact (takes_char hcs.1 _).seq (takesMore_chars hcs.2 hrest).many

/-- **What is read as a name is one.** -/
theorem isName_of_reads {c d : Cursor} {ts : List (Tree Rule)}
    (h : Reads expression true (.one (rulePattern .ident)) c (matched d ts)) :
    isName (String.ofList (c.upTo d)) = true := by
  cases h with
  | seq hp hq =>
    cases hp with
    | seq hunless hstart =>
      cases hunless with
      | «unless» hfails =>
        obtain ⟨cs, hcs, hpasses, hends⟩ := isWord_of_reads (.seq hstart hq)
        have hpasses : c.Passes d cs := hpasses
        rw [hpasses.upTo_eq, isName, String.toList_ofList, hcs, Bool.true_and,
          Bool.not_eq_true', ← Bool.not_eq_true, List.contains_iff_mem]
        intro hmem
        have hread := takes_anyWord_of_mem separate_reservedWords hmem hends c.pos
        rw [String.toList_ofList, ← hpasses.rest] at hread
        cases hfails.deterministic hread

/-- **A name is read as one.** -/
theorem takes_ident {n : String} (hn : isName n = true) {rest : List Char}
    (hrest : WordEnds rest) : Takes (rulePattern .ident) n.toList rest := by
  rw [isName, Bool.and_eq_true, Bool.not_eq_true', ← Bool.not_eq_true,
    List.contains_iff_mem] at hn
  have hall := all_isWordChar_of_isWord hn.1
  have hnot : Takes (.unless (anyWord reservedWords)) [] (n.toList ++ rest) := by
    refine takes_nothing fun pos => .unless (anyWord_fails separate_reservedWords.chars ?_ pos)
    intro w hw heq
    rw [leadingWord_append hall hrest] at heq
    rw [String.toList_inj.mp heq] at hw
    exact hn.2 hw
  have hword := hn.1
  cases hcs : n.toList with
  | nil =>
    rw [hcs] at hword
    cases hword
  | cons c cs =>
    rw [hcs] at hnot hword
    rw [isWord, Bool.and_eq_true] at hword
    have hnot : Takes (.unless (anyWord reservedWords)) [] ([c] ++ (cs ++ rest)) := hnot
    have hstart := hnot.seq (takes_char hword.1 (cs ++ rest))
    exact hstart.seq (takesMore_chars hword.2 hrest).many

end Grammar

end SafeExpr
