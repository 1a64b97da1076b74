/-
  SafeExpr/Proofs/Grammar/Cutting.lean
  ====================================
  **What the grammar reads as one piece is a token.**

  Each rule whose text is one piece takes a token, which is as long as it can be
  (`token_of_piece`), and so do the texts within the other rules (`tokenTo_of_take?`).  An operator
  is a whole token, since nothing that would prolong it can be read behind one: this is checked
  for each rule (`safe_rulePattern`).
-/
import SafeExpr.Proofs.Grammar.Alike

namespace SafeExpr.Grammar

open Outcome (matched failed)
open Pattern (lit)

/-- The text is cut into tokens behind a gap. -/
def Cuts (cs : List Char) : Prop :=
  ∃ g ls, cs = g ++ spell ls ∧ Gap g (spell ls) ∧ Tokens Follows ls

/-! ### Behind an operator -/

/-- The pattern fails in front of what would prolong an operator. -/
def failsHot (p : Pattern Rule) : Bool :=
  hotChars.all fun c => expression.verdict ⟨[c], false⟩ p == .fails

/-- The pattern takes nothing there. -/
def inert : Pattern Rule → Bool
  | .unless _ => true
  | p => hotChars.all fun c => expression.verdict ⟨[c], false⟩ p != .unknown

/-- The rules whose last token may be an operator. -/
def openRule : Rule → Bool
  | .before _ | .between _ | .assignOp | .slice => true
  | _ => false

/-- May the last token that the pattern reads be an operator? -/
def endsOpen : Pattern Rule → Bool
  | .text cs => operatorTexts.any fun s => s.toList = cs
  | .rule r => openRule r
  | .seq p q => endsOpen q || endsOpen p && !failsHot q
  | .choice p q => endsOpen p || endsOpen q
  | .optional p | .many p => endsOpen p
  | .char _ | .unless _ | .endOfText => false

/-- No operator is prolonged within the pattern. -/
def safe : Pattern Rule → Bool
  | .seq p q => safe p && safe q && (!endsOpen p || inert q)
  | .choice p q => safe p && safe q
  | .optional p => safe p
  | .many p => safe p && (!endsOpen p || failsHot p)
  | .text _ | .char _ | .rule _ | .unless _ | .endOfText => true

theorem safe_rulePattern {r : Rule} (hr : isInner r = true) (hsolid : isSolid r = false) :
    safe (rulePattern r) = true ∧ (endsOpen (rulePattern r) = true → openRule r = true) := by
  cases r with
  | before op => cases op <;> decide
  | between op => cases op <;> decide
  | source | statement | statementBody | statementKeyword => cases hr
  | assignOp | memberName | float | integer | string | boolean | none | ident | keyword =>
    cases hsolid
  | _ => decide

section Hot

variable {p q : Pattern Rule} {c d e : Cursor} {ts us : List (Tree Rule)}

theorem cold_nil : Cold [] := by
  intro c hc
  cases hc

theorem exists_hot {cs : List Char} (h : ¬ Cold cs) : ∃ x rest, cs = x :: rest ∧ x ∈ hotChars := by
  cases cs with
  | nil => exact absurd cold_nil h
  | cons x rest =>
    by_cases hx : x ∈ hotChars
    · exact ⟨x, rest, rfl, hx⟩
    · refine absurd ?_ h
      rintro _ ⟨⟩
      exact hx

theorem solid_hot {x : Char} (hx : x ∈ hotChars) (rest : List Char) : Solid (x :: rest) := by
  have hall : ∀ x ∈ hotChars, solid ⟨[x], false⟩ = true := List.all_iff_forall_prop.mp (by decide)
  exact solid_cons (hall x hx) rest

theorem holds_hot {x : Char} {rest : List Char} (hc : c.rest = x :: rest) (hx : x ∈ hotChars)
    (p : Pattern Rule) : Holds expression false p c (expression.verdict ⟨[x], false⟩ p) := by
  refine holds_verdict ⟨rest, hc, by simp⟩ ?_ false p
  rcases c with ⟨pos, cs⟩
  obtain rfl : cs = x :: rest := hc
  exact solid_hot hx rest pos

theorem fails_of_failsHot (hp : failsHot p = true) (h : ¬ Cold c.rest) :
    Reads expression false (.one p) c failed := by
  obtain ⟨x, rest, hc, hx⟩ := exists_hot h
  have hverdict := List.all_eq_true.mp hp x hx
  rw [beq_iff_eq] at hverdict
  have hholds := holds_hot hc hx p
  rwa [hverdict] at hholds

theorem stays_of_inert (hp : inert p = true) (h : ¬ Cold c.rest)
    (hread : Reads expression false (.one p) c (matched d ts)) : d = c := by
  unfold inert at hp
  split at hp
  · cases hread
    rfl
  · obtain ⟨x, rest, hc, hx⟩ := exists_hot h
    have hverdict := List.all_eq_true.mp hp x hx
    have hholds := holds_hot hc hx p
    cases hv : expression.verdict ⟨[x], false⟩ p with
    | fails =>
      rw [hv] at hholds
      cases hread.deterministic hholds
    | skips =>
      rw [hv] at hholds
      cases hread.deterministic hholds
      rfl
    | unknown =>
      rw [hv] at hverdict
      cases hverdict

/-- What is skipped begins with nothing that prolongs an operator. -/
theorem cold_or_gap_eq (c : Cursor) : Cold c.rest ∨ expression.gap false c = c := by
  by_cases hcold : Cold c.rest
  · exact Or.inl hcold
  · obtain ⟨x, rest, hc, hx⟩ := exists_hot hcold
    rcases c with ⟨pos, cs⟩
    obtain rfl : cs = x :: rest := hc
    exact Or.inr ((solid_hot hx rest).gap_eq false pos)

theorem cold_of_seq (hopen : endsOpen p = true → inert q = true)
    (hq : Reads expression false (.one q) (expression.gap false d) (matched e us))
    (hcold : endsOpen (.seq p q) = true → Cold e.rest) (hp : endsOpen p = true) :
    Cold d.rest := by
  rcases cold_or_gap_eq d with hcold' | hgap
  · exact hcold'
  · by_contra hhot
    rw [hgap] at hq
    have hstays := stays_of_inert (hopen hp) hhot hq
    have hmatches : failsHot q = false := by
      rw [← Bool.not_eq_true]
      intro hfails
      cases hq.deterministic (fails_of_failsHot hfails hhot)
    refine hhot (hstays ▸ hcold ?_)
    simp [endsOpen, hp, hmatches]

theorem cold_of_more (hfails : failsHot p = true)
    (hmore : Reads expression false (.more p) d (matched e us)) (hcold : Cold e.rest) :
    Cold d.rest := by
  rcases cold_or_gap_eq d with hcold' | hgap
  · exact hcold'
  · by_contra hhot
    cases hmore with
    | more hp =>
      rw [hgap] at hp
      cases hp.deterministic (fails_of_failsHot hfails hhot)
    | moreEnds => exact hhot hcold

end Hot

/-! ### Tokens that are read -/

/-- A token is read from `c` to `d`. -/
inductive TokenTo (c d : Cursor) : Prop
  | intro {t : List Char} (hpasses : c.Passes d t) (ht : TokenText t) (hfollows : Follows t d.rest)

section Tokens

variable {t rest : List Char}

theorem Cuts.cons (ht : TokenText t) (hfollows : Follows t rest) (h : Cuts rest) :
    Cuts (t ++ rest) := by
  obtain ⟨g, ls, rfl, hgap, hrow⟩ := h
  exact ⟨[], ⟨t, g⟩ :: ls, rfl, .nil _, .cons ht hfollows hgap hrow⟩

theorem Cuts.of_gap {c : Cursor} (h : Cuts (expression.gap false c).rest) : Cuts c.rest := by
  obtain ⟨g, rest, hc, hgap, hsolid⟩ := exists_gap c.rest
  rw [hgap.skip_rest hsolid hc] at h
  obtain ⟨g', ls, heq, hgap', hrow⟩ := h
  obtain ⟨-, rfl⟩ := (Gap.nil rest).unique hgap' hsolid hrow.solid heq
  exact ⟨g, ls, hc, hgap, hrow⟩

/-- Only operators must not be prolonged. -/
theorem Longest.follows (h : Longest t rest) (ht : ∀ s ∈ operatorTexts, t ≠ s.toList) :
    Follows t rest := ⟨h, fun s hs heq => absurd heq (ht s hs)⟩

/-- Only operators begin with their characters. -/
theorem not_operator {c : Char} (hc : startOf c ≠ .sign) (cs : List Char) :
    ∀ s ∈ operatorTexts, c :: cs ≠ s.toList := by
  intro s hs heq
  obtain ⟨x, xs, hx, hstart⟩ := operator_start hs
  cases heq.trans hx
  exact hc hstart

theorem word_not_operator (ht : isWord t = true) : ∀ s ∈ operatorTexts, t ≠ s.toList := by
  cases t with
  | nil => cases ht
  | cons c cs => exact not_operator (by simp [startOf_word ht]) cs

theorem follows_word (ht : isWord t = true) (hrest : WordEnds rest) : Follows t rest :=
  (longest_word ht hrest).follows (word_not_operator ht)

variable {c d : Cursor} {r : Rule} {ts : List (Tree Rule)}

/-- A word has been read, and no word character is left behind it. -/
theorem wordEnds_of_reads {words : List String}
    (h : Reads expression true (.one (anyWord words)) c (matched d ts)) : WordEnds d.rest := by
  cases h with
  | seq hp hq =>
    obtain ⟨rfl, rfl, hfails⟩ := hq.of_unless
    cases hfails with
    | charFails hchar => exact not_accepts_of_char? hchar

/-- One of some words. -/
theorem token_of_anyWord {words : List String} (hall : ∀ w ∈ words, isWord w.toList = true)
    (h : Reads expression true (.one (anyWord words)) c (matched d ts)) : TokenTo c d := by
  obtain ⟨w, hw, hpasses⟩ := word_of_reads h
  exact ⟨hpasses, .word (hall w hw), follows_word (hall w hw) (wordEnds_of_reads h)⟩

theorem token_of_assignOp
    (h : Reads expression true (.one (rulePattern .assignOp)) c (matched d ts))
    (hcold : Cold d.rest) : TokenTo c d := by
  have hoperator : ∀ {w : String}, w ∈ operatorTexts → c.Passes d w.toList → TokenTo c d :=
    fun hw hpasses => ⟨hpasses, .operator hw, .of_operator hw hcold⟩
  cases h with
  | choice h =>
    have hread : Reads expression true (.one (Pattern.oneOf (assignTexts.map lit))) c
      (matched d ts) := h
    obtain ⟨w, hw, hpasses⟩ := oneOf_of_reads hread
    have hsub : assignTexts ⊆ operatorTexts := by decide
    exact hoperator (hsub hw) hpasses
  | choiceLater _ h =>
    cases h with
    | seq hp hq =>
      obtain ⟨rfl, rfl, -⟩ := hq.of_unless
      cases hp with
      | text htake => exact hoperator (w := "=") (by decide) (Cursor.passes_of_take? htake)

theorem token_of_float (h : Reads expression true (.one (rulePattern .float)) c (matched d ts)) :
    TokenTo c d := by
  obtain ⟨t, ht, hpasses⟩ := floatLiteral_of_reads h
  refine ⟨hpasses, .float ht, (longest_float ht (takes_of_reads h hpasses)).follows ?_⟩
  obtain ⟨x, xs, rfl, hx | rfl⟩ := ht.head
  · exact not_operator (by simp [startOf_digit hx]) xs
  · exact not_operator (by decide) xs

/-- An integer is read where no float is. -/
theorem token_of_integer
    (h : Reads expression true (.one (rulePattern .integer)) c (matched d ts))
    (hfloat : Reads expression false (.one (.rule .float)) c failed) : TokenTo c d := by
  obtain ⟨t, n, ht, hpasses⟩ := integerText_of_reads h
  rcases c with ⟨pos, cs⟩
  obtain rfl : cs = t ++ d.rest := hpasses.rest
  refine ⟨hpasses, .integer ht, (longest_integer ht (takes_of_reads h hpasses) hfloat).follows ?_⟩
  obtain ⟨x, xs, rfl, hx⟩ := integerText_head ht
  exact not_operator (by simp [startOf_digit hx]) xs

/-- **What a rule reads as one piece is a token**, which is as long as it can be. -/
theorem token_of_piece (hr : isSolid r = true) (hbody : r ≠ .statementBody)
    (h : Reads expression true (.one (rulePattern r)) c (matched d ts))
    (hinteger : r = .integer → Reads expression false (.one (.rule .float)) c failed)
    (hcold : r = .assignOp → Cold d.rest) : TokenTo c d := by
  cases r with
  | statementBody => exact absurd rfl hbody
  | statementKeyword => exact token_of_anyWord (by decide) h
  | assignOp => exact token_of_assignOp h (hcold rfl)
  | memberName =>
    obtain ⟨cs, hcs, hpasses, hends⟩ := isWord_of_reads h
    exact ⟨hpasses, .word hcs, follows_word hcs hends⟩
  | before op =>
    cases op with
    | not => exact token_of_anyWord (by decide) h
    | _ => cases hr
  | between op =>
    cases op with
    | or | and | isIn | is => exact token_of_anyWord (by decide) h
    | _ => cases hr
  | float => exact token_of_float h
  | integer => exact token_of_integer h (hinteger rfl)
  | string =>
    obtain ⟨t, ht, hpasses⟩ := stringText_of_reads h
    refine ⟨hpasses, .string ht, (longest_string ht _).follows ?_⟩
    obtain ⟨rfl | rfl, -⟩ := ht <;> exact not_operator (by decide) _
  | boolean => exact token_of_anyWord (by decide) h
  | none => exact token_of_anyWord (by decide) h
  | ident =>
    cases h with
    | seq hp hq =>
      cases hp with
      | seq hunless hstart =>
        obtain ⟨rfl, rfl, -⟩ := hunless.of_unless
        obtain ⟨cs, hcs, hpasses, hends⟩ := isWord_of_reads (.seq hstart hq)
        exact ⟨hpasses, .word hcs, follows_word hcs hends⟩
  | keyword k => cases k <;> exact token_of_anyWord (by decide) h
  | _ => cases hr

end Tokens

/-! ### Token by token -/

def Goal.endsOpen : Goal Rule → Bool
  | .one p | .more p => Grammar.endsOpen p

def Goal.safe : Goal Rule → Bool
  | .one p => Grammar.safe p
  | .more p => Grammar.safe (.many p)

section Patterns

variable {p q : Pattern Rule} {c d e : Cursor}

theorem safe_many (h : safe (.many p) = true) :
    safe p = true ∧ (endsOpen p = true → failsHot p = true) := by
  simp only [safe, Bool.and_eq_true, Bool.or_eq_true, Bool.not_eq_true'] at h
  exact ⟨h.1, fun hopen => h.2.resolve_left (by simp [hopen])⟩

theorem safe_seq (h : safe (.seq p q) = true) :
    safe p = true ∧ safe q = true ∧ (endsOpen p = true → inert q = true) := by
  simp only [safe, Bool.and_eq_true, Bool.or_eq_true, Bool.not_eq_true'] at h
  exact ⟨h.1.1, h.1.2, fun hopen => h.2.resolve_left (by simp [hopen])⟩

theorem safe_choice : safe (.choice p q) = true ↔ safe p = true ∧ safe q = true := by
  rw [safe, Bool.and_eq_true]

theorem endsOpen_choice :
    endsOpen (.choice p q) = true ↔ endsOpen p = true ∨ endsOpen q = true := by
  rw [endsOpen, Bool.or_eq_true]

theorem endsOpen_seq (h : endsOpen q = true) : endsOpen (.seq p q) = true := by
  rw [endsOpen, h, Bool.true_or]

theorem tokenTo_of_take? {cs : List Char} (hcs : tokenwise (.text cs) = true)
    (hread : c.take? cs = some d) (hcold : endsOpen (.text cs) = true → Cold d.rest) :
    TokenTo c d := by
  have hpasses := Cursor.passes_of_take? hread
  rw [tokenwise, List.any_eq_true] at hcs
  obtain ⟨s, hs, heq⟩ := hcs
  obtain rfl := of_decide_eq_true heq
  rcases List.mem_append.mp hs with hbracket | hoperator
  · have hother : ∀ s ∈ bracketTexts, ∀ o ∈ operatorTexts, s.toList ≠ o.toList := by decide
    obtain ⟨hmark, hpoint⟩ := mark_of_bracket s hbracket
    exact ⟨hpasses, .mark hmark, (longest_bracket hmark hpoint _).follows (hother s hbracket)⟩
  · refine ⟨hpasses, .operator hoperator, .of_operator hoperator (hcold ?_)⟩
    rw [endsOpen, List.any_eq_true]
    exact ⟨s, hoperator, by simp⟩

/-- Where a name stands, perhaps behind a gap, no digit does. -/
theorem not_digit_of_name {t rest : List Char} (ht : isWord t = true)
    (h : (expression.gap false c).rest = t ++ rest) : ∀ x ∈ c.rest.head?, x.isDigit = false := by
  have hstarts : ∀ x ∈ gapStarts ++ letterChars, x.isDigit = false :=
    List.all_iff_forall_prop.mp (by decide)
  obtain ⟨g, more, hc, hgap, hsolid⟩ := exists_gap c.rest
  rw [hgap.skip_rest hsolid hc] at h
  subst h
  intro x hx
  refine hstarts x ?_
  rw [hc] at hx
  cases g with
  | cons y g =>
    cases hx
    exact List.mem_append_left _ (hgap.head_mem x rfl)
  | nil =>
    cases t with
    | nil => cases ht
    | cons y t =>
      cases hx
      rw [isWord, Bool.and_eq_true] at ht
      exact List.mem_append_right _ (mem_letterChars ht.1)

/-- A point, and the name behind it. -/
theorem memberOp_of_reads {ts : List (Tree Rule)}
    (h : Reads expression false (.one (rulePattern .memberOp)) c (matched d ts)) :
    ∃ mid cs, TokenTo c mid ∧ TokenTo (expression.gap false mid) d ∧
      ts = [.leaf .memberName ⟨(expression.gap false mid).pos, d.pos⟩ cs] := by
  cases h with
  | @seq _ _ _ _ mid _ _ _ hpoint hname =>
    cases hpoint with
    | text htake =>
      obtain ⟨_, rfl, hinner⟩ := hname.of_rule
      obtain ⟨t, ht, hpasses, hends⟩ := isWord_of_reads hinner
      refine ⟨mid, _, ⟨Cursor.passes_of_take? htake, .mark (t := ".") (by decide), ?_⟩,
        ⟨hpasses, .word ht, follows_word ht hends⟩, rfl⟩
      exact (longest_point (not_digit_of_name ht hpasses.rest)).follows (by decide)

end Patterns

end SafeExpr.Grammar
