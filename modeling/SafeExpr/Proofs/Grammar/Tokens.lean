/-
  SafeExpr/Proofs/Grammar/Tokens.lean
  ===================================
  **Texts cut into tokens.**

  A text is cut into tokens from left to right, each as long as it can be, with gaps behind them
  (`Tokens`).  It is cut in one way only (`Tokens.unique`).  The same tokens in another layout are still
  cut in that way, if what was parted stays parted (`Tokens.relaid`).
-/
import SafeExpr.Proofs.Grammar.Lexeme

namespace SafeExpr.Grammar

/-! ### Rows of tokens -/

/-- A token, and the gap behind it. -/
structure Lexeme where
  text : List Char
  gap : List Char

/-- The text that the tokens make up. -/
def spell : List Lexeme → List Char
  | [] => []
  | l :: ls => l.text ++ (l.gap ++ spell ls)

theorem spell_append (ls ls' : List Lexeme) : spell (ls ++ ls') = spell ls ++ spell ls' := by
  induction ls with
  | nil => rfl
  | cons l ls ih => simp only [List.cons_append, spell, ih, List.append_assoc]

/-- Tokens in a row, where `P` holds of each and of the text behind it. -/
inductive Tokens (P : List Char → List Char → Prop) : List Lexeme → Prop
  | nil : Tokens P []
  | cons {t g : List Char} {ls : List Lexeme} (ht : TokenText t) (hp : P t (g ++ spell ls))
    (hgap : Gap g (spell ls)) (h : Tokens P ls) : Tokens P (⟨t, g⟩ :: ls)

/-- A token is as long as it can be, and nothing that prolongs operators follows one. -/
structure Follows (t rest : List Char) : Prop where
  longest : Longest t rest
  cold : ∀ s ∈ operatorTexts, t = s.toList → Cold rest

namespace Tokens

variable {P Q : List Char → List Char → Prop} {ls ls' : List Lexeme}

theorem mono (h : Tokens P ls) (hpq : ∀ t rest, P t rest → Q t rest) : Tokens Q ls := by
  induction h with
  | nil => exact .nil
  | cons ht hp hgap _ ih => exact .cons ht (hpq _ _ hp) hgap ih

theorem solid (h : Tokens P ls) : Solid (spell ls) := by
  cases h with
  | nil => exact solid_nil
  | cons ht => exact ht.solid _

/-- The tokens behind some others. -/
theorem of_append (h : Tokens P (ls ++ ls')) : Tokens P ls' := by
  induction ls with
  | nil => exact h
  | cons l ls ih =>
    cases h with
    | cons _ _ _ h => exact ih h

end Tokens

/-! ### One way only -/

/-- Where a gap ends is settled by the text. -/
theorem Gap.unique {g g' rest rest' : List Char} (h : Gap g rest) (h' : Gap g' rest')
    (hrest : Solid rest) (hrest' : Solid rest') (heq : g ++ rest = g' ++ rest') :
    g = g' ∧ rest = rest' := by
  have hskip := h.skip hrest 0
  rw [heq, h'.skip hrest' 0] at hskip
  have hsame : rest' = rest := congrArg Cursor.rest hskip
  subst hsame
  exact ⟨List.append_cancel_right heq, rfl⟩

/-- **A text is cut into tokens in one way only.** -/
theorem Tokens.unique {ls ls' : List Lexeme} (h : Tokens Longest ls) (h' : Tokens Longest ls')
    (heq : spell ls = spell ls') : ls = ls' := by
  induction h generalizing ls' with
  | nil =>
    cases h' with
    | nil => rfl
    | cons ht => exact absurd (List.append_eq_nil_iff.mp heq.symm).1 ht.ne_nil
  | @cons t g ls ht hlongest hgap h ih =>
    cases h' with
    | nil => exact absurd (List.append_eq_nil_iff.mp heq).1 ht.ne_nil
    | @cons t' g' ls' ht' hlongest' hgap' h' =>
      have heq : t ++ (g ++ spell ls) = t' ++ (g' ++ spell ls') := heq
      have hle : t <+: t' := hlongest' t ht (heq ▸ List.prefix_append t _)
      have hge : t' <+: t := hlongest t' ht' (heq ▸ List.prefix_append t' _)
      cases hle.eq_of_length_le hge.length_le
      obtain ⟨rfl, hrest⟩ := hgap.unique hgap' h.solid h'.solid (List.append_cancel_left heq)
      rw [ih h' hrest]

/-! ### Another layout -/

/-- The same tokens with other gaps between them; tokens that were parted stay parted. -/
inductive Relaid : List Lexeme → List Lexeme → Prop
  | nil : Relaid [] []
  | cons {t g g' : List Char} {ls ls' : List Lexeme} (hgap : Gap g' (spell ls'))
    (hparted : g' = [] → g = []) (h : Relaid ls ls') : Relaid (⟨t, g⟩ :: ls) (⟨t, g'⟩ :: ls')

namespace Relaid

variable {ls ls' : List Lexeme} {g g' t v : List Char}

/-- The beginning of the new text up to its first gap is a beginning of the old one. -/
theorem prefix_old (h : Relaid ls ls') (hv : ∀ c ∈ v, c ∉ gapStarts) (hstarts : v <+: spell ls') :
    v <+: spell ls := by
  induction h generalizing v with
  | nil => exact hstarts
  | @cons t g g' ls ls' hgap hparted h ih =>
    have hstarts : v <+: t ++ (g' ++ spell ls') := hstarts
    have hold : spell (⟨t, g⟩ :: ls) = t ++ (g ++ spell ls) := rfl
    rw [hold]
    rcases List.prefix_or_prefix_of_prefix hstarts (List.prefix_append t _) with hvt | htv
    · exact hvt.trans (List.prefix_append t _)
    · obtain ⟨more, rfl⟩ := htv
      rw [List.prefix_append_right_inj] at hstarts ⊢
      have hmore : ∀ c ∈ more, c ∉ gapStarts := fun c hc => hv c (List.mem_append_right t hc)
      cases g' with
      | nil =>
        rw [hparted rfl]
        exact ih hmore hstarts
      | cons x g' =>
        cases more with
        | nil => exact List.nil_prefix
        | cons y more =>
          have hx := hgap.head_mem x rfl
          rw [List.cons_append, List.cons_prefix_cons] at hstarts
          exact absurd (hstarts.1 ▸ hx) (hmore y List.mem_cons_self)

theorem prefix_old_gap (h : Relaid ls ls') (hgap : Gap g' (spell ls')) (hparted : g' = [] → g = [])
    (hv : ∀ c ∈ v, c ∉ gapStarts) (hstarts : v <+: t ++ (g' ++ spell ls')) :
    v <+: t ++ (g ++ spell ls) :=
  (Relaid.cons (t := t) hgap hparted h).prefix_old hv hstarts

theorem longest (h : Relaid ls ls') (hgap : Gap g' (spell ls')) (hparted : g' = [] → g = [])
    (ht : TokenText t) (hlongest : Longest t (g ++ spell ls)) : Longest t (g' ++ spell ls') := by
  intro v hv hstarts
  by_cases hquoted : StringText v
  · exact longest_string (string_of_begins ht hquoted hstarts) _ v hv hstarts
  · exact hlongest v hv (h.prefix_old_gap hgap hparted (hv.free hquoted) hstarts)

theorem cold (h : Relaid ls ls') (hgap : Gap g' (spell ls')) (hparted : g' = [] → g = [])
    (hcold : Cold (g ++ spell ls)) : Cold (g' ++ spell ls') := by
  have hsolid : ∀ c ∈ hotChars, c ∉ gapStarts := List.all_iff_forall_prop.mp (by decide)
  have hstarts_iff : ∀ {c : Char} {cs : List Char}, [c] <+: [] ++ cs ↔ c ∈ cs.head? := by
    intro c cs
    cases cs <;> simp [eq_comm]
  intro c hc hhot
  have hold := h.prefix_old_gap (t := []) hgap hparted (v := [c]) (by simpa using hsolid c hhot)
    (hstarts_iff.mpr hc)
  exact hcold c (hstarts_iff.mp hold) hhot

end Relaid

/-- **The same tokens in another layout.** -/
theorem Tokens.relaid {ls ls' : List Lexeme} (h : Tokens Follows ls) (hr : Relaid ls ls') :
    Tokens Follows ls' := by
  induction hr with
  | nil => exact .nil
  | cons hgap hparted hr ih =>
    cases h with
    | cons ht hfollows _ h =>
      refine .cons ht ⟨hr.longest hgap hparted ht hfollows.longest, fun s hs heq => ?_⟩ hgap (ih h)
      exact hr.cold hgap hparted (hfollows.cold s hs heq)

/-- Layout has been inserted on either side of each gap. -/
inductive Widened : List Lexeme → List Lexeme → Prop
  | nil : Widened [] []
  | cons {t g a b : List Char} {ls ls' : List Lexeme} (ha : Layout a) (hb : Layout b)
    (h : Widened ls ls') : Widened (⟨t, g⟩ :: ls) (⟨t, a ++ (g ++ b)⟩ :: ls')

theorem Gap.change {g rest rest' : List Char} (h : Gap g rest) (hend : rest = [] → rest' = []) :
    Gap g rest' := by
  cases h with
  | layout h => exact .layout h rest'
  | comment h htext =>
    rw [hend rfl]
    exact .comment h htext

/-- Wider gaps leave the tokens as they are. -/
theorem Widened.relaid {P : List Char → List Char → Prop} {ls ls' : List Lexeme}
    (h : Widened ls ls') (hrow : Tokens P ls) : Relaid ls ls' := by
  induction h with
  | nil => exact .nil
  | @cons t g a b ls ls' ha hb h ih =>
    cases hrow with
    | cons ht hp hgap hrow =>
      have hend : spell ls = [] → spell ls' = [] := by
        cases hrow with
        | nil =>
          cases h
          exact id
        | cons ht => exact fun heq => absurd (List.append_eq_nil_iff.mp heq).1 ht.ne_nil
      refine .cons (((hgap.append hb).prepend ha).change hend) (fun heq => ?_) (ih hrow)
      exact (List.append_eq_nil_iff.mp (List.append_eq_nil_iff.mp heq).2).1

end SafeExpr.Grammar
