/-
  SafeExpr/Proofs/Grammar/Quoted.lean
  ===================================
  **Reading quoted text.**

  A string token is a text that is quoted from end to end (`StringText`), in whatever text it
  stands: these texts are taken as string tokens (`takes_string`), and no others are
  (`stringText_of_reads`).
-/
import SafeExpr.Proofs.Grammar.Placed
import SafeExpr.Proofs.Grammar.Token
import SafeExpr.Proofs.Text.Quoted

namespace SafeExpr.Grammar

open Outcome (matched failed)
open Pattern (lit)

variable {q : Char}

/-! ### What is taken -/

/-- One step of quoted text: a backslash with what is behind it, or a plain character. -/
def quotedStep (q : Char) : Pattern Rule :=
  lit "\\" ++ .char (fun _ => true) ||| .char (fun c => c ≠ q && c ≠ '\\' && c ≠ '\n')

theorem takes_escape (q x : Char) (rest : List Char) :
    Takes (quotedStep q) ['\\', x] rest := by
  intro pos
  have hpair : Takes (lit "\\" ++ .char fun _ => true) ['\\', x] rest :=
    (takes_text ['\\'] ([x] ++ rest)).seq (takes_char rfl rest)
  exact .choice (hpair pos)

theorem takes_plain {c : Char} (hq : c ≠ q) (hbackslash : c ≠ '\\') (hline : c ≠ '\n')
    (rest : List Char) : Takes (quotedStep q) [c] rest := by
  intro pos
  have hplain : Takes (.char fun c => c ≠ q && c ≠ '\\' && c ≠ '\n') [c] rest :=
    takes_char (by simp [hq, hbackslash, hline]) rest
  refine .choiceLater (.seqFails (.textFails ?_)) (hplain pos)
  simp [Cursor.take?, Ne.symm hbackslash]

theorem takesMore_body {body : List Char} (hq : IsQuote q) (h : QuotedBody q body)
    (rest : List Char) : TakesMore (quotedStep q) body ([q] ++ rest) := by
  induction h with
  | nil =>
    refine .ends fun pos => ?_
    rcases hq with rfl | rfl
    · exact .choiceLater (.seqFails (.textFails rfl)) (.charFails rfl)
    · exact .choiceLater (.seqFails (.textFails rfl)) (.charFails rfl)
  | plain hne hbackslash hline _ ih => exact .piece (takes_plain hne hbackslash hline _) ih
  | escape _ ih => exact .piece (takes_escape q _ _) ih

/-- **A quoted text is taken as a string token.** -/
theorem takes_string {cs : List Char} (h : StringText cs) (rest : List Char) :
    Takes (rulePattern .string) cs rest := by
  obtain ⟨hq, hbody⟩ := h
  rename_i q body
  have hopen := takes_text [q] (body ++ ([q] ++ rest))
  have hmany := (takesMore_body hq hbody rest).many
  have htext := (hopen.seq hmany).seq (takes_text [q] rest)
  intro pos
  rcases hq with rfl | rfl
  · exact .choiceLater (.seqFails (.seqFails (.textFails rfl))) (htext pos)
  · exact .choice (htext pos)

/-! ### What is read -/

section Read

variable {c d : Cursor} {ts : List (Tree Rule)}

theorem body_of_step (h : Reads expression true (.one (quotedStep q)) c (matched d ts)) :
    ∃ cs, c.Passes d cs ∧ ∀ {body}, QuotedBody q body → QuotedBody q (cs ++ body) := by
  cases h with
  | choice h =>
    cases h with
    | seq hslash hchar =>
      cases hslash with
      | text hslash =>
        cases hchar with
        | char hchar =>
          obtain ⟨x, -, hx⟩ := Cursor.passes_of_char? hchar
          exact ⟨['\\', x], (Cursor.passes_of_take? hslash).trans hx, .escape⟩
  | choiceLater _ h =>
    cases h with
    | char h =>
      obtain ⟨x, hx, hpasses⟩ := Cursor.passes_of_char? h
      simp only [Bool.and_eq_true, decide_eq_true_eq] at hx
      exact ⟨[x], hpasses, .plain hx.1.1 hx.1.2 hx.2⟩

theorem body_of_more {goal : Goal Rule} {b : Bool} {o : Outcome Rule}
    (h : Reads expression b goal c o) :
    ∀ d ts, o = matched d ts → b = true → goal = .more (quotedStep q) →
      ∃ body, c.Passes d body ∧ QuotedBody q body := by
  induction h with
  | more hp hmore ihp ihmore =>
    rintro _ _ ⟨⟩ rfl ⟨⟩
    obtain ⟨cs, hcs, hstep⟩ := body_of_step hp
    obtain ⟨body, hpasses, hbody⟩ := ihmore _ _ rfl rfl rfl
    exact ⟨cs ++ body, hcs.trans hpasses, hstep hbody⟩
  | moreEnds hp =>
    rintro _ _ ⟨⟩ - -
    exact ⟨[], .refl _, .nil⟩
  | _ =>
    intro _ _ _ _ hgoal
    cases hgoal

theorem stringText_of_quotedText (hq : IsQuote q)
    (h : Reads expression true (.one (quotedText q)) c (matched d ts)) :
    ∃ cs, StringText cs ∧ c.Passes d cs := by
  cases h with
  | seq hbody hclosing =>
    cases hbody with
    | seq hopening hbody =>
      cases hopening with
      | text hopening =>
        cases hclosing with
        | text hclosing =>
          have hopens := Cursor.passes_of_take? hopening
          have hcloses := Cursor.passes_of_take? hclosing
          cases hbody with
          | many hp hmore =>
            obtain ⟨cs, hcs, hstep⟩ := body_of_step hp
            obtain ⟨body, hpasses, hbody⟩ := body_of_more hmore _ _ rfl rfl rfl
            exact ⟨_, .intro hq (hstep hbody),
              hopens.trans ((hcs.trans hpasses).trans hcloses)⟩
          | manySkips hp => exact ⟨_, .intro hq .nil, hopens.trans hcloses⟩

/-- **What is read as a string token is a quoted text.** -/
theorem stringText_of_reads
    (h : Reads expression true (.one (rulePattern .string)) c (matched d ts)) :
    ∃ cs, StringText cs ∧ c.Passes d cs := by
  cases h with
  | choice h => exact stringText_of_quotedText (Or.inr rfl) h
  | choiceLater _ h => exact stringText_of_quotedText (Or.inl rfl) h

end Read

end SafeExpr.Grammar
