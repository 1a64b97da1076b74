/-
  SafeExpr/Proofs/Grammar/Lookahead.lean
  ======================================
  **What the next characters decide.**

  Most alternatives of a grammar fail at their first character.  `Grammar.verdict` finds
  out from what is known of the text to come: that a pattern fails, that it matches without
  taking anything, or nothing at all.  The verdicts are computed, and right for every text
  of which this much is known (`holds_verdict`).
-/
import SafeExpr.Proofs.Grammar.Reading

namespace SafeExpr

/-! ### What is known of a text -/

/-- The first characters of a text, and whether they are all of it. -/
structure Ahead where
  known : List Char
  ends : Bool
deriving DecidableEq, Repr

/-- The text begins with these characters. -/
def Ahead.begin (s : String) : Ahead := ⟨s.toList, false⟩

/-- Nothing follows. -/
def Ahead.end : Ahead := ⟨[], true⟩

/-- The text is as described. -/
def Ahead.Of (a : Ahead) (cs : List Char) : Prop :=
  ∃ more, cs = a.known ++ more ∧ (a.ends = true → more = [])

/-- One of the descriptions is right. -/
def Begins (as : List Ahead) (cs : List Char) : Prop := ∃ a ∈ as, a.Of cs

theorem Begins.mono {as bs : List Ahead} {cs : List Char} (h : Begins as cs) (hsub : as ⊆ bs) :
    Begins bs cs := by
  obtain ⟨a, ha, hof⟩ := h
  exact ⟨a, hsub ha, hof⟩

theorem begins_cons {as : List Ahead} {c : Char} (h : ⟨[c], false⟩ ∈ as) (cs : List Char) :
    Begins as (c :: cs) := ⟨_, h, cs, rfl, nofun⟩

theorem begins_known {known cs : List Char} (rest : List Char) (h : cs = known ++ rest) :
    Begins [⟨known, false⟩] cs := ⟨_, List.mem_singleton_self _, rest, h, nofun⟩

/-- Is the text sure not to begin with `cs`? -/
def Ahead.differs : List Char → Ahead → Bool
  | [], _ => false
  | _ :: _, ⟨[], ends⟩ => ends
  | c :: cs, ⟨x :: xs, ends⟩ => c != x || differs cs ⟨xs, ends⟩

theorem Ahead.not_prefix_of_differs {cs : List Char} {a : Ahead} {text : List Char}
    (hof : a.Of text) (h : a.differs cs = true) : ¬ cs <+: text := by
  induction cs generalizing a text with
  | nil => cases h
  | cons c cs ih =>
    obtain ⟨more, rfl, hends⟩ := hof
    rcases a with ⟨known, ends⟩
    cases known with
    | nil =>
      rw [hends h]
      simp
    | cons x xs =>
      simp only [List.cons_append, List.cons_prefix_cons]
      rintro ⟨rfl, hprefix⟩
      simp only [differs, bne_self_eq_false, Bool.false_or] at h
      exact ih (a := ⟨xs, ends⟩) ⟨more, rfl, hends⟩ h hprefix

/-! ### Verdicts -/

inductive Verdict where
  /-- The pattern does not match. -/
  | fails
  /-- The pattern matches no text, and leaves no node. -/
  | skips
  | unknown
deriving DecidableEq, Repr

namespace Pattern

variable {R : Type} (rules : R → Verdict) (a : Ahead)

def verdict : Pattern R → Verdict
  | .text [] => .skips
  | .text cs => if a.differs cs then .fails else .unknown
  | .char accepts =>
    match a.known with
    | [] => if a.ends then .fails else .unknown
    | x :: _ => if accepts x then .unknown else .fails
  | .endOfText =>
    match a.known with
    | [] => if a.ends then .skips else .unknown
    | _ :: _ => .fails
  | .rule r => rules r
  | .seq p q =>
    match p.verdict with
    | .fails => .fails
    | .skips => q.verdict
    | .unknown => .unknown
  | .choice p q =>
    match p.verdict with
    | .fails => q.verdict
    | v => v
  | .optional p | .many p =>
    match p.verdict with
    | .fails => .skips
    | _ => .unknown
  | .unless p =>
    match p.verdict with
    | .fails => .skips
    | .skips => .fails
    | .unknown => .unknown

end Pattern

namespace Grammar

open Outcome (matched failed)

variable {R : Type} (g : Grammar R)

/-- A rule fails where its pattern does.  That it matches no text is left open, since it
    leaves a node then. -/
def ruleVerdict (a : Ahead) : Nat → R → Verdict
  | 0, _ => .unknown
  | n + 1, r =>
    match (g.pattern r).verdict (ruleVerdict a n) a with
    | .fails => .fails
    | _ => .unknown

/-- What is known ahead decides about a pattern; rules are opened eight deep. -/
def verdict (a : Ahead) (p : Pattern R) : Verdict := p.verdict (g.ruleVerdict a 8) a

variable {g}

/-- The verdict is right at a place. -/
def Holds (g : Grammar R) (b : Bool) (p : Pattern R) (c : Cursor) : Verdict → Prop
  | .fails => Reads g b (.one p) c failed
  | .skips => Reads g b (.one p) c (matched c [])
  | .unknown => True

section

variable {a : Ahead} {c : Cursor}

theorem take?_of_differs {cs : List Char} (ha : a.Of c.rest) (h : a.differs cs = true) :
    c.take? cs = none := by
  unfold Cursor.take?
  rw [if_neg]
  rw [List.isPrefixOf_iff_prefix]
  exact Ahead.not_prefix_of_differs ha h

theorem take?_nil (c : Cursor) : c.take? [] = some c := by
  simp [Cursor.take?, byteLength]

theorem char?_of_known {accepts : Char → Bool} {x : Char} {xs : List Char}
    (ha : a.Of c.rest) (hknown : a.known = x :: xs) (h : accepts x = false) :
    c.char? accepts = none := by
  obtain ⟨more, hrest, -⟩ := ha
  rw [hknown, List.cons_append] at hrest
  simp [Cursor.char?, hrest, h]

theorem rest_of_ends (ha : a.Of c.rest) (hknown : a.known = []) (h : a.ends = true) :
    c.rest = [] := by
  obtain ⟨more, hrest, hends⟩ := ha
  rw [hrest, hknown, hends h]
  rfl

theorem holds_pattern {rules : R → Verdict} (ha : a.Of c.rest) (hgap : g.skipBlanks c = c)
    (hrules : ∀ b r, Holds g b (.rule r) c (rules r)) (b : Bool) (p : Pattern R) :
    Holds g b p c (p.verdict rules a) := by
  have hgap' : g.gap b c = c := by
    unfold gap
    split
    · rfl
    · exact hgap
  induction p with
  | text cs =>
    cases cs with
    | nil => exact .text (take?_nil c)
    | cons x xs =>
      simp only [Pattern.verdict]
      split
      · next hdiffers => exact .textFails (take?_of_differs ha hdiffers)
      · trivial
  | char accepts =>
    simp only [Pattern.verdict]
    split
    · next hknown =>
      split
      · next hends =>
        refine .charFails ?_
        simp [Cursor.char?, rest_of_ends ha hknown hends]
      · trivial
    · next x xs hknown =>
      split
      · trivial
      · next haccepts =>
        exact .charFails (char?_of_known ha hknown (by simpa using haccepts))
  | endOfText =>
    simp only [Pattern.verdict]
    split
    · next hknown =>
      split
      · next hends => exact .endOfText (by simp [rest_of_ends ha hknown hends])
      · trivial
    · next x xs hknown =>
      refine .endOfTextFails ?_
      obtain ⟨more, hrest, -⟩ := ha
      rw [hrest, hknown]
      rfl
  | rule r => exact hrules b r
  | seq p q ihp ihq =>
    simp only [Pattern.verdict]
    cases hp : p.verdict rules a with
    | fails =>
      rw [hp] at ihp
      exact .seqFails ihp
    | unknown => trivial
    | skips =>
      rw [hp] at ihp
      dsimp only
      cases hq : q.verdict rules a with
      | fails =>
        rw [hq] at ihq
        exact .seqFailsLater ihp (by rw [hgap']; exact ihq)
      | unknown => trivial
      | skips =>
        rw [hq] at ihq
        exact .seq ihp (by rw [hgap']; exact ihq)
  | choice p q ihp ihq =>
    simp only [Pattern.verdict]
    cases hp : p.verdict rules a with
    | skips =>
      rw [hp] at ihp
      exact .choice ihp
    | unknown => trivial
    | fails =>
      rw [hp] at ihp
      dsimp only
      cases hq : q.verdict rules a with
      | fails =>
        rw [hq] at ihq
        exact .choiceLater ihp ihq
      | skips =>
        rw [hq] at ihq
        exact .choiceLater ihp ihq
      | unknown => trivial
  | optional p ih =>
    simp only [Pattern.verdict]
    cases hp : p.verdict rules a with
    | fails =>
      rw [hp] at ih
      exact .optionalSkips ih
    | skips | unknown => trivial
  | many p ih =>
    simp only [Pattern.verdict]
    cases hp : p.verdict rules a with
    | fails =>
      rw [hp] at ih
      exact .manySkips ih
    | skips | unknown => trivial
  | «unless» p ih =>
    simp only [Pattern.verdict]
    cases hp : p.verdict rules a with
    | fails =>
      rw [hp] at ih
      exact .unless ih
    | skips =>
      rw [hp] at ih
      exact .unlessFails ih
    | unknown => trivial

theorem holds_rule (ha : a.Of c.rest) (hgap : g.skipBlanks c = c) (n : Nat) (b : Bool) (r : R) :
    Holds g b (.rule r) c (g.ruleVerdict a n r) := by
  induction n generalizing b r with
  | zero => trivial
  | succ n ih =>
    have hpattern := holds_pattern ha hgap ih (b || g.isToken r) (g.pattern r)
    unfold ruleVerdict
    cases hv : (g.pattern r).verdict (g.ruleVerdict a n) a with
    | fails =>
      rw [hv] at hpattern
      exact .ruleFails hpattern
    | skips | unknown => trivial

/-- **A verdict is right wherever the text is as described.** -/
theorem holds_verdict (ha : a.Of c.rest) (hgap : g.skipBlanks c = c) (b : Bool)
    (p : Pattern R) : Holds g b p c (g.verdict a p) :=
  holds_pattern ha hgap (holds_rule ha hgap 8) b p

end

/-! ### Several descriptions -/

/-- Is the verdict the same for all descriptions? -/
def decides (g : Grammar R) (as : List Ahead) (p : Pattern R) (v : Verdict) : Bool :=
  as.all fun a => g.verdict a p == v

variable {as : List Ahead} {b : Bool} {p : Pattern R} {c : Cursor}

theorem holds_of_decides {v : Verdict} (h : g.decides as p v = true) (hc : Begins as c.rest)
    (hgap : g.skipBlanks c = c) : Holds g b p c v := by
  obtain ⟨a, ha, hof⟩ := hc
  have hv := List.all_eq_true.mp h a ha
  rw [beq_iff_eq] at hv
  rw [← hv]
  exact holds_verdict hof hgap b p

theorem reads_failed_of_decides (h : g.decides as p .fails = true) (hc : Begins as c.rest)
    (hgap : g.skipBlanks c = c) : Reads g b (.one p) c failed := holds_of_decides h hc hgap

theorem reads_skip_of_decides (h : g.decides as p .skips = true) (hc : Begins as c.rest)
    (hgap : g.skipBlanks c = c) : Reads g b (.one p) c (matched c []) :=
  holds_of_decides h hc hgap

end Grammar

end SafeExpr
