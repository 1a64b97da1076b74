/-
  SafeExpr/Proofs/Grammar/Shape.lean
  ==================================
  **What nodes a pattern leaves.**

  Outside of tokens, the nodes that a match leaves tell which parts of the pattern have
  matched.  `Shape p ts` follows the pattern; what a rule leaves is one node of its own.
-/
import SafeExpr.Grammar.Expression
import SafeExpr.Proofs.Grammar.Reading

namespace SafeExpr.Grammar

open Outcome (matched)

/-- A leaf of the rule, if it is a token, or else a node of it. -/
def OfRule (r : Rule) (t : Tree Rule) : Prop :=
  if isSolid r then ∃ span text, t = .leaf r span text
  else ∃ span parts, t = .node r span parts

theorem OfRule.leaf {r : Rule} {t : Tree Rule} (h : OfRule r t) (hr : isSolid r = true) :
    ∃ span text, t = .leaf r span text := by
  rwa [OfRule, if_pos hr] at h

theorem OfRule.node {r : Rule} {t : Tree Rule} (h : OfRule r t) (hr : isSolid r = false) :
    ∃ span parts, t = .node r span parts := by
  rwa [OfRule, hr, if_neg Bool.false_ne_true] at h

theorem OfRule.rule_eq {r : Rule} {t : Tree Rule} (h : OfRule r t) : t.rule = r := by
  unfold OfRule at h
  split at h
  · obtain ⟨span, text, rfl⟩ := h
    rfl
  · obtain ⟨span, parts, rfl⟩ := h
    rfl

/-- The nodes are such as the pattern leaves. -/
def Shape : Pattern Rule → List (Tree Rule) → Prop
  | .rule r, ts => ∃ t, ts = [t] ∧ OfRule r t
  | .seq p q, ts => ∃ us vs, ts = us ++ vs ∧ Shape p us ∧ Shape q vs
  | .choice p q, ts => Shape p ts ∨ Shape q ts
  | .optional p, ts => Shape p ts ∨ ts = []
  | .many p, ts =>
    ∃ tss : List (List (Tree Rule)), (∀ us ∈ tss, Shape p us) ∧ ts = tss.flatten
  | .text _, ts | .char _, ts | .unless _, ts | .endOfText, ts => ts = []

/-- The rules that a pattern can leave nodes of. -/
def rulesOf : Pattern Rule → List Rule
  | .rule r => [r]
  | .seq p q | .choice p q => rulesOf p ++ rulesOf q
  | .optional p | .many p => rulesOf p
  | .text _ | .char _ | .unless _ | .endOfText => []

/-- Whatever a pattern leaves is a node of one of its rules. -/
theorem Shape.ofRules {p : Pattern Rule} {ts : List (Tree Rule)} (h : Shape p ts) :
    ∀ t ∈ ts, ∃ r ∈ rulesOf p, OfRule r t := by
  induction p generalizing ts with
  | rule r =>
    obtain ⟨t, rfl, ht⟩ := h
    exact List.forall_mem_singleton.mpr ⟨r, List.mem_singleton_self r, ht⟩
  | seq p q ihp ihq =>
    obtain ⟨us, vs, rfl, hus, hvs⟩ := h
    intro t ht
    rcases List.mem_append.mp ht with ht | ht
    · obtain ⟨r, hr, hrule⟩ := ihp hus t ht
      exact ⟨r, List.mem_append_left _ hr, hrule⟩
    · obtain ⟨r, hr, hrule⟩ := ihq hvs t ht
      exact ⟨r, List.mem_append_right _ hr, hrule⟩
  | choice p q ihp ihq =>
    intro t ht
    rcases h with h | h
    · obtain ⟨r, hr, hrule⟩ := ihp h t ht
      exact ⟨r, List.mem_append_left _ hr, hrule⟩
    · obtain ⟨r, hr, hrule⟩ := ihq h t ht
      exact ⟨r, List.mem_append_right _ hr, hrule⟩
  | optional p ih =>
    rcases h with h | rfl
    · exact ih h
    · exact List.forall_mem_nil _
  | many p ih =>
    obtain ⟨tss, htss, rfl⟩ := h
    intro t ht
    obtain ⟨us, hus, htus⟩ := List.mem_flatten.mp ht
    exact ih (htss us hus) t htus
  | text cs | char accepts | «unless» p | endOfText =>
    cases h
    exact List.forall_mem_nil _

/-- Whatever a pattern leaves is the node of its rule. -/
theorem Shape.ofRule {p : Pattern Rule} {ts : List (Tree Rule)} (h : Shape p ts) :
    ∀ t ∈ ts, OfRule t.rule t := by
  intro t ht
  obtain ⟨r, -, hrule⟩ := h.ofRules t ht
  rwa [hrule.rule_eq]

/-- The same for a repetition that goes on. -/
def ShapeGoal : Goal Rule → List (Tree Rule) → Prop
  | .one p => Shape p
  | .more p => Shape (.many p)

theorem shape_many_append {p : Pattern Rule} {ts us : List (Tree Rule)} (hts : Shape p ts)
    (hus : Shape (.many p) us) : Shape (.many p) (ts ++ us) := by
  obtain ⟨tss, htss, rfl⟩ := hus
  exact ⟨ts :: tss, List.forall_mem_cons.mpr ⟨hts, htss⟩, rfl⟩

/-- **The nodes of a match have the shape of the pattern.** -/
theorem shape_of_reads {b : Bool} {goal : Goal Rule} {c : Cursor} {o : Outcome Rule}
    (h : Reads expression b goal c o) :
    ∀ d ts, o = matched d ts → b = false → ShapeGoal goal ts := by
  induction h with
  | textFails | charFails | endOfTextFails | seqFails | seqFailsLater | ruleFails
  | unlessFails =>
    intro d ts ho
    cases ho
  | text | char | endOfText | «unless» =>
    rintro d ts ⟨⟩ -
    rfl
  | optionalSkips =>
    rintro d ts ⟨⟩ -
    exact Or.inr rfl
  | manySkips | moreEnds =>
    rintro d ts ⟨⟩ -
    exact ⟨[], List.forall_mem_nil _, rfl⟩
  | optional _ ih | choice _ ih =>
    rintro d ts ⟨⟩ hb
    exact Or.inl (ih _ _ rfl hb)
  | choiceLater _ _ _ ih =>
    rintro d ts ho hb
    exact Or.inr (ih d ts ho hb)
  | seq _ _ ihp ihq =>
    rintro d ts ⟨⟩ hb
    exact ⟨_, _, rfl, ihp _ _ rfl hb, ihq _ _ rfl hb⟩
  | many _ _ ihp ihmore | more _ _ ihp ihmore =>
    rintro d ts ⟨⟩ hb
    exact shape_many_append (ihp _ _ rfl hb) (ihmore _ _ rfl hb)
  | @rule b r c d ts _ _ =>
    rintro _ _ ⟨⟩ rfl
    by_cases hr : isSolid r = true
    · have htoken : expression.isToken r = true := hr
      exact ⟨.leaf r ⟨c.pos, d.pos⟩ (c.upTo d), by simp [leaves, htoken], by simp [OfRule, hr]⟩
    · have htoken : ¬ expression.isToken r = true := hr
      exact ⟨.node r ⟨c.pos, d.pos⟩ ts, by simp [leaves, htoken], by simp [OfRule, hr]⟩

theorem shape_of_reads_rule {r : Rule} {c d : Cursor} {ts : List (Tree Rule)}
    (h : Reads expression false (.one (rulePattern r)) c (matched d ts)) :
    Shape (rulePattern r) ts :=
  shape_of_reads h d ts rfl rfl

end SafeExpr.Grammar
