/-
  SafeExpr/Proofs/Grammar/Operand.lean
  ====================================
  **Reading an operand, and an expression that is one operand.**

  Which operand is read is decided by the alternatives in front of it, most of which fail at
  the first character.  `Yields p cs P` collects what the reading of a whole value comes to:
  the pattern `p` reads exactly `cs` in front of everything that may follow a value, and
  leaves one node, which satisfies `P`.
-/
import SafeExpr.Proofs.Grammar.Integer
import SafeExpr.Proofs.Grammar.Quoted

namespace SafeExpr.Grammar

open Outcome (matched failed)
open Pattern (lit oneOf)

/-! ### One of several rules -/

theorem reads_oneOf {rules : List Rule} {r : Rule} {b : Bool} {c d : Cursor}
    {ts : List (Tree Rule)} (hr : r ∈ rules)
    (hfail : ∀ q ∈ rules.takeWhile (· ≠ r), Reads expression b (.one (.rule q)) c failed)
    (hread : Reads expression b (.one (.rule r)) c (matched d ts)) :
    Reads expression b (.one (oneOf (rules.map .rule))) c (matched d ts) := by
  induction rules with
  | nil => cases hr
  | cons q rules ih =>
    cases rules with
    | nil =>
      rw [List.mem_singleton] at hr
      subst hr
      exact hread
    | cons q' rules =>
      by_cases hq : q = r
      · subst hq
        exact .choice hread
      · have hmem : r ∈ q' :: rules := (List.mem_cons.mp hr).resolve_left (Ne.symm hq)
        rw [List.takeWhile_cons_of_pos (by simpa using hq), List.forall_mem_cons] at hfail
        exact .choiceLater hfail.1 (ih hmem hfail.2)

/-- The operands, in the order in which they are tried. -/
def operandRules : List Rule :=
  [.float, .integer, .string, .boolean, .none, .ident, .grouped, .tuple, .generator,
    .list, .listComp, .dict, .dictComp, .set, .setComp]

/-- An operand is read if the next characters, or what is shown of the exceptions, rule out
    the alternatives in front of it. -/
theorem reads_operand {r : Rule} {as : List Ahead} {c d : Cursor} {ts : List (Tree Rule)}
    (exceptions : List Rule) (hr : r ∈ operandRules) (hbegins : Begins as c.rest)
    (hsolid : as.all solid = true)
    (hcheck : (operandRules.takeWhile (· ≠ r)).all (fun q =>
      exceptions.contains q || expression.decides as (.rule q) .fails) = true)
    (hfail : ∀ q ∈ exceptions, Reads expression false (.one (.rule q)) c failed)
    (hread : Reads expression false (.one (.rule r)) c (matched d ts)) :
    Reads expression false (.one operandPart) c (matched d ts) := by
  refine reads_oneOf hr (fun q hq => ?_) hread
  have hone := List.all_eq_true.mp hcheck q hq
  rw [Bool.or_eq_true] at hone
  rcases hone with hexception | hdecides
  · exact hfail q (by simpa using hexception)
  · exact reads_failed_of_decides hdecides hbegins (skipBlanks_of_solid hbegins hsolid)

/-! ### Expressions of one operand -/

/-- An expression is its prefixes and its operand, if nothing that follows belongs to it. -/
theorem reads_expression {c c' d : Cursor} {before : List (Tree Rule)} {t : Tree Rule}
    (hbefore : Reads expression false (.one (.many prefixPart)) c (matched c' before))
    (hgap : expression.skipBlanks c' = c')
    (hoperand : Reads expression false (.one operandPart) c' (matched d [t]))
    (hd : Begins followers d.rest) :
    Reads expression false (.one expr) c
      (matched d [.node .expression ⟨c.pos, d.pos⟩ (before ++ [t])]) := by
  have hend : expression.gap false d = d := skipBlanks_of_solid hd (by decide)
  have hpostfix : Reads expression false (.one (.many postfixPart)) d (matched d []) :=
    skips_at_followers hd (by decide) false d.pos
  have hinfix : Reads expression false (.one (.many (infixPart ++ termPart))) d
      (matched d []) := skips_at_followers hd (by decide) false d.pos
  have hterm : Reads expression false (.one termPart) c
      (matched d (before ++ [t] ++ [])) :=
    .seq (.seq hbefore (by rw [gap, if_neg Bool.false_ne_true, hgap]; exact hoperand))
      (by rw [hend]; exact hpostfix)
  have hwhole : Reads expression false (.one (rulePattern .expression)) c
      (matched d (before ++ [t] ++ [] ++ [])) :=
    .seq hterm (by rw [hend]; exact hinfix)
  simp only [List.append_nil] at hwhole
  exact Reads.rule (r := Rule.expression) hwhole

/-- How values begin that are not negative. -/
def operandStarts : List Ahead :=
  ("NTF".toList ++ "0123456789".toList ++ "'\"[(\x7b".toList).map fun c => ⟨[c], false⟩

/-- How values begin. -/
def valueStarts : List Ahead := ⟨['-'], false⟩ :: operandStarts

/-- The pattern reads the text as one node, wherever a value may end. -/
structure Yields (p : Pattern Rule) (cs : List Char) (P : Tree Rule → Prop) : Prop where
  starts (more : List Char) : Begins valueStarts (cs ++ more)
  reads (pos : Nat) {rest : List Char} (hrest : Begins followers rest) :
    ∃ pos' t, Reads expression false (.one p) ⟨pos, cs ++ rest⟩ (matched ⟨pos', rest⟩ [t]) ∧ P t

/-- An operand alone is an expression. -/
theorem yields_operand {cs : List Char} {P : Tree Rule → Prop}
    (hstarts : ∀ more, Begins operandStarts (cs ++ more))
    (hreads : ∀ pos rest, Begins followers rest →
      ∃ pos' t, Reads expression false (.one operandPart) ⟨pos, cs ++ rest⟩
        (matched ⟨pos', rest⟩ [t]) ∧ ∀ span, P (.node .expression span [t])) :
    Yields expr cs P where
  starts more := (hstarts more).mono (List.subset_cons_self _ _)
  reads pos rest hrest := by
    obtain ⟨pos', t, ht, hP⟩ := hreads pos rest hrest
    have hbegins := hstarts rest
    have hskip : expression.decides operandStarts (.many prefixPart) .skips = true := by
      decide
    have hsolid : ∀ pos, expression.skipBlanks ⟨pos, cs ++ rest⟩ = ⟨pos, cs ++ rest⟩ :=
      fun pos => skipBlanks_of_solid hbegins (by decide)
    have hbefore : Reads expression false (.one (.many prefixPart)) ⟨pos, cs ++ rest⟩
        (matched ⟨pos, cs ++ rest⟩ []) := reads_skip_of_decides hskip hbegins (hsolid pos)
    exact ⟨pos', _, reads_expression hbefore (hsolid pos) ht hrest, hP _⟩

/-! ### Literals -/

/-- The expression is a single token of this rule and with this text. -/
def IsLeaf (r : Rule) (cs : List Char) (t : Tree Rule) : Prop :=
  ∃ span span', t = .node .expression span [.leaf r span' cs]

theorem yields_leaf {r : Rule} {cs : List Char} {as : List Ahead} (exceptions : List Rule)
    (hr : r ∈ operandRules) (htoken : isSolid r = true) (hsolid : as.all solid = true)
    (hstarts : ∀ more, Begins operandStarts (cs ++ more))
    (hbegins : ∀ rest, Begins followers rest → Begins as (cs ++ rest))
    (hcheck : (operandRules.takeWhile (· ≠ r)).all (fun q =>
      exceptions.contains q || expression.decides as (.rule q) .fails) = true)
    (hfail : ∀ q ∈ exceptions, ∀ pos rest, Begins followers rest →
      Reads expression false (.one (.rule q)) ⟨pos, cs ++ rest⟩ failed)
    (hread : ∀ rest, Begins followers rest → Takes (rulePattern r) cs rest) :
    Yields expr cs (IsLeaf r cs) := by
  refine yields_operand hstarts fun pos rest hrest => ?_
  have hleaf := (hread rest hrest).leaf htoken pos
  exact ⟨_, _, reads_operand exceptions hr (hbegins rest hrest) hsolid hcheck
    (fun q hq => hfail q hq pos rest hrest) hleaf, fun span => ⟨span, _, rfl⟩⟩

/-- A token whose first character rules out all alternatives in front of it. -/
theorem yields_plain_leaf {r : Rule} {c : Char} {cs : List Char} (hr : r ∈ operandRules)
    (htoken : isSolid r = true) (hc : ⟨[c], false⟩ ∈ operandStarts)
    (hsolid : solid ⟨[c], false⟩ = true)
    (hcheck : (operandRules.takeWhile (· ≠ r)).all (fun q =>
      expression.decides [⟨[c], false⟩] (.rule q) .fails) = true)
    (hread : ∀ rest, Begins followers rest → Takes (rulePattern r) (c :: cs) rest) :
    Yields expr (c :: cs) (IsLeaf r (c :: cs)) := by
  have hbegins : ∀ more, Begins [⟨[c], false⟩] (c :: cs ++ more) := fun more =>
    begins_cons (List.mem_singleton_self _) _
  refine yields_leaf [] hr htoken (by simp [hsolid]) ?_ (fun rest _ => hbegins rest) ?_ nofun
    hread
  · intro more
    exact begins_cons hc _
  · simpa using hcheck

theorem yields_none : Yields expr "None".toList (IsLeaf .none "None".toList) :=
  yields_plain_leaf (by decide) rfl (by decide) (by decide) (by decide)
    fun _ hrest => takes_anyWord hrest fun rest => takes_text "None".toList rest

theorem yields_true : Yields expr "True".toList (IsLeaf .boolean "True".toList) :=
  yields_plain_leaf (by decide) rfl (by decide) (by decide) (by decide)
    fun _ hrest => takes_anyWord hrest fun rest pos => .choice (takes_text "True".toList rest pos)

theorem yields_false : Yields expr "False".toList (IsLeaf .boolean "False".toList) :=
  yields_plain_leaf (by decide) rfl (by decide) (by decide) (by decide)
    fun _ hrest => takes_anyWord hrest fun rest pos =>
      .choiceLater (.textFails rfl) (takes_text "False".toList rest pos)

theorem yields_string {cs : List Char} (h : StringText cs) :
    Yields expr cs (IsLeaf .string cs) := by
  have hread := takes_string h
  obtain ⟨hq, hbody⟩ := h
  rcases hq with rfl | rfl
  · exact yields_plain_leaf (by decide) rfl (by decide) (by decide) (by decide)
      fun rest _ => hread rest
  · exact yields_plain_leaf (by decide) rfl (by decide) (by decide) (by decide)
      fun rest _ => hread rest

section Integers

variable {cs : List Char} {n : Nat} (h : IntegerText cs n)
include h

/-- Integers begin an operand. -/
theorem integer_starts (more : List Char) : Begins operandStarts (cs ++ more) :=
  (begins_integer h more).mono (by decide)

theorem reads_integer (pos : Nat) {rest : List Char} (hrest : Begins followers rest) :
    Reads expression false (.one operandPart) ⟨pos, cs ++ rest⟩
      (matched ⟨pos + byteLength cs, rest⟩ [.leaf .integer ⟨pos, pos + byteLength cs⟩ cs]) := by
  have hcut := cut_of_followers hrest
  refine reads_operand [.float] (by decide) (begins_integer h rest) (by decide)
    (by decide) ?_ ((takes_integer h hcut.word).leaf rfl pos)
  intro q hq
  rw [List.mem_singleton] at hq
  subst hq
  exact float_fails h hcut pos

theorem yields_integer : Yields expr cs (IsLeaf .integer cs) :=
  yields_operand (integer_starts h) fun pos _ hrest =>
    ⟨_, _, reads_integer h pos hrest, fun span => ⟨span, _, rfl⟩⟩

end Integers

/-- The expression is a minus sign and digits behind it. -/
def IsNegative (cs : List Char) (t : Tree Rule) : Prop :=
  ∃ span sign span', t = .node .expression span
    [.node (.before .neg) sign [], .leaf .integer span' cs]

theorem yields_negative {cs : List Char} {n : Nat} (h : IntegerText cs n) :
    Yields expr ('-' :: cs) (IsNegative cs) where
  starts more := begins_cons List.mem_cons_self _
  reads pos rest hrest := by
    have hminus : (⟨pos, '-' :: cs ++ rest⟩ : Cursor).take? ['-'] =
        some ⟨pos + 1, cs ++ rest⟩ := take?_append pos ['-'] _
    have hbegins := integer_starts h rest
    have hsolid : expression.skipBlanks ⟨pos + 1, cs ++ rest⟩ = ⟨pos + 1, cs ++ rest⟩ :=
      skipBlanks_of_solid hbegins (by decide)
    have hstart : Begins [⟨['-'], false⟩] ('-' :: cs ++ rest) :=
      begins_cons (List.mem_singleton_self _) _
    have hsign : Reads expression false (.one (.rule (.before .neg))) ⟨pos, '-' :: cs ++ rest⟩
        (matched ⟨pos + 1, cs ++ rest⟩ [.node (.before .neg) ⟨pos, pos + 1⟩ []]) :=
      Reads.rule (r := Rule.before .neg) (.text hminus)
    have hprefix : Reads expression false (.one prefixPart) ⟨pos, '-' :: cs ++ rest⟩
        (matched ⟨pos + 1, cs ++ rest⟩ [.node (.before .neg) ⟨pos, pos + 1⟩ []]) := by
      refine .choiceLater ?_ (.choiceLater ?_ (.choice hsign))
      · exact reads_failed_of_decides (by decide) hstart
          (skipBlanks_of_solid hstart (by decide))
      · exact reads_failed_of_decides (by decide) hstart
          (skipBlanks_of_solid hstart (by decide))
    have hnoMore : expression.decides operandStarts prefixPart .fails = true := by
      decide
    have hbefore : Reads expression false (.one (.many prefixPart)) ⟨pos, '-' :: cs ++ rest⟩
        (matched ⟨pos + 1, cs ++ rest⟩
          ([.node (.before .neg) ⟨pos, pos + 1⟩ []] ++ [])) := by
      refine .many hprefix (.moreEnds ?_)
      rw [gap, if_neg Bool.false_ne_true, hsolid]
      exact reads_failed_of_decides hnoMore hbegins hsolid
    have hdigits := reads_integer h (pos + 1) hrest
    exact ⟨_, _, reads_expression hbefore hsolid hdigits hrest, _, _, _, rfl⟩

end SafeExpr.Grammar
