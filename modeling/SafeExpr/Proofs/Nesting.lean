/-
  SafeExpr/Proofs/Nesting.lean
  ============================
  **The check of the brackets measures how deep they nest.**

  The check runs before the grammar and looks at characters alone.  For every text that
  the grammar then reads as an expression or an assignment, the most brackets that it has
  found open at once are the most nodes in brackets that stand one in another
  (`brackets_measured`).  Brackets in quoted text and in comments do not count, and a text
  is refused only if its brackets nest beyond the limit.  A statement is not read beyond
  its first word, so nothing is said of the brackets behind it.
-/
import Mathlib.Order.Bounds.Defs
import SafeExpr.Proofs.Parse.Limit
import SafeExpr.Proofs.Parse.Scan

namespace SafeExpr

open Grammar (Reads expression rulePattern isSolid)

/-- The text has been read as an expression or an assignment. -/
def Tree.IsExpression (tree : Tree Rule) : Prop :=
  ∃ t ∈ tree.children, t.rule = .expression ∨ t.rule = .assignment

/-! ### Whole texts -/

namespace Grammar

open Outcome (matched)

variable {c d : Cursor} {ts us : List (Tree Rule)}

/-- The one node that a rule leaves. -/
theorem node_of_reads {r : Rule} (hr : isSolid r = false)
    (h : Reads expression false (.one (.rule r)) c (matched d us)) :
    ∃ ts, us = [.node r ⟨c.pos, d.pos⟩ ts] ∧
      Reads expression false (.one (rulePattern r)) c (matched d ts) := by
  have htoken : expression.isToken r = false := hr
  obtain ⟨ts, rfl, hinner⟩ := h.of_rule
  rw [htoken] at hinner
  exact ⟨ts, by simp [leaves, htoken], hinner⟩

/-- Where the whole text is no statement, the scan lists the nodes in brackets. -/
theorem openings_of_reads {cs : List Char}
    (h : Reads expression false (.one (rulePattern .source)) (.start cs) (matched d ts))
    (hbody : ∃ t ∈ ts, t.rule = .expression ∨ t.rule = .assignment) :
    openings .code 0 0 cs = Tree.bracketsAll 0 ts := by
  cases h with
  | @seq _ _ _ _ d' _ ts' ws hbefore hend =>
    cases hbefore with
    | @seq _ _ _ _ c' _ us vs hempty hinner =>
      have hparts : Reads expression false (.one (.rule .assignment ||| expr))
          (expression.gap false c') (matched d' vs) := by
        cases hinner with
        | choice hstatement =>
          obtain ⟨_, rfl, -⟩ := node_of_reads rfl hstatement
          obtain ⟨_, rfl, -⟩ := node_of_reads rfl hend
          cases hempty
          simp [Tree.rule] at hbody
        | choiceLater _ hparts => exact hparts
      have hwhole : Reads expression false
          (.one (.text [] ++ (.rule .assignment ||| expr) ++ .rule .endOfInput)) (.start cs)
          (matched d (us ++ vs ++ ws)) := .seq (.seq hempty hparts) hend
      have hscan := scans_of_reads hwhole _ _ .keeps rfl (by decide) 0
      have hlast : d.rest = [] := by
        cases hend with
        | rule hend =>
          cases hend with
          | endOfText hend => exact List.isEmpty_iff.mp hend
      have hall : openings .code 0 0 cs =
          Tree.bracketsAll 0 (us ++ vs ++ ws) ++ openings .code 0 d.pos d.rest := hscan
      rwa [hlast, openings_nil, List.append_nil] at hall

end Grammar

theorem openings_of_match {cs : List Char} {tree : Tree Rule} (h : matchSource cs = .ok tree)
    (hbody : tree.IsExpression) :
    tree.rule = .source ∧ openings .code 0 0 cs = tree.brackets 0 := by
  have hread := Grammar.reads_readSource cs
  unfold matchSource at h
  rcases hrun : Grammar.readSource cs with ⟨o, trail⟩
  rw [hrun] at h hread
  split at h
  · next d tree' more trail' heq =>
    cases h
    cases heq
    obtain ⟨ts, heq, hsource⟩ := Grammar.node_of_reads rfl hread
    cases heq
    exact ⟨rfl, Grammar.openings_of_reads hsource hbody⟩
  · cases h
  · cases h

/-! ### How deep the brackets nest -/

/-- **The check of the brackets measures how deep they nest.**  Where a text is read as an
expression or an assignment, the brackets that are counted are those of the nodes in brackets,
one for each and no others; the most that are open at once are the most such nodes on a path of
the tree, and a limit refuses the text just if more of them than that stand on some path. -/
theorem brackets_measured {source : String} {tree : Tree Rule}
    (hmatch : matchSource source.toList = .ok tree) (hbody : tree.IsExpression) :
    openings .code 0 0 source.toList = tree.brackets 0 ∧
    IsGreatest {n | tree.Nests n} (bracketDepth source.toList) ∧
    ∀ maxDepth, (∃ err, checkBrackets maxDepth source.toList = .error err) ↔
      ∃ n, tree.Nests n ∧ maxDepth < n := by
  obtain ⟨hsource, hopenings⟩ := openings_of_match hmatch hbody
  have hgreatest : IsGreatest {n | tree.Nests n} (bracketDepth source.toList) := by
    rw [bracketDepth, hopenings]
    constructor
    · rcases foldr_max_mem ((tree.brackets 0).map Prod.snd) with hnone | hsome
      · -- without any brackets the path to the root alone is one of the deepest
        rw [hnone]
        have hself := tree.nests_self
        rwa [Tree.ownBracket, hsource] at hself
      · obtain ⟨o, ho, heq⟩ := List.mem_map.mp hsome
        obtain ⟨n, hn, hdepth⟩ := Tree.nests_of_mem_brackets tree ho
        rw [← heq, hdepth, Nat.zero_add]
        exact hn
    · intro n hn
      rcases Nat.eq_zero_or_pos n with rfl | hpos
      · exact Nat.zero_le _
      · obtain ⟨pos, hmem⟩ := Tree.mem_brackets_of_nests tree 0 hn hpos
        rw [Nat.zero_add] at hmem
        exact foldr_max_le_iff.mp (Nat.le_refl _) n (List.mem_map_of_mem (f := Prod.snd) hmem)
  refine ⟨hopenings, hgreatest, fun maxDepth => ?_⟩
  rw [checkBrackets_error_iff]
  constructor
  · exact fun h => ⟨_, hgreatest.1, h⟩
  · rintro ⟨n, hn, hlt⟩
    exact Nat.lt_of_lt_of_le hlt (hgreatest.2 hn)

/-- Brackets in a quoted text and in a comment. -/
theorem brackets_measured_hidden :
    let source := "f([\"(([\"], # ((\n x[0])"
    ∃ tree, matchSource source.toList = .ok tree ∧ tree.IsExpression ∧
      IsGreatest {n | tree.Nests n} 2 ∧
      ∃ err, checkBrackets 1 source.toList = .error err := by
  intro source
  have hread : (matchSource source.toList).toOption.any (fun tree =>
      tree.children.any fun t => t.rule = .expression || t.rule = .assignment) = true := by
    decide +kernel
  obtain ⟨tree, htree, hany⟩ := (Option.any_eq_true _ _).mp hread
  rw [Except.toOption_eq_some_iff] at htree
  have hbody : tree.IsExpression := by simpa [Tree.IsExpression] using hany
  have hdepth : bracketDepth source.toList = 2 := by decide
  obtain ⟨-, hgreatest, hrefused⟩ := brackets_measured htree hbody
  rw [hdepth] at hgreatest
  exact ⟨tree, htree, hbody, hgreatest, (hrefused 1).mpr ⟨2, hgreatest.1, by decide⟩⟩

end SafeExpr
