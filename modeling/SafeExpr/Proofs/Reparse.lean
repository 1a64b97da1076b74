/-
  SafeExpr/Proofs/Reparse.lean
  ============================
  **Parsing undoes rendering.**

  The text of a parsed tree is parsed as the same tree again, but for spans and grouping
  parentheses, if the tree has no literals of text and no fractions.  Rendering puts
  parentheses of its own around every operator, so the text may nest deeper than the source
  did, and the limit must allow for that.
-/
import SafeExpr.Proofs.Parse.Fits
import SafeExpr.Proofs.Parse.Limit
import SafeExpr.Proofs.Parse.ReadBack

namespace SafeExpr

/-- What is read as a tree is parsed as it within every large enough limit. -/
theorem ReadsAs.parses {e : Expr} {text : String} (h : ReadsAs e text.toList) :
    ∃ enough, ∀ maxDepth, enough ≤ maxDepth →
      ∃ e', parseWith maxDepth text = .ok e' ∧ e'.bare = e.bare := by
  obtain ⟨tree, e', hmatch, hbuild, hbare⟩ := h
  refine ⟨max (bracketDepth text.toList) (max (levels tree) e'.depth), ?_⟩
  intro maxDepth henough
  rw [Nat.max_le, Nat.max_le] at henough
  obtain ⟨hbrackets, hlevels, hdepth⟩ := henough
  exact ⟨e', parseWith_ok_iff.mpr ⟨hbrackets, tree, hmatch, hlevels, hbuild, hdepth⟩, hbare⟩

/-- **Parsing undoes rendering.**  What is rendered of a parsed tree without literals of text
    and fractions is parsed as that tree, spans and parentheses aside, within every large
    enough limit. -/
theorem rendered_parses {maxDepth : Nat} {source : String} {e : Expr}
    (h : parseWith maxDepth source = .ok e) (hsimple : ∀ n ∈ e.nodes, n.isSimple = true) :
    ∃ enough, ∀ maxDepth', enough ≤ maxDepth' →
      ∃ e', parseWith maxDepth' e.render = .ok e' ∧ e'.bare = e.bare := by
  obtain ⟨hplace, hfits⟩ := parseWith_fits h
  have hreads := readsAs_of_fits hplace hfits hsimple
  rw [← String.toList_ofList (l := e.chars)] at hreads
  exact hreads.parses

/-- A call with an unpacking and a keyword, in a condition, assigned to a name. -/
theorem rendered_parses_assignment :
    let source := "x += f(*a, k=b) if (b < 2) else -1"
    ∃ e, parseWith 8 source = .ok e ∧ (∀ n ∈ e.nodes, n.isSimple = true) ∧
      ∃ enough, ∀ maxDepth, enough ≤ maxDepth →
        ∃ e', parseWith maxDepth e.render = .ok e' ∧ e'.bare = e.bare := by
  intro source
  have hparse : (parseWith 8 source).toOption.any (fun e => e.nodes.all Expr.isSimple) = true := by
    decide +kernel
  obtain ⟨e, he, hall⟩ := (Option.any_eq_true _ _).mp hparse
  rw [Except.toOption_eq_some_iff] at he
  have hsimple := List.all_eq_true.mp hall
  exact ⟨e, he, hsimple, rendered_parses he hsimple⟩

end SafeExpr
