/-
  SafeExpr/Proofs/Spans.lean
  ==========================
  **Spans are nested, and every report points into the text.**

  A refusal and a failed evaluation concern a node of the tree or one of its keyword
  arguments (`Marks`), and these all stand in the text that the tree was read from.
-/
import SafeExpr.Compiled
import SafeExpr.Proofs.Check.Introspection
import SafeExpr.Proofs.Evaluation.Failure
import SafeExpr.Proofs.Parse.Spans

namespace SafeExpr

/-- The span is that of a node of the tree or of a keyword argument in it. -/
def Expr.Marks (e : Expr) (s : Span) : Prop := ∃ n ∈ e.nodes, s = n.span ∨ s ∈ n.keywordSpans

namespace Expr

theorem Marks.node {e n : Expr} (hn : n ∈ e.nodes) : e.Marks n.span := ⟨n, hn, Or.inl rfl⟩

theorem Marks.of_mem {e n : Expr} {s : Span} (hn : n ∈ e.nodes) (h : n.Marks s) : e.Marks s := by
  obtain ⟨m, hm, hs⟩ := h
  exact ⟨m, mem_nodes_trans hn hm, hs⟩

theorem Marks.of_child {e c : Expr} {s : Span} (hc : c ∈ e.children) (h : c.Marks s) :
    e.Marks s :=
  h.of_mem (mem_nodes_of_child hc c.mem_nodes_self)

/-! ### Refusals -/

theorem firstFailure_eq_error {ε : Type} {checks : List (Except ε Unit)} {err : ε}
    (h : firstFailure checks = .error err) : .error err ∈ checks := by
  induction checks with
  | nil => cases h
  | cons check rest ih =>
    cases check with
    | error err' =>
      cases h
      exact List.mem_cons_self
    | ok u => exact List.mem_cons_of_mem _ (ih h)

theorem marks_of_validate {e : Expr} {r : Rejection} (h : e.validate = .error r) :
    e.Marks r.span := by
  induction e using Expr.induction generalizing r with
  | step e ih =>
    have hchild : .error r ∈ e.children.map (fold validateNode) → e.Marks r.span := by
      intro hr
      obtain ⟨c, hc, hfold⟩ := List.mem_map.mp hr
      exact (ih c hc hfold).of_child hc
    rw [validate, fold_eq] at h
    cases hf : e.forbidden? with
    | some construct =>
      simp only [validateNode, hf] at h
      cases h
      exact .node e.mem_nodes_self
    | none =>
      cases e with
      | call span callee args =>
        simp only [validateNode, hf, children, List.map_cons] at h hchild
        rcases List.mem_cons.mp (firstFailure_eq_error h) with hcallee | hlater
        · exact hchild (hcallee ▸ List.mem_cons_self)
        · rcases List.mem_cons.mp hlater with hnamed | hargs
          · split at hnamed
            · cases hnamed
            · cases hnamed
              exact (Marks.node callee.mem_nodes_self).of_child List.mem_cons_self
          · exact hchild (List.mem_cons_of_mem _ hargs)
      | _ =>
        simp only [validateNode, hf] at h
        exact hchild (firstFailure_eq_error h)

theorem marks_of_checkKeywords {f : String} {signature : Signature} {seen : List String}
    {args : List (Argument Expr)} {r : Rejection}
    (h : checkKeywords f signature seen args = .error r) :
    r.span ∈ args.filterMap Argument.span? := by
  induction args generalizing seen with
  | nil => cases h
  | cons arg rest ih =>
    cases arg with
    | positional v => exact ih h
    | keyword span name v =>
      simp only [checkKeywords] at h
      split at h
      · cases h
        exact List.mem_cons_self
      · split at h
        · cases h
          exact List.mem_cons_self
        · exact List.mem_cons_of_mem _ (ih h)

theorem marks_of_checkCalls {ns : Namespace} {e : Expr} {r : Rejection}
    (h : e.checkCalls ns = .error r) : e.Marks r.span := by
  obtain ⟨n, hn, hcheck⟩ := List.mem_map.mp (firstFailure_eq_error h)
  refine Marks.of_mem hn ?_
  unfold checkCall at hcheck
  split at hcheck
  · next span callee args =>
    split at hcheck
    · cases hcheck
    · split at hcheck
      · cases hcheck
        exact (Marks.node callee.mem_nodes_self).of_child List.mem_cons_self
      · cases hcheck
      · exact ⟨_, mem_nodes_self _, Or.inr (marks_of_checkKeywords hcheck)⟩
  · cases hcheck

/-! ### Failures -/

open Eval (Fails OwnError)

theorem marks_of_ownError {n : Expr} {err : EvalError} (h : OwnError n err) :
    n.Marks err.span := by
  have hoperator : ∀ span err, (EvalError.ofOperator span err).span = span := by
    intro span err
    cases err <;> rfl
  have hself : ∀ n : Expr, n.Marks n.span := fun n => .node n.mem_nodes_self
  cases h with
  | unary h =>
    rw [hoperator]
    exact hself _
  | binary h =>
    rw [hoperator]
    exact hself _
  | @compare span l links op e a b err hlink h =>
    rw [hoperator]
    have hchild : e ∈ (compare span l links).children :=
      List.mem_cons_of_mem l (List.mem_map_of_mem hlink)
    exact (hself e).of_child hchild
  | set h => exact hself _
  | dict h => exact hself _
  | @indirect span callee args h =>
    exact (Marks.node callee.peel_mem_nodes).of_child List.mem_cons_self
  | forbidden h => exact hself _

theorem marks_of_fails {sc : Scope} {depth : Nat} {t : Trace} {n : Expr} {err : EvalError}
    (h : Fails sc depth t n err) : n.Marks err.span := by
  have hself : ∀ n : Expr, n.Marks n.span := fun n => .node n.mem_nodes_self
  cases h with
  | overflow h => exact hself _
  | steps hlimit h => exact hself _
  | own h => exact marks_of_ownError h
  | name h => exact hself _
  | @callee span callee args name kind hn h =>
    exact (Marks.node callee.peel_mem_nodes).of_child List.mem_cons_self
  | implied hcall hi h =>
    cases hcall
    exact hself _
  | bind hcall hps hks his h =>
    cases hcall
    exact hself _
  | backend hcall h =>
    cases hcall
    exact hself _

end Expr

/-! ### Whole texts -/

/-- What stands in its place marks only places of the text. -/
theorem Expr.Marks.pointsInto {source : List Char} {e : Expr} {s : Span} (h : e.Marks s)
    (hplaced : ∀ n ∈ e.nodes, n.WellPlaced source) : s.PointsInto source := by
  obtain ⟨n, hn, hs⟩ := h
  rcases hs with rfl | hs
  · exact (hplaced n hn).span
  · exact (hplaced n hn).keywords s hs

theorem wellPlaced_of_parse {maxDepth : Nat} {source : String} {e : Expr}
    (h : parseWith maxDepth source = .ok e) : ∀ n ∈ e.nodes, n.WellPlaced source.toList := by
  obtain ⟨z, hrow⟩ := (parseWith_stands maxDepth source).of_ok h
  exact hrow.wellPlaced e (List.mem_singleton_self e)

/-- **Spans are nested and point into the text.**  In a parsed tree every node covers some
    text, its children stand within it and one behind the other.  Errors of parsing point into
    the text; refusals and errors of evaluation concern a node or a keyword argument, and so
    point into it, too. -/
theorem spans_placed (maxDepth : Nat) (source : String) :
    (∀ err, parseWith maxDepth source = .error err → err.span.PointsInto source.toList) ∧
    ∀ e, parseWith maxDepth source = .ok e →
      (∀ n ∈ e.nodes, n.WellPlaced source.toList) ∧
      (∀ s, e.Marks s → s.PointsInto source.toList) ∧
      (∀ r, e.validate = .error r → e.Marks r.span) ∧
      ∀ ns, (∀ r, e.checkCalls ns = .error r → e.Marks r.span) ∧
        ∀ vars options err, (evaluate e ns vars options).result = .error err →
          e.Marks err.span := by
  refine ⟨fun err h => (parseWith_stands maxDepth source).of_error h, fun e h => ?_⟩
  have hplaced := wellPlaced_of_parse h
  refine ⟨hplaced, fun s hs => hs.pointsInto hplaced, fun r => Expr.marks_of_validate, ?_⟩
  intro ns
  refine ⟨fun r => Expr.marks_of_checkCalls, ?_⟩
  intro vars options err herr
  obtain ⟨n, hn, d, t, -, hfails⟩ := Eval.evaluate_fails herr
  exact (Expr.marks_of_fails hfails).of_mem hn

/-- A call with a keyword argument, behind a character of two bytes, and no such function. -/
theorem spans_placed_call :
    let source := "f('é', k=-x)"
    ∃ e r, parseWith 4 source = .ok e ∧ e.checkCalls clampNamespace = .error r ∧
      (∀ n ∈ e.nodes, n.WellPlaced source.toList) ∧ r.span.PointsInto source.toList := by
  intro source
  have hrefused : (parseWith 4 source).toOption.any (fun e =>
      (e.checkCalls clampNamespace).toOption.isNone) = true := by decide +kernel
  obtain ⟨e, he, hnone⟩ := (Option.any_eq_true _ _).mp hrefused
  rw [Except.toOption_eq_some_iff] at he
  obtain ⟨hplaced, hmarks, -, hlater⟩ := (spans_placed 4 source).2 e he
  cases hr : e.checkCalls clampNamespace with
  | ok u =>
    rw [hr] at hnone
    cases hnone
  | error r => exact ⟨e, r, he, hr, hplaced, hmarks _ ((hlater clampNamespace).1 r hr)⟩

end SafeExpr
