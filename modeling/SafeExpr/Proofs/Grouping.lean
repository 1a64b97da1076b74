/-
  SafeExpr/Proofs/Grouping.lean
  =============================
  **Parentheses and positions carry no meaning.**

  Two trees with the same bare tree differ in spans and in grouping parentheses only.  They
  are refused for the same reason or not at all, refer to the same names, and evaluate alike
  where no limit stops the evaluation.
-/
import SafeExpr.Proofs.Check.Ungrouped
import SafeExpr.Proofs.Evaluation.Budget
import SafeExpr.Proofs.Evaluation.Ungrouped

namespace SafeExpr

open Eval (kindOf)

/-- No limit stops the evaluation. -/
def Finishes (e : Expr) (ns : Namespace) (vars : Variables) (o : EvalOptions) : Prop :=
  ∀ err, (evaluate e ns vars o).result = .error err → err.kind.isBudget = false

variable {ns : Namespace} {vars : Variables}

/-- Limits as large as the tree stop nothing. -/
theorem finishes_of_size {e : Expr} {o : EvalOptions} (hdepth : e.depth ≤ o.maxDepth)
    (hsteps : ∀ limit ∈ o.maxSteps, e.nodes.length ≤ limit) : Finishes e ns vars o := by
  intro err herr
  cases hkind : err.kind with
  | stackOverflow depth limit =>
    exact absurd hkind (Eval.not_stackOverflow_of_depth_le hdepth herr depth limit)
  | stepLimit limit => exact absurd hkind (Eval.not_stepLimit_of_nodes_le hsteps herr limit)
  | _ => rfl

/-- With enough room a tree evaluates like its bare tree. -/
theorem evaluate_bare (ns : Namespace) (vars : Variables) {e : Expr} {o : EvalOptions}
    (hdepth : e.depth ≤ o.maxDepth) (hsteps : o.maxSteps = none) :
    kindOf (evaluate e.bare ns vars o).result = kindOf (evaluate e ns vars o).result ∧
      (evaluate e.bare ns vars o).calls = (evaluate e ns vars o).calls := by
  have hroom : 0 + e.depth ≤ o.maxDepth := by rwa [Nat.zero_add]
  obtain ⟨r, r', es, es', cs, h, h', hr⟩ :=
    Eval.expr_bare ⟨ns, vars, o⟩ e 0 0 hsteps hroom hroom
  rw [Eval.evaluate_of_comesTo h, Eval.evaluate_of_comesTo h']
  exact ⟨hr.symm, rfl⟩

/-- **Trees with the same bare tree evaluate alike** where no limit stops the evaluation. -/
theorem evaluate_alike {e e' : Expr} (h : e.bare = e'.bare) {o o' : EvalOptions}
    (hfinishes : Finishes e ns vars o) (hfinishes' : Finishes e' ns vars o') :
    kindOf (evaluate e ns vars o).result = kindOf (evaluate e' ns vars o').result ∧
      (evaluate e ns vars o).calls = (evaluate e' ns vars o').calls := by
  -- limits above both, and large enough for both trees
  let room : EvalOptions :=
    { maxDepth := max (max o.maxDepth o'.maxDepth) (max e.depth e'.depth), maxSteps := none }
  have hle : o ≤ room := ⟨by dsimp only [room]; omega, nofun⟩
  have hle' : o' ≤ room := ⟨by dsimp only [room]; omega, nofun⟩
  rw [← Eval.evaluate_mono hle hfinishes, ← Eval.evaluate_mono hle' hfinishes']
  have hdepth : e.depth ≤ room.maxDepth := by dsimp only [room]; omega
  have hdepth' : e'.depth ≤ room.maxDepth := by dsimp only [room]; omega
  obtain ⟨hresult, hcalls⟩ := evaluate_bare ns vars hdepth rfl
  obtain ⟨hresult', hcalls'⟩ := evaluate_bare ns vars hdepth' rfl
  rw [h] at hresult hcalls
  exact ⟨hresult.symm.trans hresult', hcalls.symm.trans hcalls'⟩

/-- **Parentheses and positions carry no meaning.**  Trees with the same bare tree are accepted
    or refused alike, refer to the same names in the same order, and evaluate to the same value
    or the same error, with the same native calls, where no limit stops them.  Limits as large
    as the tree stop nothing. -/
theorem grouping_is_meaningless {e e' : Expr} (h : e.bare = e'.bare) (ns : Namespace)
    (vars : Variables) :
    reasonOf e.validate = reasonOf e'.validate ∧
    reasonOf (e.checkCalls ns) = reasonOf (e'.checkCalls ns) ∧
    (e.nodes.filterMap Expr.nameOf?).eraseDups = (e'.nodes.filterMap Expr.nameOf?).eraseDups ∧
    e.references ns = e'.references ns ∧
    (∀ o : EvalOptions, e.depth ≤ o.maxDepth → (∀ limit ∈ o.maxSteps, e.nodes.length ≤ limit) →
      Finishes e ns vars o) ∧
    ∀ o o' : EvalOptions, Finishes e ns vars o → Finishes e' ns vars o' →
      kindOf (evaluate e ns vars o).result = kindOf (evaluate e' ns vars o').result ∧
        (evaluate e ns vars o).calls = (evaluate e' ns vars o').calls := by
  refine ⟨?_, ?_, ?_, ?_, fun o => finishes_of_size, fun o o' => evaluate_alike h⟩
  · rw [← e.validate_bare, h, e'.validate_bare]
  · rw [← e.checkCalls_bare ns, h, e'.checkCalls_bare ns]
  · rw [← e.names_bare, h, e'.names_bare]
  · rw [← e.references_bare ns, h, e'.references_bare ns]

/-- `(clamp)((7))` evaluates like `clamp(7)`. -/
theorem grouping_is_meaningless_clamp :
    let seven (s : Span) : Expr := .literal s (.int 7)
    let e : Expr := .call ⟨0, 12⟩ (.paren ⟨0, 7⟩ (.name ⟨1, 6⟩ "clamp"))
      [.positional (.paren ⟨8, 11⟩ (seven ⟨9, 10⟩))]
    let e' : Expr := .call ⟨0, 8⟩ (.name ⟨0, 5⟩ "clamp") [.positional (seven ⟨6, 7⟩)]
    let vars : Variables := ⟨[("low", .int 3)]⟩
    e.bare = e'.bare ∧ e.depth = 3 ∧
      (evaluate e' clampNamespace vars ⟨2, some 2⟩).result = .ok (.int 7) ∧
      kindOf (evaluate e clampNamespace vars ⟨3, none⟩).result = .ok (.int 7) := by
  intro seven e e' vars
  have hresult : (evaluate e' clampNamespace vars ⟨2, some 2⟩).result = .ok (.int 7) := by rfl
  have hbare : e.bare = e'.bare := by rfl
  have hdepth : e.depth = 3 := by rfl
  refine ⟨hbare, hdepth, hresult, ?_⟩
  obtain ⟨-, -, -, -, hsize, hsame⟩ := grouping_is_meaningless hbare clampNamespace vars
  have hfinishes' : Finishes e' clampNamespace vars ⟨2, some 2⟩ := by
    intro err herr
    rw [hresult] at herr
    cases herr
  have hfinishes : Finishes e clampNamespace vars ⟨3, none⟩ :=
    hsize ⟨3, none⟩ (Nat.le_of_eq hdepth) (by intro limit hlimit; cases hlimit)
  rw [(hsame _ _ hfinishes hfinishes').1, hresult]
  rfl

end SafeExpr
