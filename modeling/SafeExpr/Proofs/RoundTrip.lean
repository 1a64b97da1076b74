/-
  SafeExpr/Proofs/RoundTrip.lean
  ==============================
  **Rendered values evaluate to themselves.**

  The text of a writable value is one expression and nothing else, so it passes every stage
  from its characters to the evaluation, against any namespace and without variables.
-/
import SafeExpr.Proofs.Depth
import SafeExpr.Proofs.Parse.Spans
import SafeExpr.Proofs.Parse.Spelled

namespace SafeExpr

open Grammar (Reads Yields expression followers valueStarts)
open Outcome (matched failed)

/-! ### A whole text -/

/-- A text that is one expression, and no statement, is read as such, and the input ends behind
    it. -/
theorem matchSource_of_expression {cs : List Char} {pos : Nat} {t : Tree Rule}
    (hskip : expression.skipBlanks ⟨0, cs⟩ = ⟨0, cs⟩)
    (hstatement : Reads expression false (.one (.rule .statement)) ⟨0, cs⟩ failed)
    (ht : Reads expression false (.one Grammar.expr) ⟨0, cs⟩ (matched ⟨pos, []⟩ [t])) :
    ∃ span span', matchSource cs = .ok (.node .source span [t, .node .endOfInput span' []]) := by
  have hend : Begins followers [] := ⟨⟨[], true⟩, by decide, [], rfl, fun _ => rfl⟩
  have hgap : expression.gap false ⟨pos, []⟩ = ⟨pos, []⟩ :=
    Grammar.gap_of_solid hend (by decide) false pos
  have hempty : Reads expression false (.one (.text [])) ⟨0, cs⟩ (matched ⟨0, cs⟩ []) :=
    .text (Grammar.take?_nil _)
  have hassignOp : Reads expression false (.one (.rule .assignOp)) ⟨pos, []⟩ failed :=
    Grammar.fails_at_followers hend (by decide) false pos
  have hassignment : Reads expression false (.one (.rule .assignment)) ⟨0, cs⟩ failed :=
    .ruleFails (.seqFails (ht.andThenFails hgap hassignOp))
  have hexpr : Reads expression false (.one (Pattern.oneOf [.rule .statement, .rule .assignment,
      Grammar.expr])) ⟨0, cs⟩ (matched ⟨pos, []⟩ [t]) :=
    .choiceLater hstatement (.choiceLater hassignment ht)
  have hinput : Reads expression false (.one (.rule .endOfInput)) ⟨pos, []⟩
      (matched ⟨pos, []⟩ [.node .endOfInput ⟨pos, pos⟩ []]) :=
    Reads.rule (r := Rule.endOfInput) (.endOfText rfl)
  have hwhole := (hempty.andThen hskip hexpr).andThen hgap hinput
  exact ⟨_, _, Grammar.matchSource_eq_ok (.rule (r := Rule.source) hwhole)⟩

/-- A text that is one value is read as an expression behind which the input ends. -/
theorem matchSource_of_yields {cs : List Char} {P : Tree Rule → Prop}
    (h : Yields Grammar.expr cs P) :
    ∃ span t span', matchSource cs =
      .ok (.node .source span [t, .node .endOfInput span' []]) ∧ P t := by
  have hend : Begins followers [] := ⟨⟨[], true⟩, by decide, [], rfl, fun _ => rfl⟩
  have hbegins : Begins valueStarts cs := by
    have hstarts := h.starts []
    rwa [List.append_nil] at hstarts
  obtain ⟨pos, t, ht, hP⟩ := h.reads 0 hend
  rw [List.append_nil] at ht
  have hskip : expression.skipBlanks ⟨0, cs⟩ = ⟨0, cs⟩ :=
    Grammar.skipBlanks_of_solid hbegins (by decide)
  have hstatement : Reads expression false (.one (.rule .statement)) ⟨0, cs⟩ failed :=
    Grammar.reads_failed_of_decides (by decide) hbegins hskip
  obtain ⟨span, span', hmatch⟩ := matchSource_of_expression hskip hstatement ht
  exact ⟨span, t, span', hmatch, hP⟩

/-! ### From the text to its tree -/

/-- A text that is matched as one expression, within the limits, is parsed as what is built from
    its node. -/
theorem parseWith_of_match {text : String} {k maxDepth : Nat} {span inner span' : Span}
    {parts : List (Tree Rule)}
    (hmatch : matchSource text.toList =
      .ok (.node .source span [.node .expression inner parts, .node .endOfInput span' []]))
    (hbalanced : Balanced k text.toList) (hroom : k ≤ maxDepth)
    (hlevels : levels (.node .expression inner parts) ≤ maxDepth) :
    parseWith maxDepth text = Build.expr (.node .expression inner parts) := by
  have hbrackets := checkBrackets_of_balanced hbalanced hroom
  have hoperators : checkOperators maxDepth 0
      (.node .source span [.node .expression inner parts, .node .endOfInput span' []]) =
        .ok () := by
    rw [checkOperators_ok_iff]
    simpa [levels, levelsAll, ownLevels] using hlevels
  have hsome : 1 ≤ maxDepth := by
    refine Nat.le_trans ?_ hlevels
    rw [levels, ownLevels]
    omega
  rw [parseWith_eq_unmeasured hsome]
  simp only [parseUnmeasured, bind, hbrackets, hmatch, Except.bind, hoperators, Build.source]

/-- A text that is one value, within the limits, is parsed as what is built from its node. -/
theorem parseWith_of_yields {text : String} {P : Tree Rule → Prop} {k maxDepth : Nat}
    (hyields : Yields Grammar.expr text.toList P) (hbalanced : Balanced k text.toList)
    (hroom : k ≤ maxDepth) (hexpression : ∀ t, P t → ∃ span parts, t = .node .expression span parts)
    (hlevels : ∀ t, P t → levels t ≤ maxDepth) :
    ∃ span t more z, P t ∧ Grammar.Laid text.toList 0 z [.node .source span (t :: more)] ∧
      parseWith maxDepth text = Build.expr t := by
  obtain ⟨span, t, span', hmatch, hP⟩ := matchSource_of_yields hyields
  obtain ⟨z, hlaid⟩ := laid_of_matchSource hmatch
  have hlevels := hlevels t hP
  obtain ⟨inner, parts, rfl⟩ := hexpression t hP
  exact ⟨span, _, _, z, hP, hlaid, parseWith_of_match hmatch hbalanced hroom hlevels⟩

/-- A text that is matched as one token is parsed as its literal, which covers all of it. -/
theorem parseWith_of_token {text : String} {r : Rule} {maxDepth : Nat}
    {span inner s span' : Span}
    (hmatch : matchSource text.toList = .ok (.node .source span
      [.node .expression inner [.leaf r s text.toList], .node .endOfInput span' []]))
    (hbalanced : Balanced 0 text.toList) (hplain : r.isOperator = false)
    (hown : ownLevels r [] = 0) (hroom : 1 ≤ maxDepth) :
    parseWith maxDepth text = Build.literal r ⟨0, byteLength text.toList⟩ text.toList := by
  obtain ⟨z, hlaid⟩ := laid_of_matchSource hmatch
  have hlevels : levels (.node .expression inner [.leaf r s text.toList]) ≤ maxDepth := by
    rw [levels, levelsAll, levels, levelsAll, hown]
    simpa [ownLevels, Tree.rule, hplain] using hroom
  obtain ⟨-, hbelow, -⟩ := hlaid.of_node
  obtain ⟨-, hleaf, -⟩ := hbelow.of_node
  obtain ⟨before, behind, htext, rfl⟩ := hleaf.of_leaf
  have hlength := congrArg List.length htext
  rw [List.length_append, List.length_append] at hlength
  have hbefore : before = [] := List.length_eq_zero_iff.mp (by omega)
  rw [parseWith_of_match hmatch hbalanced (Nat.zero_le maxDepth) hlevels, expr_leaf hplain, hbefore,
    byteLength_nil, Nat.zero_add]

/-- A text that is one token is parsed as its literal, which covers all of it. -/
theorem parseWith_of_leaf {text : String} {r : Rule} {maxDepth : Nat}
    (hyields : Yields Grammar.expr text.toList (Grammar.IsLeaf r text.toList))
    (hbalanced : Balanced 0 text.toList) (hplain : r.isOperator = false)
    (hown : ownLevels r [] = 0) (hroom : 1 ≤ maxDepth) :
    parseWith maxDepth text = Build.literal r ⟨0, byteLength text.toList⟩ text.toList := by
  obtain ⟨span, t, span', hmatch, inner, s, rfl⟩ := matchSource_of_yields hyields
  exact parseWith_of_token hmatch hbalanced hplain hown hroom

theorem parseWith_of_denotes {text : String} {v : Value} {maxDepth : Nat}
    (hyields : Yields Grammar.expr text.toList (Denotes v))
    (hbalanced : Balanced v.levels text.toList) (hroom : v.levels ≤ maxDepth) :
    ∃ e, parseWith maxDepth text = .ok e ∧ Eval.Spells e v := by
  have hlevels : ∀ t, Denotes v t → levels t ≤ maxDepth := by
    intro t ht
    have hroom' : 0 + v.levels ≤ maxDepth := by rwa [Nat.zero_add]
    simpa using (checkOperators_ok_iff t).mp (ht.levels hroom')
  obtain ⟨-, t, -, -, hdenotes, -, hparse⟩ :=
    parseWith_of_yields hyields hbalanced hroom (fun t ht => ht.expression) hlevels
  obtain ⟨e, hbuild, hspells⟩ := hdenotes.builds
  exact ⟨e, hparse.trans hbuild, hspells⟩

/-! ### From the tree to the value -/

/-- A tree that spells a value evaluates to it wherever the limits allow for its nodes. -/
theorem evaluate_of_spells {e : Expr} {v : Value} (h : Eval.Spells e v) (ns : Namespace)
    (vars : Variables) {o : EvalOptions} (hdepth : v.levels ≤ o.maxDepth)
    (hsteps : ∀ limit ∈ o.maxSteps, e.nodes.length ≤ limit) :
    (evaluate e ns vars o).result = .ok v := by
  have hheight : e.depth ≤ o.maxDepth := Nat.le_trans h.height hdepth
  -- without a limit on steps first; a limit that is never reached changes nothing
  let o' : EvalOptions := { o with maxSteps := none }
  have hle : o ≤ o' := ⟨Nat.le_refl _, nofun⟩
  obtain ⟨t, ht⟩ := h.gives ⟨ns, vars, o'⟩ 0 rfl (by rw [Nat.zero_add]; exact hheight) {}
  have hfree : (evaluate e ns vars o').result = .ok v := by
    rw [Eval.outcome_evaluate, ht]
  rw [← hfree, Eval.result_mono hle]
  intro err herr
  cases hkind : err.kind with
  | stackOverflow depth limit =>
    exact absurd hkind (Eval.not_stackOverflow_of_depth_le hheight herr depth limit)
  | stepLimit limit => exact absurd hkind (Eval.not_stepLimit_of_nodes_le hsteps herr limit)
  | _ => rfl

/-- A text that denotes a value compiles against any namespace, and evaluates to the value
    whatever the variables, when the limits allow for its levels. -/
theorem evaluates_of_denotes {text : String} {v : Value}
    (hyields : Yields Grammar.expr text.toList (Denotes v))
    (hbalanced : Balanced v.levels text.toList) (ns : Namespace) {maxDepth : Nat}
    (hroom : v.levels ≤ maxDepth) :
    ∃ c, Compiled.compile text ns maxDepth = .ok c ∧
      ∀ (vars : Variables) (options : EvalOptions), v.levels ≤ options.maxDepth →
        (∀ limit ∈ options.maxSteps, c.expr.nodes.length ≤ limit) →
          (c.evaluate vars options).result = .ok v := by
  obtain ⟨e, hparse, hspells⟩ := parseWith_of_denotes hyields hbalanced hroom
  have hcompile := compile_of_stages hparse hspells.plain.validate (hspells.plain.checkCalls ns)
  refine ⟨_, hcompile, ?_⟩
  intro vars options hdepth hsteps
  exact evaluate_of_spells hspells ns vars hdepth hsteps

/-- **A rendered value evaluates to itself**, against any namespace and whatever the
    variables, when the limits allow for its levels. -/
theorem rendered_evaluates {v : Value} (h : v.Writable) (ns : Namespace) {maxDepth : Nat}
    (hroom : v.levels ≤ maxDepth) :
    ∃ c, Compiled.compile v.render ns maxDepth = .ok c ∧
      ∀ (vars : Variables) (options : EvalOptions), v.levels ≤ options.maxDepth →
        (∀ limit ∈ options.maxSteps, c.expr.nodes.length ≤ limit) →
          (c.evaluate vars options).result = .ok v :=
  evaluates_of_denotes (yields_spelling h) (balanced_spelling h) ns hroom

theorem rendered_evaluates_nested :
    let v : Value := .dict [(.str "it's", .tuple [.int (-5)]), (.tuple [], .set [.none, .bool true])]
    v.render = "\x7b\"it's\": (-5,), (): \x7bNone, True\x7d\x7d" ∧ v.levels = 4 ∧
      ∃ c, Compiled.compile v.render clampNamespace 4 = .ok c ∧
        (c.evaluate {} { maxDepth := 4, maxSteps := none }).result = .ok v := by
  intro v
  have hwritable : v.Writable := by
    refine .dict ?_ ?_ (by decide) (by decide +kernel)
    · simp only [List.forall_mem_cons, List.not_mem_nil, false_implies, implies_true, and_true]
      exact ⟨.str _, .tuple nofun⟩
    · simp only [List.forall_mem_cons, List.not_mem_nil, false_implies, implies_true, and_true]
      refine ⟨.tuple ?_, .set nofun ?_ (by decide) (by decide +kernel)⟩
      · simp only [List.forall_mem_cons, List.not_mem_nil, false_implies, implies_true, and_true]
        exact .int (by decide)
      · simp only [List.forall_mem_cons, List.not_mem_nil, false_implies, implies_true, and_true]
        exact ⟨.none, .bool true⟩
  have hlevels : v.levels = 4 := by rfl
  obtain ⟨c, hc, hevaluates⟩ := rendered_evaluates hwritable clampNamespace (Nat.le_of_eq hlevels)
  exact ⟨by decide, hlevels, c, hc,
    hevaluates {} _ (Nat.le_of_eq hlevels) nofun⟩

end SafeExpr
