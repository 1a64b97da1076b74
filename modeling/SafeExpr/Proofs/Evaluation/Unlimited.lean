/-
  SafeExpr/Proofs/Evaluation/Unlimited.lean
  =========================================
  **Evaluation where no limit is reached.**

  The limits are all by which an evaluation can tell where it takes place.  With room for the
  height of a tree, and any number of steps, a tree comes to the same wherever it stands: with
  the same result, and with the same visits and calls, which go behind those made before
  (`comesTo_expr`).
-/
import SafeExpr.Proofs.Evaluation.Relation

namespace SafeExpr.Eval

/-- From every trace on, the evaluation comes to `r`, visits `es`, and makes the calls `cs`. -/
def ComesTo {α : Type} (m : EvalM α) (r : Except EvalError α) (es : List Expr)
    (cs : List NativeCall) : Prop :=
  ∀ t, ∃ steps, outcome m t =
    (r, ⟨steps, es.reverse ++ t.visited, cs.reverse ++ t.calls⟩)

section ComesTo

variable {α β : Type}

theorem comesTo_pure (a : α) : ComesTo (pure a) (.ok a) [] [] := fun t => ⟨t.steps, rfl⟩

theorem comesTo_throw (err : EvalError) : ComesTo (throw err : EvalM α) (.error err) [] [] :=
  fun t => ⟨t.steps, rfl⟩

theorem ComesTo.bind_ok {m : EvalM α} {k : α → EvalM β} {a : α} {r : Except EvalError β}
    {es es' : List Expr} {cs cs' : List NativeCall} (hm : ComesTo m (.ok a) es cs)
    (hk : ComesTo (k a) r es' cs') : ComesTo (m >>= k) r (es ++ es') (cs ++ cs') := by
  intro t
  obtain ⟨n, hout⟩ := hm t
  obtain ⟨n', hout'⟩ := hk ⟨n, es.reverse ++ t.visited, cs.reverse ++ t.calls⟩
  refine ⟨n', ?_⟩
  rw [outcome_bind_ok hout, hout', List.reverse_append, List.reverse_append, List.append_assoc,
    List.append_assoc]

theorem ComesTo.bind_error {m : EvalM α} {k : α → EvalM β} {err : EvalError} {es : List Expr}
    {cs : List NativeCall} (hm : ComesTo m (.error err) es cs) :
    ComesTo (m >>= k) (.error err) es cs := by
  intro t
  obtain ⟨n, hout⟩ := hm t
  exact ⟨n, outcome_bind_error hout⟩

/-- What two parts come to in sequence, whatever they visit and call. -/
theorem ComesTo.bind {m : EvalM α} {k : α → EvalM β} {r : Except EvalError α}
    {f : α → Except EvalError β} {es : List Expr} {cs : List NativeCall} (hm : ComesTo m r es cs)
    (hk : ∀ a, ∃ es cs, ComesTo (k a) (f a) es cs) :
    ∃ es cs, ComesTo (m >>= k) (r >>= f) es cs := by
  cases r with
  | error err => exact ⟨es, cs, hm.bind_error⟩
  | ok a =>
    obtain ⟨es', cs', hka⟩ := hk a
    exact ⟨es ++ es', cs ++ cs', hm.bind_ok hka⟩

theorem ComesTo.returns {m : EvalM α} {a : α} {es : List Expr} {cs : List NativeCall}
    (h : ComesTo m (.ok a) es cs) : Returns m a := by
  obtain ⟨n, hout⟩ := h {}
  exact ⟨_, _, hout⟩

theorem evaluate_of_comesTo {ns : Namespace} {vars : Variables} {o : EvalOptions} {e : Expr}
    {r : Except EvalError Value} {es : List Expr} {cs : List NativeCall}
    (h : ComesTo (expr ⟨ns, vars, o⟩ 0 e) r es cs) : evaluate e ns vars o = ⟨r, cs, es⟩ := by
  obtain ⟨n, hout⟩ := h {}
  rw [outcome_evaluate, hout]
  simp

/-- An evaluation that leaves every trace as it is, with one result. -/
theorem comesTo_of_outcome {m : EvalM α} {r : Except EvalError α}
    (h : ∀ t, outcome m t = (r, t)) : ComesTo m r [] [] := fun t => ⟨t.steps, h t⟩

end ComesTo

/-! ### The same from everywhere -/

/-- Two evaluations that come to the same, from whatever traces. -/
def GiveSame : Relation := fun _ _ m m' => ∃ r es cs, ComesTo m r es cs ∧ ComesTo m' r es cs

theorem giveSame_lawful : Lawful GiveSame where
  pure a := ⟨.ok a, [], [], comesTo_pure a, comesTo_pure a⟩
  bind := by
    rintro α β l l' m m' k k' ⟨r, es, cs, hm, hm'⟩ hk
    cases r with
    | error err => exact ⟨.error err, es, cs, hm.bind_error, hm'.bind_error⟩
    | ok a =>
      obtain ⟨r, es', cs', hka, hka'⟩ := hk a hm'.returns
      exact ⟨r, es ++ es', cs ++ cs', hm.bind_ok hka, hm'.bind_ok hka'⟩
  weaken _ h := h

theorem giveSame_of_outcome {α : Type} {m : EvalM α} {r : Except EvalError α}
    (h : ∀ t, outcome m t = (r, t)) : GiveSame [] m m :=
  ⟨r, [], [], comesTo_of_outcome h, comesTo_of_outcome h⟩

variable {sc : Scope}

theorem giveSame_resolve (n : String) (span : Span) :
    GiveSame [] (resolve sc n span) (resolve sc n span) := by
  unfold resolve
  split
  all_goals exact giveSame_of_outcome fun _ => rfl

theorem giveSame_resolveFunction (n : String) (span : Span) :
    GiveSame [] (resolveFunction sc n span) (resolveFunction sc n span) := by
  unfold resolveFunction
  split
  all_goals exact giveSame_of_outcome fun _ => rfl

theorem giveSame_invoke (span : Span) (n : String) (f : NativeFunction) (ps : List Value)
    (ks : List (String × Value)) (is : List Value) :
    GiveSame [] (invoke span n f ps ks is) (invoke span n f ps ks is) := by
  unfold invoke
  cases f.signature.bind ps ks is with
  | error x => exact giveSame_of_outcome fun _ => rfl
  | ok args =>
    have hcall : ∀ r : Except EvalError Value, ∀ k : EvalM Value, (∀ t, outcome k t = (r, t)) →
        ComesTo ((modify fun t => { t with calls := ⟨f, args⟩ :: t.calls }) >>= fun _ => k) r []
          [⟨f, args⟩] := by
      intro r k hk t
      refine ⟨t.steps, ?_⟩
      rw [outcome_bind_ok (outcome_modify _ t), hk]
      rfl
    cases hrun : f.run args with
    | error x =>
      have h := hcall (.error ⟨.backend n x, span⟩) (fail span (.backend n x)) fun _ => rfl
      simp only [hrun]
      exact ⟨_, _, _, h, h⟩
    | ok v =>
      have h := hcall (.ok v) (pure v) fun _ => rfl
      simp only [hrun]
      exact ⟨_, _, _, h, h⟩

/-- Where there is room, a visit leaves its mark and nothing else. -/
theorem comesTo_enter {depth : Nat} {e : Expr} (hsteps : sc.options.maxSteps = none)
    (hdepth : depth < sc.options.maxDepth) : ComesTo (enter sc depth e) (.ok ()) [e] [] := by
  intro t
  refine ⟨t.steps + 1, ?_⟩
  rw [outcome_enter, if_neg (by omega), hsteps]
  rfl

/-- A whole evaluation is the visit of the node and what comes behind it. -/
theorem evaluate_of_body {ns : Namespace} {vars : Variables} {o : EvalOptions} {e : Expr}
    {body : EvalM Value} {r : Except EvalError Value} {es : List Expr} {cs : List NativeCall}
    (hbody : expr ⟨ns, vars, o⟩ 0 e = enter ⟨ns, vars, o⟩ 0 e >>= fun _ => body)
    (hsteps : o.maxSteps = none) (hdepth : 0 < o.maxDepth) (h : ComesTo body r es cs) :
    evaluate e ns vars o = ⟨r, cs, e :: es⟩ := by
  have henter : ComesTo (enter ⟨ns, vars, o⟩ 0 e) (.ok ()) [e] [] := comesTo_enter hsteps hdepth
  apply evaluate_of_comesTo
  rw [hbody]
  exact henter.bind_ok h

/-- **Without limits a tree comes to the same at every depth.** -/
theorem expr_giveSame (sc : Scope) (e : Expr) (depth depth' : Nat)
    (hsteps : sc.options.maxSteps = none) (hdepth : depth + e.depth ≤ sc.options.maxDepth)
    (hdepth' : depth' + e.depth ≤ sc.options.maxDepth) :
    GiveSame e.nodes (expr sc depth e) (expr sc depth' e) := by
  have hroom : ∀ {n : Expr} {d : Nat}, d + n.depth ≤ sc.options.maxDepth →
      ComesTo (enter sc d n) (.ok ()) [n] [] := by
    intro n d hd
    have := Expr.depth_eq n
    exact comesTo_enter hsteps (by omega)
  apply expr_related_shifted giveSame_lawful
  · intro n _ k hk
    exact ⟨_, _, _, hroom (by omega), hroom (by omega)⟩
  · intro n _ d hd
    exact {
      enter := ⟨_, _, _, hroom (by omega), hroom (by omega)⟩
      throws := fun _ _ _ => giveSame_of_outcome fun _ => rfl
      name := fun _ _ _ => giveSame_resolve _ _
      function := fun _ _ _ _ _ _ => giveSame_resolveFunction _ _
      implied := fun _ _ _ _ _ _ _ => giveSame_resolve _ _
      invoke := fun _ _ _ _ _ _ _ _ _ _ => giveSame_invoke _ _ _ _ _ _ }

/-- **Without limits a tree comes, wherever it stands, to what it comes to by itself.** -/
theorem comesTo_expr {ns : Namespace} {vars : Variables} {o : EvalOptions} {e : Expr} {depth : Nat}
    (hsteps : o.maxSteps = none) (hdepth : depth + e.depth ≤ o.maxDepth) :
    ComesTo (expr ⟨ns, vars, o⟩ depth e) (evaluate e ns vars o).result
      (evaluate e ns vars o).visited (evaluate e ns vars o).calls := by
  obtain ⟨r, es, cs, h, hself⟩ :=
    expr_giveSame ⟨ns, vars, o⟩ e depth 0 hsteps hdepth (Nat.le_trans (by omega) hdepth)
  rw [evaluate_of_comesTo hself]
  exact h

end SafeExpr.Eval
