/-
  SafeExpr/Proofs/Evaluation/Outcome.lean
  =======================================
  **What an evaluation gives from a trace on.**

  An evaluation is a function from the trace so far to a value or an error and the trace
  after it.  `outcome` is this function, with one equation for each way in which
  evaluations are built.  `Returns m a` says that `m` gives the value `a` from some trace
  on; it is all that a later part of an evaluation may know about an earlier one.
-/
import SafeExpr.Evaluation.Eval

namespace SafeExpr.Eval

variable {α β : Type}

/-- The value or the error of an evaluation that goes on from a trace, and the trace after
    it. -/
def outcome (m : EvalM α) (t : Trace) : Except EvalError α × Trace := m.run.run t

@[simp] theorem outcome_pure (a : α) (t : Trace) : outcome (pure a) t = (.ok a, t) := rfl

@[simp] theorem outcome_throw (err : EvalError) (t : Trace) :
    outcome (throw err : EvalM α) t = (.error err, t) := rfl

@[simp] theorem outcome_modify (f : Trace → Trace) (t : Trace) :
    outcome (modify f) t = (.ok (), f t) := rfl

theorem outcome_bind (m : EvalM α) (k : α → EvalM β) (t : Trace) :
    outcome (m >>= k) t =
      match outcome m t with
      | (.ok a, t') => outcome (k a) t'
      | (.error err, t') => (.error err, t') := by
  simp only [outcome, ExceptT.run_bind, StateT.run_bind]
  change (match m.run.run t with | (r, t') => _) = _
  rcases m.run.run t with ⟨r, t'⟩
  cases r <;> rfl

theorem outcome_bind_ok {m : EvalM α} {k : α → EvalM β} {t t' : Trace} {a : α}
    (h : outcome m t = (.ok a, t')) : outcome (m >>= k) t = outcome (k a) t' := by
  rw [outcome_bind, h]

theorem outcome_bind_error {m : EvalM α} {k : α → EvalM β} {t t' : Trace} {err : EvalError}
    (h : outcome m t = (.error err, t')) : outcome (m >>= k) t = (.error err, t') := by
  rw [outcome_bind, h]

/-- An evaluation of two parts gives a value when both do. -/
theorem outcome_bind_eq_ok {m : EvalM α} {k : α → EvalM β} {t t' : Trace} {b : β}
    (h : outcome (m >>= k) t = (.ok b, t')) :
    ∃ a u, outcome m t = (.ok a, u) ∧ outcome (k a) u = (.ok b, t') := by
  rw [outcome_bind] at h
  rcases hm : outcome m t with ⟨r, u⟩
  rw [hm] at h
  cases r with
  | error err => simp at h
  | ok a => exact ⟨a, u, rfl, h⟩

/-- An evaluation of two parts fails with one of them. -/
theorem outcome_bind_eq_error {m : EvalM α} {k : α → EvalM β} {t t' : Trace}
    {err : EvalError} (h : outcome (m >>= k) t = (.error err, t')) :
    outcome m t = (.error err, t') ∨
      ∃ a u, outcome m t = (.ok a, u) ∧ outcome (k a) u = (.error err, t') := by
  rw [outcome_bind] at h
  rcases hm : outcome m t with ⟨r, u⟩
  rw [hm] at h
  cases r with
  | error e =>
    simp only [Prod.mk.injEq, Except.error.injEq] at h
    exact Or.inl (by rw [h.1, h.2])
  | ok a => exact Or.inr ⟨a, u, rfl, h⟩

theorem outcome_evaluate (e : Expr) (ns : Namespace) (vars : Variables)
    (options : EvalOptions) :
    evaluate e ns vars options =
      ⟨(outcome (expr ⟨ns, vars, options⟩ 0 e) {}).1,
        (outcome (expr ⟨ns, vars, options⟩ 0 e) {}).2.calls.reverse,
        (outcome (expr ⟨ns, vars, options⟩ 0 e) {}).2.visited.reverse⟩ := rfl

/-! ### Visiting a node -/

/-- A node is visited if the limits allow it, and leaves its mark even when it is one step
    too many. -/
theorem outcome_enter (sc : Scope) (depth : Nat) (e : Expr) (t : Trace) :
    outcome (enter sc depth e) t =
      if sc.options.maxDepth ≤ depth then
        (.error ⟨.stackOverflow depth sc.options.maxDepth, e.span⟩, t)
      else
        let u : Trace := { t with steps := t.steps + 1, visited := e :: t.visited }
        match sc.options.maxSteps with
        | some limit =>
          if limit < t.steps + 1 then (.error ⟨.stepLimit limit, e.span⟩, u) else (.ok (), u)
        | none => (.ok (), u) := by
  unfold enter
  by_cases hd : sc.options.maxDepth ≤ depth
  · rw [if_pos hd, if_pos hd]
    rfl
  · rw [if_neg hd, if_neg hd]
    cases sc.options.maxSteps with
    | none => rfl
    | some limit =>
      by_cases hl : limit < t.steps + 1
      · simp only [if_pos hl]
        change outcome (if limit < t.steps + 1 then fail e.span (.stepLimit limit) else pure ())
          _ = _
        rw [if_pos hl]
        rfl
      · simp only [if_neg hl]
        change outcome (if limit < t.steps + 1 then fail e.span (.stepLimit limit) else pure ())
          _ = _
        rw [if_neg hl]
        rfl

/-! ### Values that are returned -/

/-- The evaluation gives the value from some trace on. -/
def Returns (m : EvalM α) (a : α) : Prop := ∃ t t', outcome m t = (.ok a, t')

theorem returns_pure {a b : α} (h : Returns (pure a) b) : b = a := by
  obtain ⟨t, t', h⟩ := h
  simp only [outcome_pure, Prod.mk.injEq, Except.ok.injEq] at h
  exact h.1.symm

theorem not_returns_throw {err : EvalError} {a : α} : ¬ Returns (throw err : EvalM α) a := by
  rintro ⟨t, t', h⟩
  simp at h

theorem returns_bind {m : EvalM α} {k : α → EvalM β} {b : β} (h : Returns (m >>= k) b) :
    ∃ a, Returns m a ∧ Returns (k a) b := by
  obtain ⟨t, t', h⟩ := h
  obtain ⟨a, u, hm, hk⟩ := outcome_bind_eq_ok h
  exact ⟨a, ⟨t, u, hm⟩, ⟨u, t', hk⟩⟩

/-- One value is returned for each name that is looked up. -/
theorem length_of_returns_resolveAll {sc : Scope} {span : Span} {names : List String}
    {vs : List Value} (h : Returns (resolveAll sc span names) vs) :
    vs.length = names.length := by
  induction names generalizing vs with
  | nil =>
    rw [returns_pure h]
    rfl
  | cons name rest ih =>
    obtain ⟨v, -, h⟩ := returns_bind h
    obtain ⟨ws, hws, h⟩ := returns_bind h
    rw [returns_pure h, List.length_cons, List.length_cons, ih hws]

/-- The function found under a name is the one that the namespace binds to it. -/
theorem function_of_returns_resolveFunction {sc : Scope} {name : String} {span : Span}
    {f : NativeFunction} (h : Returns (resolveFunction sc name span) f) :
    sc.namespaces.function? name = some f := by
  unfold resolveFunction at h
  unfold Namespace.function?
  split at h
  · exact absurd h not_returns_throw
  · next hns => rw [hns, returns_pure h]
  all_goals exact absurd h not_returns_throw

end SafeExpr.Eval
