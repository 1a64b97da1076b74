/-
  SafeExpr/Proofs/Evaluation/Budget.lean
  ======================================
  **Budgets only cut evaluations short.**

  Two evaluations of one tree under different limits go together until the one with the
  smaller limits stops (`Cuts`).  So a result within the smaller limits is the result within
  the larger ones, and the calls made are a prefix.

  Every node of the tree is visited at most once, and no deeper than the height of the tree
  (`Accounts` counts the visits).  Limits that allow for all nodes, and for the height, are
  therefore never reached.
-/
import Mathlib.Data.List.Infix
import SafeExpr.Proofs.Check.Checked

namespace SafeExpr

/-- Has the evaluation been stopped by a limit? -/
def EvalErrorKind.isBudget : EvalErrorKind → Bool
  | .stackOverflow .. | .stepLimit _ => true
  | _ => false

/-- The second limits allow for all that the first ones do. -/
instance : LE EvalOptions where
  le o o' := o.maxDepth ≤ o'.maxDepth ∧
    ∀ limit' ∈ o'.maxSteps, ∃ limit ∈ o.maxSteps, limit ≤ limit'

namespace Eval

/-! ### Visiting within limits -/

/-- May another node be visited at this depth? -/
def Allows (o : EvalOptions) (depth : Nat) (t : Trace) : Prop :=
  depth < o.maxDepth ∧ ∀ limit ∈ o.maxSteps, t.steps < limit

theorem Allows.mono {o o' : EvalOptions} {depth : Nat} {t : Trace} (h : Allows o depth t)
    (hle : o ≤ o') : Allows o' depth t := by
  obtain ⟨hdepth, hsteps⟩ := hle
  refine ⟨Nat.lt_of_lt_of_le h.1 hdepth, fun limit' hlimit' => ?_⟩
  obtain ⟨limit, hlimit, hle⟩ := hsteps limit' hlimit'
  exact Nat.lt_of_lt_of_le (h.2 limit hlimit) hle

theorem outcome_enter_of_allows {ns : Namespace} {vars : Variables} {o : EvalOptions}
    {depth : Nat} {e : Expr} {t : Trace} (h : Allows o depth t) :
    outcome (enter ⟨ns, vars, o⟩ depth e) t =
      (.ok (), { t with steps := t.steps + 1, visited := e :: t.visited }) := by
  obtain ⟨hdepth, hsteps⟩ := h
  rw [outcome_enter, if_neg (by dsimp only; omega)]
  dsimp only
  cases hs : o.maxSteps with
  | none => rfl
  | some limit =>
    have := hsteps limit hs
    dsimp only
    rw [if_neg (by omega)]

theorem outcome_enter_of_not_allows (ns : Namespace) (vars : Variables) {o : EvalOptions}
    {depth : Nat} (e : Expr) {t : Trace} (h : ¬ Allows o depth t) :
    ∃ err u, outcome (enter ⟨ns, vars, o⟩ depth e) t = (.error err, u) ∧
      err.kind.isBudget = true ∧ u.calls = t.calls := by
  rw [outcome_enter]
  dsimp only
  by_cases hdepth : o.maxDepth ≤ depth
  · rw [if_pos hdepth]
    exact ⟨_, _, rfl, rfl, rfl⟩
  · rw [if_neg hdepth]
    cases hs : o.maxSteps with
    | none => exact absurd ⟨by omega, by simp [hs]⟩ h
    | some limit =>
      dsimp only
      by_cases hover : limit < t.steps + 1
      · rw [if_pos hover]
        exact ⟨_, _, rfl, rfl, rfl⟩
      · refine absurd ⟨by omega, fun limit' hlimit' => ?_⟩ h
        rw [Option.mem_def, hs] at hlimit'
        cases hlimit'
        omega

theorem calls_enter (ns : Namespace) (vars : Variables) (o : EvalOptions) (depth : Nat)
    (e : Expr) (t : Trace) :
    (outcome (enter ⟨ns, vars, o⟩ depth e) t).2.calls = t.calls := by
  by_cases h : Allows o depth t
  · rw [outcome_enter_of_allows h]
  · obtain ⟨err, u, hout, -, hu⟩ := outcome_enter_of_not_allows ns vars e h
    rw [hout, hu]

/-! ### Going together -/

/-- The first evaluation has the outcome of the second one, or a limit stops it after some
    of the calls of the second one. -/
def Cuts : Relation := fun _ _ m m' => ∀ t,
  t.calls <:+ (outcome m' t).2.calls ∧
    (outcome m t = outcome m' t ∨
      ∃ err u, outcome m t = (.error err, u) ∧ err.kind.isBudget = true ∧
        u.calls <:+ (outcome m' t).2.calls)

/-- Calls are never taken back by what comes later. -/
theorem calls_suffix_bind {α β : Type} {m : EvalM α} {k : α → EvalM β} {t : Trace}
    (hk : ∀ a u, outcome m t = (.ok a, u) → u.calls <:+ (outcome (k a) u).2.calls) :
    (outcome m t).2.calls <:+ (outcome (m >>= k) t).2.calls := by
  rcases hm : outcome m t with ⟨r, u⟩
  cases r with
  | error err =>
    rw [outcome_bind_error hm]
  | ok a =>
    rw [outcome_bind_ok hm]
    exact hk a u hm

theorem cuts_lawful : Lawful Cuts where
  pure a t := ⟨List.suffix_refl _, Or.inl rfl⟩
  bind := by
    intro α β l l' m m' k k' hm hk t
    obtain ⟨hcalls, hm⟩ := hm t
    have hlater : (outcome m' t).2.calls <:+ (outcome (m' >>= k') t).2.calls :=
      calls_suffix_bind fun a u hout => (hk a ⟨t, u, hout⟩ u).1
    refine ⟨hcalls.trans hlater, ?_⟩
    rcases hm with hsame | ⟨err, u, hout, hbudget, hu⟩
    · rcases hout : outcome m' t with ⟨r, u⟩
      cases r with
      | error err =>
        left
        rw [outcome_bind_error hout, outcome_bind_error (hsame.trans hout)]
      | ok a =>
        rw [outcome_bind_ok hout, outcome_bind_ok (hsame.trans hout)]
        exact (hk a ⟨t, u, hout⟩ u).2
    · exact Or.inr ⟨err, u, outcome_bind_error hout, hbudget, hu.trans hlater⟩
  weaken _ h := h

/-- Looking a name up leaves the trace as it is. -/
theorem outcome_resolve_snd (sc : Scope) (n : String) (span : Span) (t : Trace) :
    (outcome (Eval.resolve sc n span) t).2 = t := by
  unfold Eval.resolve
  split <;> rfl

theorem outcome_resolveFunction_snd (sc : Scope) (n : String) (span : Span) (t : Trace) :
    (outcome (resolveFunction sc n span) t).2 = t := by
  unfold resolveFunction
  split <;> rfl

theorem cuts_resolve {ns : Namespace} {vars : Variables} {o o' : EvalOptions} {n : String}
    {span : Span} :
    Cuts [] (Eval.resolve ⟨ns, vars, o⟩ n span) (Eval.resolve ⟨ns, vars, o'⟩ n span) := by
  intro t
  refine ⟨?_, Or.inl rfl⟩
  rw [outcome_resolve_snd]

theorem cuts_resolveFunction {ns : Namespace} {vars : Variables} {o o' : EvalOptions}
    {n : String} {span : Span} :
    Cuts [] (resolveFunction ⟨ns, vars, o⟩ n span) (resolveFunction ⟨ns, vars, o'⟩ n span) := by
  intro t
  refine ⟨?_, Or.inl rfl⟩
  rw [outcome_resolveFunction_snd]

theorem calls_suffix_invoke (span : Span) (n : String) (f : NativeFunction)
    (ps : List Value) (ks : List (String × Value)) (is : List Value) (t : Trace) :
    t.calls <:+ (outcome (invoke span n f ps ks is) t).2.calls := by
  unfold invoke
  cases f.signature.bind ps ks is with
  | error x => exact List.suffix_refl _
  | ok args =>
    simp only [outcome_bind, outcome_modify]
    cases f.run args with
    | error x => exact List.suffix_cons _ _
    | ok v => exact List.suffix_cons _ _

theorem cuts_enter {ns : Namespace} {vars : Variables} {o o' : EvalOptions} (h : o ≤ o')
    (depth : Nat) (e : Expr) :
    Cuts [e] (enter ⟨ns, vars, o⟩ depth e) (enter ⟨ns, vars, o'⟩ depth e) := by
  intro t
  have hcalls : t.calls <:+ (outcome (enter ⟨ns, vars, o'⟩ depth e) t).2.calls := by
    rw [calls_enter]
  refine ⟨hcalls, ?_⟩
  by_cases ho : Allows o depth t
  · left
    rw [outcome_enter_of_allows ho, outcome_enter_of_allows (ho.mono h)]
  · right
    obtain ⟨err, u, hout, hbudget, hu⟩ := outcome_enter_of_not_allows ns vars e ho
    exact ⟨err, u, hout, hbudget, hu ▸ hcalls⟩

/-- **Two evaluations under different limits go together.** -/
theorem expr_cuts {ns : Namespace} {vars : Variables} {o o' : EvalOptions} (h : o ≤ o')
    (e : Expr) (depth : Nat) :
    Cuts e.nodes (expr ⟨ns, vars, o⟩ depth e) (expr ⟨ns, vars, o'⟩ depth e) := by
  apply expr_related cuts_lawful
  intro n _ d _
  exact {
    enter := cuts_enter h d n
    throws := fun _ _ _ _ => ⟨List.suffix_refl _, Or.inl rfl⟩
    name := fun _ _ _ => cuts_resolve
    function := fun _ _ _ _ _ _ => cuts_resolveFunction
    implied := fun _ _ _ _ _ _ _ => cuts_resolve
    invoke := fun span m f _ ps ks is _ _ _ t =>
      ⟨calls_suffix_invoke span m f ps ks is t, Or.inl rfl⟩ }

/-- An evaluation that no limit stops is the same within all larger limits. -/
theorem evaluate_mono {e : Expr} {ns : Namespace} {vars : Variables} {o o' : EvalOptions}
    (h : o ≤ o')
    (hwithin : ∀ err, (evaluate e ns vars o).result = .error err → err.kind.isBudget = false) :
    evaluate e ns vars o' = evaluate e ns vars o := by
  rw [outcome_evaluate] at hwithin
  rw [outcome_evaluate, outcome_evaluate]
  rcases (expr_cuts h e 0 {}).2 with hsame | ⟨err, u, hout, hbudget, -⟩
  · rw [hsame]
  · have hnot := hwithin err (by rw [hout])
    rw [hbudget] at hnot
    cases hnot

/-- **A result within the limits is the result within all larger ones.** -/
theorem result_mono {e : Expr} {ns : Namespace} {vars : Variables} {o o' : EvalOptions}
    (h : o ≤ o')
    (hwithin : ∀ err, (evaluate e ns vars o).result = .error err → err.kind.isBudget = false) :
    (evaluate e ns vars o').result = (evaluate e ns vars o).result :=
  congrArg Evaluated.result (evaluate_mono h hwithin)

/-- **The calls made within smaller limits come first within larger ones.** -/
theorem calls_prefix {e : Expr} {ns : Namespace} {vars : Variables} {o o' : EvalOptions}
    (h : o ≤ o') : (evaluate e ns vars o).calls <+: (evaluate e ns vars o').calls := by
  rw [outcome_evaluate, outcome_evaluate, List.reverse_prefix]
  rcases (expr_cuts h e 0 {}).2 with hsame | ⟨err, u, hout, -, hcalls⟩
  · rw [hsame]
  · rw [hout]
    exact hcalls

/-! ### Counting visits -/

/-- What the second evaluation visits is counted, and each node of the grade is visited at
    most once. -/
def Accounts : Relation := fun _ l _ m => ∀ t, ∃ l', l'.Subperm l ∧
  (outcome m t).2.visited = l' ++ t.visited ∧ (outcome m t).2.steps = t.steps + l'.length

theorem accounts_lawful : Lawful Accounts where
  pure _ _ := ⟨[], List.nil_subperm, rfl, rfl⟩
  bind := by
    intro α β l l' m m' k k' hm hk t
    obtain ⟨first, hfirst, hvisited, hsteps⟩ := hm t
    rcases hout : outcome m' t with ⟨r, u⟩
    rw [hout] at hvisited hsteps
    cases r with
    | error err =>
      rw [outcome_bind_error hout]
      exact ⟨first, hfirst.trans (List.sublist_append_left _ _).subperm, hvisited, hsteps⟩
    | ok a =>
      obtain ⟨second, hsecond, hvisited', hsteps'⟩ := hk a ⟨t, u, hout⟩ u
      rw [outcome_bind_ok hout]
      refine ⟨second ++ first, ?_, ?_, ?_⟩
      · exact List.perm_append_comm.subperm.trans (hfirst.append hsecond)
      · rw [hvisited', hvisited, List.append_assoc]
      · rw [hsteps', hsteps, List.length_append]
        omega
  weaken hle h t := by
    obtain ⟨l, hl, hrest⟩ := h t
    exact ⟨l, hl.trans hle, hrest⟩

/-- An evaluation that leaves the trace as it is visits nothing. -/
theorem accounts_of_trace {α : Type} {m m' : EvalM α}
    (h : ∀ t, (outcome m' t).2.visited = t.visited ∧ (outcome m' t).2.steps = t.steps) :
    Accounts [] m m' := fun t => ⟨[], List.nil_subperm, (h t).1, (h t).2⟩

theorem accounts_enter (sc : Scope) (depth : Nat) (e : Expr) :
    Accounts [e] (enter sc depth e) (enter sc depth e) := by
  intro t
  rw [outcome_enter]
  dsimp only
  split
  · exact ⟨[], List.nil_subperm, rfl, rfl⟩
  · refine ⟨[e], List.Subperm.refl _, ?_⟩
    split
    · split <;> exact ⟨rfl, rfl⟩
    · exact ⟨rfl, rfl⟩

theorem accounts_invoke (span : Span) (n : String) (f : NativeFunction) (ps : List Value)
    (ks : List (String × Value)) (is : List Value) :
    Accounts [] (invoke span n f ps ks is) (invoke span n f ps ks is) := by
  apply accounts_of_trace
  intro t
  unfold invoke
  cases f.signature.bind ps ks is with
  | error x => exact ⟨rfl, rfl⟩
  | ok args =>
    simp only [outcome_bind, outcome_modify]
    cases f.run args with
    | error x => exact ⟨rfl, rfl⟩
    | ok v => exact ⟨rfl, rfl⟩

/-- **Every node is visited at most once.** -/
theorem expr_accounts (sc : Scope) (e : Expr) (depth : Nat) :
    Accounts e.nodes (expr sc depth e) (expr sc depth e) := by
  apply expr_related accounts_lawful
  intro n _ d _
  exact {
    enter := accounts_enter sc d n
    throws := fun _ _ _ => accounts_of_trace fun _ => ⟨rfl, rfl⟩
    name := fun _ _ _ => accounts_of_trace fun _ => by simp [outcome_resolve_snd]
    function := fun _ _ _ _ _ _ =>
      accounts_of_trace fun _ => by simp [outcome_resolveFunction_snd]
    implied := fun _ _ _ _ _ _ _ => accounts_of_trace fun _ => by simp [outcome_resolve_snd]
    invoke := fun span m f _ ps ks is _ _ _ => accounts_invoke span m f ps ks is }

theorem visited_subperm (e : Expr) (ns : Namespace) (vars : Variables) (o : EvalOptions) :
    (evaluate e ns vars o).visited.Subperm e.nodes := by
  obtain ⟨l, hl, hvisited, -⟩ := expr_accounts ⟨ns, vars, o⟩ e 0 {}
  rw [outcome_evaluate, hvisited, List.append_nil]
  exact (List.reverse_perm l).subperm.trans hl

/-! ### Limits that are never reached -/

/-- What a node raises by itself is not about limits. -/
theorem isBudget_of_ownError {n : Expr} {err : EvalError} (h : OwnError n err) :
    err.kind.isBudget = false := by
  cases h with
  | @unary _ _ _ _ err | @binary _ _ _ _ _ _ err | @compare _ _ _ _ _ _ _ err =>
    cases err with
    | divisionByZero | operands | arithmetic => rfl
  | set | dict | indirect | forbidden => rfl

/-- A limit that stops an evaluation at a node has been reached there. -/
theorem limit_of_fails {sc : Scope} {d : Nat} {t : Trace} {n : Expr} {err : EvalError}
    (h : Fails sc d t n err) (hbudget : err.kind.isBudget = true) :
    (∃ depth limit, err.kind = .stackOverflow depth limit ∧ sc.options.maxDepth ≤ d) ∨
      ∃ limit ∈ sc.options.maxSteps, err.kind = .stepLimit limit ∧ limit < t.steps := by
  cases h with
  | overflow hd => exact Or.inl ⟨_, _, rfl, hd⟩
  | steps hlimit hover => exact Or.inr ⟨_, hlimit, rfl, hover⟩
  | own herr =>
    rw [isBudget_of_ownError herr] at hbudget
    cases hbudget
  | name hname => cases hname <;> cases hbudget
  | callee hcallee herr => cases herr <;> cases hbudget
  | implied hcall hi hname => cases hname <;> cases hbudget
  | @bind _ _ _ _ _ _ _ _ x => cases x <;> cases hbudget
  | backend => cases hbudget

/-- A run that may visit all nodes is not stopped by the number of steps. -/
theorem not_stepLimit_of_nodes_le {e : Expr} {ns : Namespace} {vars : Variables}
    {o : EvalOptions} (h : ∀ limit ∈ o.maxSteps, e.nodes.length ≤ limit) {err : EvalError}
    (herr : (evaluate e ns vars o).result = .error err) (limit : Nat) :
    err.kind ≠ .stepLimit limit := by
  intro hkind
  rw [outcome_evaluate] at herr
  obtain ⟨n, -, d, -, hfails⟩ := expr_fails (Prod.ext herr rfl)
  rcases limit_of_fails hfails (by rw [hkind]; rfl) with ⟨_, _, hoverflow, -⟩ | ⟨m, hm, -, hlt⟩
  · rw [hkind] at hoverflow
    cases hoverflow
  · obtain ⟨l, hl, -, hsteps⟩ := expr_accounts ⟨ns, vars, o⟩ e 0 {}
    have := h m hm
    have := hl.length_le
    rw [hsteps] at hlt
    dsimp only at hlt
    omega

theorem depth_pos (e : Expr) : 0 < e.depth := by
  rw [Expr.depth_eq]
  omega

/-- A run that may go as deep as the tree is high does not overflow. -/
theorem not_stackOverflow_of_depth_le {e : Expr} {ns : Namespace} {vars : Variables}
    {o : EvalOptions} (h : e.depth ≤ o.maxDepth) {err : EvalError}
    (herr : (evaluate e ns vars o).result = .error err) (depth limit : Nat) :
    err.kind ≠ .stackOverflow depth limit := by
  intro hkind
  obtain ⟨n, -, d, t, hd, hfails⟩ := evaluate_fails herr
  rcases limit_of_fails hfails (by rw [hkind]; rfl) with ⟨_, _, -, hle⟩ | ⟨_, _, hsteps, -⟩
  · have := depth_pos n
    dsimp only at hle
    omega
  · rw [hkind] at hsteps
    cases hsteps

/-- A tree that was read is no higher than allowed. -/
theorem depth_le_of_parseWith {maxDepth : Nat} {source : String} {e : Expr}
    (h : parseWith maxDepth source = .ok e) : e.depth ≤ maxDepth := by
  simp only [parseWith, Except.bind_eq_ok_iff] at h
  obtain ⟨-, -, tree, -, -, -, e', -, h⟩ := h
  by_cases hdepth : maxDepth < e'.depth
  · rw [if_pos hdepth] at h
    cases h
  · rw [if_neg hdepth] at h
    cases h
    omega

/-- **Budgets only cut runs short.**  Within larger limits a run has the same result, unless
    a limit had stopped it, and makes the same calls first.  It visits no node twice, so
    limits as large as the tree are never reached, nor is a depth that the text was read
    with. -/
theorem budgets_only_cut (e : Expr) (ns : Namespace) (vars : Variables) :
    (∀ o o' : EvalOptions, o ≤ o' →
      ((∀ err, (evaluate e ns vars o).result = .error err → err.kind.isBudget = false) →
        (evaluate e ns vars o').result = (evaluate e ns vars o).result) ∧
      (evaluate e ns vars o).calls <+: (evaluate e ns vars o').calls) ∧
    (∀ o, (evaluate e ns vars o).visited.Subperm e.nodes) ∧
    (∀ o : EvalOptions, (∀ limit ∈ o.maxSteps, e.nodes.length ≤ limit) →
      ∀ err, (evaluate e ns vars o).result = .error err →
        ∀ limit, err.kind ≠ .stepLimit limit) ∧
    (∀ o : EvalOptions, e.depth ≤ o.maxDepth →
      ∀ err, (evaluate e ns vars o).result = .error err →
        ∀ depth limit, err.kind ≠ .stackOverflow depth limit) ∧
    ∀ source maxDepth c, Compiled.compile source ns maxDepth = .ok c →
      ∀ o : EvalOptions, maxDepth ≤ o.maxDepth →
        ∀ err, (c.evaluate vars o).result = .error err →
          ∀ depth limit, err.kind ≠ .stackOverflow depth limit := by
  refine ⟨fun o o' h => ⟨result_mono h, calls_prefix h⟩, visited_subperm e ns vars,
    fun o h err => not_stepLimit_of_nodes_le h, fun o h err => not_stackOverflow_of_depth_le h,
    ?_⟩
  intro source maxDepth c hc o ho err herr
  obtain ⟨hparse, -⟩ := stages_of_compile hc
  have hdepth : c.expr.depth ≤ o.maxDepth := Nat.le_trans (depth_le_of_parseWith hparse) ho
  exact not_stackOverflow_of_depth_le hdepth herr

theorem budgets_only_cut_sum :
    let sum : Expr := .binary ⟨0, 5⟩ .add (.literal ⟨0, 1⟩ (.int 1)) (.literal ⟨4, 5⟩ (.int 2))
    (evaluate sum clampNamespace {} { maxDepth := 2, maxSteps := some 3 }).result =
        .ok (.int 3) ∧
      (evaluate sum clampNamespace {} { maxDepth := 1000, maxSteps := none }).result =
        .ok (.int 3) := by
  intro sum
  have hsmall : (evaluate sum clampNamespace {} { maxDepth := 2, maxSteps := some 3 }).result =
      .ok (.int 3) := by
    rfl
  refine ⟨hsmall, ?_⟩
  have hle : ({ maxDepth := 2, maxSteps := some 3 } : EvalOptions) ≤
      { maxDepth := 1000, maxSteps := none } := ⟨by decide, by simp⟩
  rw [← hsmall]
  apply ((budgets_only_cut sum clampNamespace {}).1 _ _ hle).1
  intro err herr
  rw [hsmall] at herr
  cases herr

end Eval

end SafeExpr
