/-
  SafeExpr/Proofs/Evaluation/Failure.lean
  =======================================
  **Every failure of an evaluation has its node.**

  `Fails sc depth t e err` lists the ways in which the single node `e`, visited at a depth,
  can end an evaluation with the error `err`.  The main statement is `expr_fails`: whatever
  error the evaluation of a tree ends with, one node of the tree accounts for it.  What can
  go wrong with a tree is then read off its nodes, without another look at the evaluation.
-/
import SafeExpr.Proofs.Evaluation.Relation

namespace SafeExpr.Eval

/-! ### Arguments and their values -/

/-- The names of the arguments that are passed by keyword. -/
def keywordNames (args : List (Argument Expr)) : List String :=
  args.filterMap fun
    | .keyword _ n _ => some n
    | .positional _ => none

/-- The number of the arguments that are passed by position. -/
def positionalCount (args : List (Argument Expr)) : Nat :=
  args.countP fun
    | .positional _ => true
    | .keyword .. => false

/-- Each argument has one value, in its place or under its name. -/
theorem shape_of_returns_arguments {sc : Scope} {depth : Nat} {args : List (Argument Expr)}
    {ps : List Value} {ks : List (String × Value)}
    (h : Returns (arguments sc depth args) (ps, ks)) :
    ps.length = positionalCount args ∧ ks.map Prod.fst = keywordNames args := by
  induction args generalizing ps ks with
  | nil =>
    cases returns_pure h
    exact ⟨rfl, rfl⟩
  | cons a rest ih =>
    cases a with
    | positional e =>
      obtain ⟨v, -, h⟩ := returns_bind h
      obtain ⟨⟨ps', ks'⟩, hrest, h⟩ := returns_bind h
      obtain ⟨hps, hks⟩ := ih hrest
      cases returns_pure h
      refine ⟨?_, hks⟩
      simpa [positionalCount] using hps
    | keyword span n e =>
      obtain ⟨v, -, h⟩ := returns_bind h
      obtain ⟨⟨ps', ks'⟩, hrest, h⟩ := returns_bind h
      obtain ⟨hps, hks⟩ := ih hrest
      cases returns_pure h
      refine ⟨hps, ?_⟩
      simpa [keywordNames] using hks

/-! ### The ways to fail -/

/-- Why a name has no value. -/
inductive NameError (sc : Scope) (name : String) : EvalErrorKind → Prop
  | ambiguous {v b} (hv : sc.vars.get? name = some v)
    (hb : sc.namespaces.lookup name = some b) : NameError sc name (.ambiguousName name)
  | unbound (hv : sc.vars.get? name = none) (hb : sc.namespaces.lookup name = none) :
    NameError sc name (.unboundName name)
  | functionAsValue : NameError sc name (.typeMismatch (.functionAsValue name))

/-- Why a name has no function. -/
inductive CalleeError (sc : Scope) (name : String) : EvalErrorKind → Prop
  | ambiguous {v b} (hv : sc.vars.get? name = some v)
    (hb : sc.namespaces.lookup name = some b) : CalleeError sc name (.ambiguousName name)
  | unbound (hv : sc.vars.get? name = none) (hb : sc.namespaces.lookup name = none) :
    CalleeError sc name (.unboundName name)
  | notCallable {type} : CalleeError sc name (.typeMismatch (.notCallable type))

/-- The ways in which a node that is visited at a depth fails, with the trace then. -/
inductive Fails (sc : Scope) (depth : Nat) (t : Trace) : Expr → EvalError → Prop
  | overflow {e} (h : sc.options.maxDepth ≤ depth) :
    Fails sc depth t e ⟨.stackOverflow depth sc.options.maxDepth, e.span⟩
  | steps {e limit} (hlimit : sc.options.maxSteps = some limit) (h : limit < t.steps) :
    Fails sc depth t e ⟨.stepLimit limit, e.span⟩
  | own {e err} (h : OwnError e err) : Fails sc depth t e err
  | name {span n kind} (h : NameError sc n kind) : Fails sc depth t (.name span n) ⟨kind, span⟩
  | callee {span callee args n kind} (hn : callee.asName = some n)
    (h : CalleeError sc n kind) :
    Fails sc depth t (.call span callee args) ⟨kind, callee.peel.span⟩
  | implied {e span n f args i kind} (hcall : Calls sc.namespaces e span n f args)
    (hi : i ∈ f.signature.impliedNames) (h : NameError sc i kind) :
    Fails sc depth t e ⟨kind, span⟩
  | bind {e span n f args ps ks is x} (hcall : Calls sc.namespaces e span n f args)
    (hps : ps.length = positionalCount args) (hks : ks.map Prod.fst = keywordNames args)
    (his : is.length = f.signature.impliedNames.length)
    (h : f.signature.bind ps ks is = .error x) :
    Fails sc depth t e ⟨bindFailure n f.signature (ps.length + ks.length) x, span⟩
  | backend {e span n f args vs x} (hcall : Calls sc.namespaces e span n f args)
    (h : f.run vs = .error x) : Fails sc depth t e ⟨.backend n x, span⟩

/-! ### Errors of the parts of an evaluation -/

/-- The second evaluation ends only with errors, and traces then, that satisfy `E`. -/
def FailsOnly (E : EvalError → Trace → Prop) : Relation := fun _ _ _ m =>
  ∀ t err t', outcome m t = (.error err, t') → E err t'

theorem failsOnly_lawful (E : EvalError → Trace → Prop) : Lawful (FailsOnly E) where
  pure a := by
    intro t err t' h
    simp at h
  bind := by
    intro α β l l' m m' k k' hm hk t err t' h
    rcases outcome_bind_eq_error h with h | ⟨a, u, ha, h⟩
    · exact hm t err t' h
    · exact hk a ⟨t, u, ha⟩ u err t' h
  weaken _ h := h

theorem failsOnly_throw {α : Type} {E : EvalError → Trace → Prop} {err : EvalError}
    {m : EvalM α} (h : ∀ t, E err t) : FailsOnly E [] m (throw err) := by
  intro t err' t' hout
  simp only [outcome_throw, Prod.mk.injEq, Except.error.injEq] at hout
  rw [← hout.1, ← hout.2]
  exact h t

theorem failsOnly_enter {E : EvalError → Trace → Prop} {sc : Scope} {depth : Nat} {e : Expr}
    (h : ∀ t err, Fails sc depth t e err → E err t) :
    FailsOnly E [e] (enter sc depth e) (enter sc depth e) := by
  intro t err t' hout
  apply h t' err
  rw [outcome_enter] at hout
  by_cases hd : sc.options.maxDepth ≤ depth
  · rw [if_pos hd] at hout
    cases hout
    exact .overflow hd
  · rw [if_neg hd] at hout
    cases hs : sc.options.maxSteps with
    | none =>
      rw [hs] at hout
      cases hout
    | some limit =>
      rw [hs] at hout
      by_cases hl : limit < t.steps + 1
      · simp only [if_pos hl] at hout
        cases hout
        exact .steps hs hl
      · simp only [if_neg hl] at hout
        cases hout

theorem failsOnly_resolve {E : EvalError → Trace → Prop} {sc : Scope} {n : String}
    {span : Span} (h : ∀ t kind, NameError sc n kind → E ⟨kind, span⟩ t) :
    FailsOnly E [] (resolve sc n span) (resolve sc n span) := by
  unfold resolve
  split
  · next hv hb => exact failsOnly_throw fun t => h t _ (.ambiguous hv hb)
  · exact (failsOnly_lawful E).pure _
  · exact (failsOnly_lawful E).pure _
  · exact failsOnly_throw fun t => h t _ .functionAsValue
  · next hv hb => exact failsOnly_throw fun t => h t _ (.unbound hv hb)

theorem failsOnly_resolveFunction {E : EvalError → Trace → Prop} {sc : Scope} {n : String}
    {span : Span} (h : ∀ t kind, CalleeError sc n kind → E ⟨kind, span⟩ t) :
    FailsOnly E [] (resolveFunction sc n span) (resolveFunction sc n span) := by
  unfold resolveFunction
  split
  · next hv hb => exact failsOnly_throw fun t => h t _ (.ambiguous hv hb)
  · exact (failsOnly_lawful E).pure _
  · exact failsOnly_throw fun t => h t _ .notCallable
  · exact failsOnly_throw fun t => h t _ .notCallable
  · next hv hb => exact failsOnly_throw fun t => h t _ (.unbound hv hb)

theorem failsOnly_invoke {E : EvalError → Trace → Prop} {span : Span} {n : String}
    {f : NativeFunction} {ps : List Value} {ks : List (String × Value)} {is : List Value}
    (hbind : ∀ t x, f.signature.bind ps ks is = .error x →
      E ⟨bindFailure n f.signature (ps.length + ks.length) x, span⟩ t)
    (hrun : ∀ t vs x, f.run vs = .error x → E ⟨.backend n x, span⟩ t) :
    FailsOnly E [] (invoke span n f ps ks is) (invoke span n f ps ks is) := by
  unfold invoke
  cases hb : f.signature.bind ps ks is with
  | error x => exact failsOnly_throw fun t => hbind t x hb
  | ok args =>
    refine (failsOnly_lawful E).bind_nil (fun t err t' hout => by simp at hout) fun _ _ => ?_
    cases hr : f.run args with
    | error x => exact failsOnly_throw fun t => hrun t args x hr
    | ok v => exact (failsOnly_lawful E).pure v

/-! ### Errors of a whole tree -/

/-- **A failed evaluation has a node that accounts for it.**  The node is not visited deeper
    than the height of the tree allows. -/
theorem expr_fails {sc : Scope} {depth : Nat} {e : Expr} {t t' : Trace} {err : EvalError}
    (h : outcome (expr sc depth e) t = (.error err, t')) :
    ∃ n ∈ e.nodes, ∃ d, d + n.depth ≤ depth + e.depth ∧ Fails sc d t' n err := by
  let E : EvalError → Trace → Prop := fun err t =>
    ∃ n ∈ e.nodes, ∃ d, d + n.depth ≤ depth + e.depth ∧ Fails sc d t n err
  suffices htree : TreeRelated (FailsOnly E) sc sc depth e from
    expr_related (failsOnly_lawful E) e depth htree t err t' h
  intro n hn d hd
  have hnode : ∀ t err, Fails sc d t n err → E err t := fun t err hf => ⟨n, hn, d, hd, hf⟩
  exact {
    enter := failsOnly_enter hnode
    throws := fun _ err herr => failsOnly_throw fun t => hnode t err (.own herr)
    name := by
      rintro span m rfl
      exact failsOnly_resolve fun t kind hk => hnode t _ (.name hk)
    function := by
      rintro span callee args m rfl hm
      exact failsOnly_resolveFunction fun t kind hk => hnode t _ (.callee hm hk)
    implied := fun span m f args hcall i hi =>
      failsOnly_resolve fun t kind hk => hnode t _ (.implied hcall hi hk)
    invoke := fun span m f args ps ks is hcall hret his =>
      have hshape := shape_of_returns_arguments hret
      failsOnly_invoke (fun t x hx => hnode t _ (.bind hcall hshape.1 hshape.2 his hx))
        fun t vs x hx => hnode t _ (.backend hcall hx) }

theorem evaluate_fails {e : Expr} {ns : Namespace} {vars : Variables} {options : EvalOptions}
    {err : EvalError} (h : (evaluate e ns vars options).result = .error err) :
    ∃ n ∈ e.nodes, ∃ d t, d + n.depth ≤ e.depth ∧ Fails ⟨ns, vars, options⟩ d t n err := by
  rw [outcome_evaluate] at h
  obtain ⟨n, hn, d, hd, hf⟩ := expr_fails (Prod.ext h rfl)
  exact ⟨n, hn, d, _, by omega, hf⟩

end SafeExpr.Eval
