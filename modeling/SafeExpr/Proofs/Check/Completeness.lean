/-
  SafeExpr/Proofs/Check/Completeness.lean
  =======================================
  **The checks before an evaluation leave nothing for it to find.**

  The evaluation refuses forbidden constructs, calls of unbound names and keywords that a
  function does not take, just as the checks do.  `checks_complete` says that for a compiled
  expression it never comes to that: whatever the variables, the limits and the native
  functions are.  A repeated argument is only ever one that was passed by position too.
-/
import SafeExpr.Proofs.Check.Checked
import SafeExpr.Proofs.Function.Binding

namespace SafeExpr

open Eval

/-- An error that the checks of the node do not rule out. -/
structure Unforeseen (ns : Namespace) (n : Expr) (err : EvalError) : Prop where
  supported (construct : Construct) : err.kind ≠ .unsupported construct
  unbound (name : String) : err.kind = .unboundName name → ns.contains name = false
  expected (function keyword : String) :
    err.kind ≠ .typeMismatch (.arguments function (.unexpectedKeyword keyword))
  duplicate (function keyword : String) :
    err.kind = .typeMismatch (.arguments function (.duplicateArgument keyword)) →
      ∃ f args, Calls ns n err.span function f args ∧ keyword ∈ keywordNames args ∧
        f.signature.FilledByPosition (positionalCount args) keyword

variable {sc : Scope} {n : Expr} {ns : Namespace}

/-! ### Errors at a single node -/

theorem unforeseen_of_nameError {name : String} {kind : EvalErrorKind} {span : Span}
    (h : NameError sc name kind) : Unforeseen sc.namespaces n ⟨kind, span⟩ := by
  cases h with
  | unbound hv hb =>
    refine ⟨nofun, fun m hm => ?_, nofun, nofun⟩
    cases hm
    simpa [Namespace.contains, Table.contains, Namespace.lookup] using hb
  | ambiguous | functionAsValue => exact ⟨nofun, nofun, nofun, nofun⟩

theorem unforeseen_of_calleeError {name : String} {kind : EvalErrorKind} {span : Span}
    (h : CalleeError sc name kind) : Unforeseen sc.namespaces n ⟨kind, span⟩ := by
  cases h with
  | unbound hv hb =>
    refine ⟨nofun, fun m hm => ?_, nofun, nofun⟩
    cases hm
    simpa [Namespace.contains, Table.contains, Namespace.lookup] using hb
  | ambiguous | notCallable => exact ⟨nofun, nofun, nofun, nofun⟩

theorem unforeseen_ofOperator {span : Span} {err : OperatorError} :
    Unforeseen ns n (.ofOperator span err) := by
  cases err with
  | divisionByZero | operands | arithmetic => exact ⟨nofun, nofun, nofun, nofun⟩

/-- A checked node is of a permitted shape, so what it raises by itself is about values. -/
theorem unforeseen_of_ownError {err : EvalError} (hn : Checked ns n) (h : OwnError n err) :
    Unforeseen ns n err := by
  cases h with
  | unary | binary | compare => exact unforeseen_ofOperator
  | set | dict => exact ⟨nofun, nofun, nofun, nofun⟩
  | indirect hname =>
    obtain ⟨name, hname', -⟩ := hn.callee rfl
    rw [hname] at hname'
    cases hname'
  | forbidden hconstruct =>
    rw [hn.permitted] at hconstruct
    cases hconstruct

/-- The keywords of a checked node are accepted, so binding fails for other reasons. -/
theorem unforeseen_of_bind {span : Span} {name : String} {f : NativeFunction}
    {args : List (Argument Expr)} {ps : List Value} {ks : List (String × Value)}
    {is : List Value} {x : BindError} {found : Nat} (hn : Checked ns n)
    (hcall : Calls ns n span name f args) (hps : ps.length = positionalCount args)
    (hks : ks.map Prod.fst = keywordNames args) (h : f.signature.bind ps ks is = .error x) :
    Unforeseen ns n ⟨bindFailure name f.signature found x, span⟩ := by
  have haccepts := hn.accepts hcall
  have hnodup := hn.nodup hcall
  rw [← hks] at haccepts hnodup
  rcases Signature.bind_error_of_accepted haccepts hnodup h with
    rfl | ⟨missing, rfl⟩ | ⟨keyword, hmem, rfl, hfilled⟩
  · exact ⟨nofun, nofun, nofun, nofun⟩
  · exact ⟨nofun, nofun, nofun, nofun⟩
  · refine ⟨nofun, nofun, nofun, fun function keyword' hkind => ?_⟩
    cases hkind
    rw [hks] at hmem
    rw [hps] at hfilled
    exact ⟨f, args, hcall, hmem, hfilled⟩

/-- **What can still go wrong at a checked node.** -/
theorem unforeseen_of_fails {d : Nat} {t : Trace} {err : EvalError}
    (hn : Checked sc.namespaces n) (h : Fails sc d t n err) : Unforeseen sc.namespaces n err := by
  cases h with
  | overflow | steps | backend => exact ⟨nofun, nofun, nofun, nofun⟩
  | own herr => exact unforeseen_of_ownError hn herr
  | name hname => exact unforeseen_of_nameError hname
  | callee hcallee herr => exact unforeseen_of_calleeError herr
  | implied hcall hi hname => exact unforeseen_of_nameError hname
  | bind hcall hps hks his hbind => exact unforeseen_of_bind hn hcall hps hks hbind

/-! ### Errors of compiled expressions -/

/-- A compiled expression fails at a node, with an error that its checks do not rule out. -/
theorem unforeseen_of_compile {source : String} {maxDepth : Nat} {c : Compiled}
    (h : Compiled.compile source ns maxDepth = .ok c) {vars : Variables} {options : EvalOptions}
    {err : EvalError} (herr : (c.evaluate vars options).result = .error err) :
    ∃ n ∈ c.expr.nodes, Unforeseen ns n err := by
  obtain ⟨-, -, -, rfl, -⟩ := stages_of_compile h
  obtain ⟨n, hn, d, t, -, hfails⟩ := evaluate_fails herr
  exact ⟨n, hn, unforeseen_of_fails (checked_of_compile h n hn) hfails⟩

/-- **The checks are complete for the evaluation.**  Every node of a compiled tree has a
    permitted shape, and every callee is a name that the namespace binds.  So no evaluation
    meets an unsupported construct, an unbound callee or an unexpected keyword, and an
    argument is only repeated where one by position filled the parameter first. -/
theorem checks_complete {source : String} {maxDepth : Nat} {c : Compiled}
    (h : Compiled.compile source ns maxDepth = .ok c) :
    (∀ n ∈ c.expr.nodes, n.forbidden? = none ∧
      ∀ span callee args, n = .call span callee args →
        ∃ name, callee.asName = some name ∧ ns.contains name = true) ∧
    ∀ vars options err, (c.evaluate vars options).result = .error err →
      (∀ construct, err.kind ≠ .unsupported construct) ∧
      (∀ n ∈ c.expr.nodes, ∀ name, n.calledName? = some name →
        err.kind ≠ .unboundName name) ∧
      (∀ function keyword,
        err.kind ≠ .typeMismatch (.arguments function (.unexpectedKeyword keyword))) ∧
      ∀ function keyword,
        err.kind = .typeMismatch (.arguments function (.duplicateArgument keyword)) →
          ∃ n ∈ c.expr.nodes, ∃ f args, Calls ns n err.span function f args ∧
            keyword ∈ keywordNames args ∧
            f.signature.FilledByPosition (positionalCount args) keyword := by
  have hchecked := checked_of_compile h
  refine ⟨fun n hn => ⟨(hchecked n hn).permitted, fun _ _ _ => (hchecked n hn).callee⟩, ?_⟩
  intro vars options err herr
  obtain ⟨n, hn, hun⟩ := unforeseen_of_compile h herr
  refine ⟨hun.supported, ?_, hun.expected, fun function keyword hkind => ?_⟩
  · intro m hm name hname hkind
    have hbound : ns.contains name = true := by
      cases m with
      | call span callee args =>
        obtain ⟨name', hname', hb⟩ := (hchecked _ hm).callee rfl
        have : some name' = some name := hname'.symm.trans hname
        cases this
        exact hb
      | _ => cases hname
    rw [hun.unbound name hkind] at hbound
    cases hbound
  · obtain ⟨f, args, hrest⟩ := hun.duplicate function keyword hkind
    exact ⟨n, hn, f, args, hrest⟩

theorem checks_complete_clamp :
    ∃ c, Compiled.compile "(clamp)(x, high=y) if x else 0" clampNamespace 20 = .ok c ∧
      ∀ vars options err, (c.evaluate vars options).result = .error err →
        (∀ construct, err.kind ≠ .unsupported construct) ∧
          err.kind ≠ .unboundName "clamp" := by
  have hcompiles : ((Compiled.compile "(clamp)(x, high=y) if x else 0" clampNamespace
      20).toOption.map fun c => c.expr.nodes.filterMap Expr.calledName?) = some ["clamp"] := by
    decide +kernel
  obtain ⟨c, hc, hnames⟩ := Option.map_eq_some_iff.mp hcompiles
  rw [Except.toOption_eq_some_iff] at hc
  obtain ⟨n, hn, hname⟩ := List.mem_filterMap.mp (hnames ▸ List.mem_singleton_self "clamp")
  refine ⟨c, hc, fun vars options err herr => ?_⟩
  obtain ⟨hsupported, hbound, -⟩ := (checks_complete hc).2 vars options err herr
  exact ⟨hsupported, hbound n hn "clamp" hname⟩

end SafeExpr
