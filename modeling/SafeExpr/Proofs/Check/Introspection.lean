/-
  SafeExpr/Proofs/Check/Introspection.lean
  ========================================
  **The names of an expression bound what its evaluation sees.**

  `LooksUp ns n name` says that the node `n` by itself looks up a name: the name that it is,
  the name that it calls, or one that the called function looks up.  All of them are among
  the references of the tree (`mem_references`), so variables outside the list change
  nothing, and an error about a name is about one on the list.
-/
import SafeExpr.Proofs.Check.Checked

namespace SafeExpr

open Eval

/-! ### What a node looks up -/

inductive LooksUp (ns : Namespace) : Expr → String → Prop
  | name {span n} : LooksUp ns (.name span n) n
  | callee {span callee args n} (h : callee.asName = some n) :
    LooksUp ns (.call span callee args) n
  | implied {e span n f args i} (hcall : Calls ns e span n f args)
    (hi : i ∈ f.signature.impliedNames) : LooksUp ns e i

/-- Parentheses are nodes around the node that they enclose. -/
theorem Expr.peel_mem_nodes (e : Expr) : e.peel ∈ e.nodes := by
  induction e using Expr.induction with
  | step e ih =>
    cases e with
    | paren span inner =>
      have hinner : inner ∈ (Expr.paren span inner).children := by simp [Expr.children]
      exact Expr.mem_nodes_of_child hinner (ih inner hinner)
    | _ => exact Expr.mem_nodes_self _

theorem Expr.peel_of_asName {e : Expr} {n : String} (h : e.asName = some n) :
    ∃ span, e.peel = .name span n := by
  unfold Expr.asName at h
  split at h
  · next span m hpeel =>
    cases h
    exact ⟨span, hpeel⟩
  · cases h

theorem Expr.mem_nodes_trans {c n e : Expr} (hn : n ∈ e.nodes) (hc : c ∈ n.nodes) :
    c ∈ e.nodes := by
  induction e using Expr.induction with
  | step e ih =>
    rw [Expr.nodes_eq, List.mem_cons, List.mem_flatMap] at hn
    rcases hn with rfl | ⟨x, hx, hn⟩
    · exact hc
    · exact Expr.mem_nodes_of_child hx (ih x hx hn)

theorem mem_references_of_name {ns : Namespace} {e : Expr} {span : Span} {n : String}
    (h : .name span n ∈ e.nodes) : n ∈ e.references ns := by
  rw [Expr.references, List.mem_eraseDups]
  exact List.mem_append_left _ (List.mem_filterMap.mpr ⟨_, h, rfl⟩)

/-- **The references of a tree are all that its nodes look up.** -/
theorem mem_references {ns : Namespace} {e n : Expr} {name : String} (hn : n ∈ e.nodes)
    (h : LooksUp ns n name) : name ∈ e.references ns := by
  cases h with
  | name => exact mem_references_of_name hn
  | @callee span callee args n hname =>
    obtain ⟨s, hpeel⟩ := Expr.peel_of_asName hname
    have hcallee : callee.peel ∈ (Expr.call span callee args).nodes :=
      Expr.mem_nodes_of_child List.mem_cons_self callee.peel_mem_nodes
    rw [hpeel] at hcallee
    exact mem_references_of_name (Expr.mem_nodes_trans hn hcallee)
  | implied hcall hi =>
    obtain ⟨hname, hf⟩ := hcall
    rw [Expr.references, List.mem_eraseDups]
    refine List.mem_append_right _ (List.mem_flatMap.mpr ⟨_, hn, ?_⟩)
    simpa [Expr.impliedBy, hname, hf] using hi

/-! ### Variables that agree -/

/-- Two evaluations with the same outcome from every trace on. -/
def SameOutcome : Relation := fun _ _ m m' => ∀ t, outcome m t = outcome m' t

theorem sameOutcome_lawful : Lawful SameOutcome where
  pure _ _ := rfl
  bind := by
    intro α β l l' m m' k k' hm hk t
    rw [outcome_bind, outcome_bind, hm t]
    rcases hout : outcome m' t with ⟨r, u⟩
    cases r with
    | error err => rfl
    | ok a => exact hk a ⟨t, u, hout⟩ u
  weaken _ h := h

variable {ns : Namespace} {options : EvalOptions} {vars vars' : Variables}

theorem resolve_congr {name : String} {span : Span} (h : vars.get? name = vars'.get? name) :
    Eval.resolve ⟨ns, vars, options⟩ name span =
      Eval.resolve ⟨ns, vars', options⟩ name span := by
  simp only [Eval.resolve, h]

theorem resolveFunction_congr {name : String} {span : Span}
    (h : vars.get? name = vars'.get? name) :
    resolveFunction ⟨ns, vars, options⟩ name span =
      resolveFunction ⟨ns, vars', options⟩ name span := by
  simp only [resolveFunction, h]

/-- **Only the variables among the references count.** -/
theorem evaluate_congr {e : Expr}
    (h : ∀ name ∈ e.references ns, vars.get? name = vars'.get? name) :
    evaluate e ns vars options = evaluate e ns vars' options := by
  have hagree : ∀ n ∈ e.nodes, ∀ name, LooksUp ns n name → vars.get? name = vars'.get? name :=
    fun n hn name hlooks => h name (mem_references hn hlooks)
  have htree : TreeRelated SameOutcome ⟨ns, vars, options⟩ ⟨ns, vars', options⟩ 0 e := by
    intro n hn d _
    exact {
      enter := fun _ => rfl
      throws := fun _ _ _ _ => rfl
      name := by
        rintro span name rfl t
        rw [resolve_congr (hagree _ hn name .name)]
      function := by
        rintro span callee args name rfl hname t
        rw [resolveFunction_congr (hagree _ hn name (.callee hname))]
      implied := by
        intro span name f args hcall i hi t
        rw [resolve_congr (hagree _ hn i (.implied hcall hi))]
      invoke := fun _ _ _ _ _ _ _ _ _ _ _ => rfl }
  rw [outcome_evaluate, outcome_evaluate, expr_related sameOutcome_lawful e 0 htree {}]

/-! ### Errors about names -/

/-- The error says that a name is bound nowhere, or both as a variable and in the
    namespace, and it is right. -/
inductive Misnamed (sc : Scope) (name : String) : EvalErrorKind → Prop
  | unbound (hv : sc.vars.get? name = none) (hb : sc.namespaces.lookup name = none) :
    Misnamed sc name (.unboundName name)
  | ambiguous {v b} (hv : sc.vars.get? name = some v)
    (hb : sc.namespaces.lookup name = some b) : Misnamed sc name (.ambiguousName name)

/-- Is the error about how a name is bound? -/
def EvalErrorKind.misnames : EvalErrorKind → Bool
  | .unboundName _ | .ambiguousName _ => true
  | _ => false

variable {sc : Scope}

theorem misnamed_of_nameError {name : String} {kind : EvalErrorKind}
    (h : NameError sc name kind) (hkind : kind.misnames = true) : Misnamed sc name kind := by
  cases h with
  | ambiguous hv hb => exact .ambiguous hv hb
  | unbound hv hb => exact .unbound hv hb
  | functionAsValue => cases hkind

theorem misnamed_of_calleeError {name : String} {kind : EvalErrorKind}
    (h : CalleeError sc name kind) (hkind : kind.misnames = true) : Misnamed sc name kind := by
  cases h with
  | ambiguous hv hb => exact .ambiguous hv hb
  | unbound hv hb => exact .unbound hv hb
  | notCallable => cases hkind

theorem misnames_of_ownError {n : Expr} {err : EvalError} (h : OwnError n err) :
    err.kind.misnames = false := by
  cases h with
  | @unary _ _ _ _ err | @binary _ _ _ _ _ _ err | @compare _ _ _ _ _ _ _ err =>
    cases err with
    | divisionByZero | operands | arithmetic => rfl
  | set | dict | indirect | forbidden => rfl

theorem misnames_bindFailure {name : String} {s : Signature} {found : Nat} {x : BindError} :
    (bindFailure name s found x).misnames = false := by
  cases x with
  | tooMany | missing | unexpectedKeyword | duplicateArgument => rfl

/-- An error about a name is about one that the node looks up. -/
theorem misnamed_of_fails {d : Nat} {t : Trace} {n : Expr} {err : EvalError}
    (h : Fails sc d t n err) (hkind : err.kind.misnames = true) :
    ∃ name, LooksUp sc.namespaces n name ∧ Misnamed sc name err.kind := by
  cases h with
  | overflow | steps | backend => cases hkind
  | own herr =>
    rw [misnames_of_ownError herr] at hkind
    cases hkind
  | name hname => exact ⟨_, .name, misnamed_of_nameError hname hkind⟩
  | callee hcallee herr => exact ⟨_, .callee hcallee, misnamed_of_calleeError herr hkind⟩
  | implied hcall hi hname => exact ⟨_, .implied hcall hi, misnamed_of_nameError hname hkind⟩
  | bind =>
    rw [misnames_bindFailure] at hkind
    cases hkind

/-- **Bound once is enough.**  No error about names comes up when every reference is bound
    either as a variable or in the namespace. -/
theorem misnames_of_bound_once {e : Expr} {err : EvalError}
    (hbound : ∀ name ∈ e.references ns, vars.contains name = !ns.contains name)
    (herr : (evaluate e ns vars options).result = .error err) : err.kind.misnames = false := by
  obtain ⟨n, hn, d, t, -, hfails⟩ := evaluate_fails herr
  by_contra hkind
  rw [Bool.not_eq_false] at hkind
  obtain ⟨name, hlooks, hmis⟩ := misnamed_of_fails hfails hkind
  have hone := hbound name (mem_references hn hlooks)
  simp only [Table.contains, Namespace.contains] at hone
  generalize err.kind = kind at hmis
  cases hmis with
  | unbound hv hb =>
    simp only [Namespace.lookup] at hv hb
    simp [hv, hb] at hone
  | ambiguous hv hb =>
    simp only [Namespace.lookup] at hv hb
    simp [hv, hb] at hone

/-! ### Compiled expressions -/

/-- **Introspection bounds what an evaluation can see.**  Variables that agree on the
    references give the same evaluation.  Variables that bind the free names, and none of
    the predefined ones, leave no error about names.  What called functions look up by
    themselves is among the references, and is predefined or free. -/
theorem introspection_bounds_evaluation {source : String} {maxDepth : Nat} {c : Compiled}
    (h : Compiled.compile source ns maxDepth = .ok c) (options : EvalOptions) :
    (∀ vars vars' : Variables,
      (∀ name ∈ c.referenced, vars.get? name = vars'.get? name) →
        c.evaluate vars options = c.evaluate vars' options) ∧
    (∀ vars : Variables, (∀ name ∈ c.free, vars.contains name = true) →
      (∀ name ∈ c.predefined, vars.contains name = false) →
        ∀ err, (c.evaluate vars options).result = .error err →
          ∀ name, err.kind ≠ .unboundName name ∧ err.kind ≠ .ambiguousName name) ∧
    ∀ n ∈ c.expr.nodes, ∀ span name f args, Calls ns n span name f args →
      ∀ i ∈ f.signature.impliedNames, i ∈ c.referenced ∧ (i ∈ c.predefined ∨ i ∈ c.free) := by
  obtain ⟨-, -, -, rfl, hreferenced⟩ := stages_of_compile h
  refine ⟨?_, ?_, ?_⟩
  · intro vars vars' hagree
    rw [hreferenced] at hagree
    exact evaluate_congr hagree
  · intro vars hfree hpredefined err herr
    have hbound : ∀ name ∈ c.expr.references c.bound,
        vars.contains name = !c.bound.contains name := by
      intro name hname
      rw [← hreferenced] at hname
      cases hb : c.bound.contains name with
      | true => exact hpredefined name (List.mem_filter.mpr ⟨hname, hb⟩)
      | false => exact hfree name (List.mem_filter.mpr ⟨hname, by simp [hb]⟩)
    have hkind := misnames_of_bound_once hbound herr
    intro name
    constructor
    · intro hunbound
      rw [hunbound] at hkind
      cases hkind
    · intro hambiguous
      rw [hambiguous] at hkind
      cases hkind
  · intro n hn span name f args hcall i hi
    have hmem : i ∈ c.referenced := hreferenced ▸ mem_references hn (.implied hcall hi)
    refine ⟨hmem, ?_⟩
    cases hb : c.bound.contains i with
    | true => exact Or.inl (List.mem_filter.mpr ⟨hmem, hb⟩)
    | false => exact Or.inr (List.mem_filter.mpr ⟨hmem, by simp [hb]⟩)

theorem introspection_bounds_evaluation_clamp :
    ∃ c, Compiled.compile "clamp(x) + y" clampNamespace 20 = .ok c ∧
      c.referenced = ["clamp", "x", "y", "low"] ∧ c.predefined = ["clamp"] ∧
      ∀ options vars vars', (∀ name ∈ ["clamp", "x", "y", "low"],
        Table.get? vars name = Table.get? vars' name) →
          c.evaluate vars options = c.evaluate vars' options := by
  have hcompiles : ((Compiled.compile "clamp(x) + y" clampNamespace 20).toOption.map
      fun c => (c.referenced, c.predefined)) =
        some (["clamp", "x", "y", "low"], ["clamp"]) := by
    decide +kernel
  obtain ⟨c, hc, hnames⟩ := Option.map_eq_some_iff.mp hcompiles
  rw [Except.toOption_eq_some_iff] at hc
  simp only [Prod.mk.injEq] at hnames
  refine ⟨c, hc, hnames.1, hnames.2, fun options vars vars' hagree => ?_⟩
  apply (introspection_bounds_evaluation hc options).1 vars vars'
  rwa [hnames.1]

end SafeExpr
