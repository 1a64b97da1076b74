/-
  SafeExpr/Proofs/Evaluation/WellFormed.lean
  ==========================================
  **Evaluation keeps values well-formed.**

  If what a scope offers is well-formed, and its functions keep it so, every value that an
  evaluation returns is well-formed, at any node of any tree.  Sets and dicts are made by
  `mkSet` and `mkDict`; all else is passed on.
-/
import SafeExpr.Proofs.Evaluation.Outcome
import SafeExpr.Proofs.Function.Binding
import SafeExpr.Proofs.Library.WellFormed

namespace SafeExpr

/-! ### What a scope offers -/

/-- Whatever a name is bound to has the property. -/
def Table.Holds {α : Type} (P : α → Prop) (t : Table α) : Prop :=
  ∀ name a, t.get? name = some a → P a

theorem Table.Holds.empty {α : Type} {P : α → Prop} : Holds P {} := by
  intro name a h
  cases h

theorem Table.Holds.insert {α : Type} {P : α → Prop} {t : Table α} {a : α} (ht : t.Holds P)
    (name : String) (ha : P a) : (t.insert name a).Holds P := by
  intro n b h
  rw [Table.get?_insert] at h
  split at h
  · cases h
    exact ha
  · exact ht n b h

def Binding.WellFormed : Binding → Prop
  | .value v => v.WellFormed
  | .function f => f.KeepsWellFormed

def Namespace.WellFormed (ns : Namespace) : Prop := ns.bindings.Holds Binding.WellFormed

def Variables.WellFormed (vars : Variables) : Prop := Table.Holds Value.WellFormed vars

structure Scope.WellFormed (sc : Scope) : Prop where
  namespaces : sc.namespaces.WellFormed
  vars : sc.vars.WellFormed

namespace Eval

variable {α β : Type}

/-- Every value that the evaluation returns has the property. -/
def Yields (P : α → Prop) (m : EvalM α) : Prop := ∀ a, Returns m a → P a

theorem Yields.pure {P : α → Prop} {a : α} (h : P a) : Yields P (pure a) := by
  intro b hb
  rw [returns_pure hb]
  exact h

theorem Yields.throw {P : α → Prop} (err : EvalError) : Yields P (throw err : EvalM α) :=
  fun _ h => absurd h not_returns_throw

theorem Yields.bind {P : α → Prop} {Q : β → Prop} {m : EvalM α} {k : α → EvalM β}
    (hm : Yields P m) (hk : ∀ a, P a → Yields Q (k a)) : Yields Q (m >>= k) := by
  intro b hb
  obtain ⟨a, ha, hb⟩ := returns_bind hb
  exact hk a (hm a ha) b hb

/-- A first part of which nothing is known. -/
theorem Yields.then {Q : β → Prop} {m : EvalM α} {k : α → EvalM β}
    (hk : ∀ a, Yields Q (k a)) : Yields Q (m >>= k) :=
  Yields.bind (P := fun _ => True) (fun _ _ => trivial) fun a _ => hk a

/-! ### Names and calls -/

section Scope

variable {sc : Scope} (hsc : sc.WellFormed)
include hsc

theorem resolve_wellFormed (name : String) (span : Span) :
    Yields Value.WellFormed (resolve sc name span) := by
  unfold resolve
  split
  · exact .throw _
  · next hv _ => exact .pure (hsc.vars name _ hv)
  · next hb => exact .pure (hsc.namespaces name _ hb)
  · exact .throw _
  · exact .throw _

theorem resolveAll_wellFormed (span : Span) (names : List String) :
    Yields (∀ v ∈ ·, v.WellFormed) (resolveAll sc span names) := by
  induction names with
  | nil => exact .pure (List.forall_mem_nil _)
  | cons name rest ih =>
    refine (resolve_wellFormed hsc name span).bind fun v hv => ?_
    refine ih.bind fun vs hvs => ?_
    exact .pure (List.forall_mem_cons.mpr ⟨hv, hvs⟩)

theorem resolveFunction_keepsWellFormed (name : String) (span : Span) :
    Yields NativeFunction.KeepsWellFormed (resolveFunction sc name span) := by
  intro f h
  have hf := function_of_returns_resolveFunction h
  unfold Namespace.function? at hf
  split at hf
  · next hb =>
    cases hf
    exact hsc.namespaces name _ hb
  · cases hf

end Scope

/-- A call with well-formed arguments, of a function that keeps them so. -/
theorem invoke_wellFormed {f : NativeFunction} (hf : f.KeepsWellFormed) (span : Span)
    (name : String) {ps is : List Value} {ks : List (String × Value)}
    (hps : ∀ v ∈ ps, v.WellFormed) (hks : ∀ k ∈ ks, k.2.WellFormed)
    (his : ∀ v ∈ is, v.WellFormed) :
    Yields Value.WellFormed (invoke span name f ps ks is) := by
  unfold invoke
  split
  · exact .throw _
  · next args hargs =>
    have hwf : ∀ v ∈ args, v.WellFormed := by
      intro v hv
      rcases Signature.mem_of_bind hargs v hv with hv | hv | hv | rfl
      · exact hps v hv
      · obtain ⟨k, hk, rfl⟩ := List.mem_map.mp hv
        exact hks k hk
      · exact his v hv
      · exact .none
    refine .then fun _ => ?_
    split
    · next h => exact .pure ((hf args hwf).of_ok h)
    · exact .throw _

theorem ofOperator_yields {P : α → Prop} {span : Span} {r : Except OperatorError α}
    (h : r.Ensures P) : Yields P (ofOperator span r) := by
  cases r with
  | ok a => exact .pure h
  | error err => exact .throw _

theorem ofValue_yields {P : α → Prop} {span : Span} {r : Except ValueError α}
    (h : ∀ a, r = .ok a → P a) : Yields P (ofValue span r) := by
  cases r with
  | ok a => exact .pure (h a rfl)
  | error err => exact .throw _

/-! ### Lists of nodes -/

section Lists

variable {sc : Scope} {depth : Nat}

theorem items_wellFormed {es : List Expr}
    (hes : ∀ e ∈ es, Yields Value.WellFormed (expr sc depth e)) :
    Yields (∀ v ∈ ·, v.WellFormed) (items sc depth es) := by
  induction es with
  | nil => exact .pure (List.forall_mem_nil _)
  | cons e rest ih =>
    obtain ⟨he, hrest⟩ := List.forall_mem_cons.mp hes
    refine he.bind fun v hv => (ih hrest).bind fun vs hvs => ?_
    exact .pure (List.forall_mem_cons.mpr ⟨hv, hvs⟩)

/-- Of the keys nothing is needed. -/
theorem entries_wellFormed {es : List (Expr × Expr)}
    (hes : ∀ p ∈ es, Yields Value.WellFormed (expr sc depth p.2)) :
    Yields (∀ e ∈ ·, e.2.WellFormed) (entries sc depth es) := by
  induction es with
  | nil => exact .pure (List.forall_mem_nil _)
  | cons p rest ih =>
    obtain ⟨hp, hrest⟩ := List.forall_mem_cons.mp hes
    refine .then fun key => hp.bind fun v hv => (ih hrest).bind fun vs hvs => ?_
    exact .pure (List.forall_mem_cons.mpr ⟨hv, hvs⟩)

theorem arguments_wellFormed {args : List (Argument Expr)}
    (hargs : ∀ a ∈ args, Yields Value.WellFormed (expr sc depth a.value)) :
    Yields (fun r => (∀ v ∈ r.1, v.WellFormed) ∧ ∀ k ∈ r.2, k.2.WellFormed)
      (arguments sc depth args) := by
  induction args with
  | nil => exact .pure ⟨List.forall_mem_nil _, List.forall_mem_nil _⟩
  | cons a rest ih =>
    obtain ⟨ha, hrest⟩ := List.forall_mem_cons.mp hargs
    cases a with
    | positional e =>
      refine Yields.bind ha fun v hv => (ih hrest).bind fun r hr => ?_
      exact .pure ⟨List.forall_mem_cons.mpr ⟨hv, hr.1⟩, hr.2⟩
    | keyword span name e =>
      refine Yields.bind ha fun v hv => (ih hrest).bind fun r hr => ?_
      exact .pure ⟨hr.1, List.forall_mem_cons.mpr ⟨hv, hr.2⟩⟩

/-- A comparison chain is a truth value, whatever is compared. -/
theorem links_wellFormed (l : Value) (ls : List (CompareOp × Expr)) :
    Yields Value.WellFormed (links sc depth l ls) := by
  induction ls generalizing l with
  | nil => exact .pure (.bool true)
  | cons p rest ih =>
    refine .then fun r => .then fun holds => ?_
    cases holds with
    | true => exact ih r
    | false => exact .pure (.bool false)

end Lists

/-! ### Whole trees -/

theorem wellFormed_toValue (l : Literal) : l.toValue.WellFormed := by
  cases l with
  | none => exact .none
  | bool b => exact .bool b
  | int n => exact .int n
  | float x => exact .float x
  | str s => exact .str s

/-- One node, if its parts return well-formed values. -/
theorem expr_wellFormed_step {sc : Scope} (hsc : sc.WellFormed) {depth : Nat} {e : Expr}
    (hchild : ∀ c ∈ e.children, Yields Value.WellFormed (expr sc (depth + 1) c)) :
    Yields Value.WellFormed (expr sc depth e) := by
  unfold expr
  refine .then fun _ => ?_
  cases e with
  | literal span v => exact .pure (wellFormed_toValue v)
  | name span n => exact resolve_wellFormed hsc n span
  | paren span inner => exact hchild inner (by simp [Expr.children])
  | unary span op operand =>
    exact .then fun v => ofOperator_yields (Operators.unary_wellFormed op v)
  | binary span op left right =>
    refine (hchild left (by simp [Expr.children])).bind fun l hl => ?_
    refine (hchild right (by simp [Expr.children])).bind fun r hr => ?_
    exact ofOperator_yields (Operators.binary_wellFormed op hl hr)
  | boolOp span op left right =>
    refine (hchild left (by simp [Expr.children])).bind fun l hl => ?_
    split
    · exact .pure hl
    · exact hchild right (by simp [Expr.children])
  | compare span left rest => exact .then fun l => links_wellFormed l rest
  | conditional span condition yes no =>
    refine .then fun c => ?_
    split
    · exact hchild yes (by simp [Expr.children])
    · exact hchild no (by simp [Expr.children])
  | call span callee args =>
    dsimp only
    split
    · exact .throw _
    · have hargs := arguments_wellFormed fun a ha =>
        hchild a.value (List.mem_cons_of_mem callee (List.mem_map_of_mem ha))
      refine (resolveFunction_keepsWellFormed hsc _ _).bind fun f hf => ?_
      refine hargs.bind fun r hr => ?_
      refine (resolveAll_wellFormed hsc span f.signature.impliedNames).bind fun is his => ?_
      exact invoke_wellFormed hf _ _ hr.1 hr.2 his
  | list span es => exact (items_wellFormed hchild).bind fun vs hvs => .pure (.list hvs)
  | tuple span es => exact (items_wellFormed hchild).bind fun vs hvs => .pure (.tuple hvs)
  | set span es => exact .then fun vs => ofValue_yields fun v hv => Value.wellFormed_mkSet hv
  | dict span es =>
    have hes := entries_wellFormed fun p hp =>
      hchild p.2 (List.mem_flatMap.mpr ⟨p, hp, by simp⟩)
    exact hes.bind fun vs hvs => ofValue_yields fun v hv => Value.wellFormed_mkDict hvs hv
  | _ => exact .throw _

/-- **Every value that the evaluation of a tree returns is well-formed.** -/
theorem expr_wellFormed {sc : Scope} (hsc : sc.WellFormed) (e : Expr) :
    ∀ depth, Yields Value.WellFormed (expr sc depth e) := by
  induction e using Expr.induction with
  | step e ih => exact fun depth => expr_wellFormed_step hsc fun c hc => ih c hc (depth + 1)

theorem evaluate_wellFormed {e : Expr} {ns : Namespace} {vars : Variables}
    {options : EvalOptions} {v : Value} (hns : ns.WellFormed) (hvars : vars.WellFormed)
    (h : (evaluate e ns vars options).result = .ok v) : v.WellFormed := by
  have hsc : (Scope.mk ns vars options).WellFormed := ⟨hns, hvars⟩
  exact expr_wellFormed hsc e 0 v ⟨{}, _, Prod.ext h rfl⟩

end Eval

end SafeExpr
