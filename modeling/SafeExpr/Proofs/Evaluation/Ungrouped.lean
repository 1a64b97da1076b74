/-
  SafeExpr/Proofs/Evaluation/Ungrouped.lean
  =========================================
  **Evaluation sees through parentheses and spans.**

  Without limits, a tree and its bare tree come to the same value, or to an error of the same
  kind, and make the same calls (`expr_bare`).  Parentheses are visits of their own, so the two
  take different numbers of steps and reach different depths: only limits can tell them apart.
-/
import SafeExpr.Proofs.Evaluation.Unlimited
import SafeExpr.Proofs.Syntax.Bare

namespace SafeExpr.Eval

/-- What an evaluation comes to, without the place of an error. -/
def kindOf {α : Type} (r : Except EvalError α) : Except EvalErrorKind α :=
  r.mapError EvalError.kind

/-- Two evaluations that come to the same value, or to an error of the same kind, and make the
    same calls. -/
def Alike {α : Type} (m m' : EvalM α) : Prop :=
  ∃ r r' es es' cs, ComesTo m r es cs ∧ ComesTo m' r' es' cs ∧ kindOf r = kindOf r'

section Alike

variable {α β : Type}

theorem alike_pure (a : α) : Alike (pure a) (pure a) :=
  ⟨.ok a, .ok a, [], [], [], comesTo_pure a, comesTo_pure a, rfl⟩

theorem alike_fail (span span' : Span) (kind : EvalErrorKind) :
    Alike (fail span kind : EvalM α) (fail span' kind) :=
  ⟨_, _, [], [], [], comesTo_throw ⟨kind, span⟩, comesTo_throw ⟨kind, span'⟩, rfl⟩

theorem Alike.bind {m m' : EvalM α} {k k' : α → EvalM β} (hm : Alike m m')
    (hk : ∀ a, Alike (k a) (k' a)) : Alike (m >>= k) (m' >>= k') := by
  obtain ⟨r, r', es, es', cs, hm, hm', hr⟩ := hm
  cases r with
  | error err =>
    cases r' with
    | error err' => exact ⟨.error err, .error err', es, es', cs, hm.bind_error, hm'.bind_error,
        congrArg Except.error (Except.error.inj hr)⟩
    | ok a => cases hr
  | ok a =>
    cases r' with
    | error err' => cases hr
    | ok a' =>
      cases hr
      obtain ⟨s, s', fs, fs', ds, hka, hka', hs⟩ := hk a
      exact ⟨s, s', es ++ fs, es' ++ fs', cs ++ ds, hm.bind_ok hka, hm'.bind_ok hka', hs⟩

/-- Going on with a function of the value. -/
theorem Alike.map {m m' : EvalM α} (f : α → β) (hm : Alike m m') :
    Alike (m >>= fun a => pure (f a)) (m' >>= fun a => pure (f a)) :=
  hm.bind fun a => alike_pure (f a)

/-- What both visit first. -/
theorem Alike.visit {m m' : EvalM α} {sc : Scope} {depth depth' : Nat} {e e' : Expr}
    (hsteps : sc.options.maxSteps = none) (hdepth : depth < sc.options.maxDepth)
    (hdepth' : depth' < sc.options.maxDepth) (hm : Alike m m') :
    Alike (enter sc depth e >>= fun _ => m) (enter sc depth' e' >>= fun _ => m') := by
  obtain ⟨r, r', es, es', cs, hm, hm', hr⟩ := hm
  exact ⟨r, r', _, _, _, (comesTo_enter hsteps hdepth).bind_ok hm,
    (comesTo_enter hsteps hdepth').bind_ok hm', hr⟩

/-- A visit of one side alone. -/
theorem Alike.visit_left {m m' : EvalM α} {sc : Scope} {depth : Nat} {e : Expr}
    (hsteps : sc.options.maxSteps = none) (hdepth : depth < sc.options.maxDepth)
    (hm : Alike m m') : Alike (enter sc depth e >>= fun _ => m) m' := by
  obtain ⟨r, r', es, es', cs, hm, hm', hr⟩ := hm
  exact ⟨r, r', _, es', _, (comesTo_enter hsteps hdepth).bind_ok hm, hm', hr⟩

end Alike

/-! ### Lookups and calls -/

theorem alike_ofOperator {α : Type} (span span' : Span) (r : Except OperatorError α) :
    Alike (ofOperator span r) (ofOperator span' r) := by
  cases r with
  | ok a => exact alike_pure a
  | error err => cases err <;> exact alike_fail span span' _

theorem alike_ofValue {α : Type} (span span' : Span) (r : Except ValueError α) :
    Alike (ofValue span r) (ofValue span' r) := by
  cases r with
  | ok a => exact alike_pure a
  | error err => exact alike_fail span span' _

variable {sc : Scope}

theorem alike_resolve (name : String) (span span' : Span) :
    Alike (resolve sc name span) (resolve sc name span') := by
  unfold resolve
  split
  · exact alike_fail span span' _
  · exact alike_pure _
  · exact alike_pure _
  · exact alike_fail span span' _
  · exact alike_fail span span' _

theorem alike_resolveFunction (name : String) (span span' : Span) :
    Alike (resolveFunction sc name span) (resolveFunction sc name span') := by
  unfold resolveFunction
  split
  · exact alike_fail span span' _
  · exact alike_pure _
  · exact alike_fail span span' _
  · exact alike_fail span span' _
  · exact alike_fail span span' _

theorem alike_resolveAll (span span' : Span) (names : List String) :
    Alike (resolveAll sc span names) (resolveAll sc span' names) := by
  induction names with
  | nil => exact alike_pure []
  | cons name rest ih => exact (alike_resolve name span span').bind fun v => ih.map (v :: ·)

theorem comesTo_call (f : NativeFunction) (args : List Value) :
    ComesTo (modify fun t => { t with calls := ⟨f, args⟩ :: t.calls }) (.ok ()) []
      [⟨f, args⟩] :=
  fun t => ⟨t.steps, outcome_modify _ t⟩

theorem alike_invoke (span span' : Span) (name : String) (f : NativeFunction)
    (positional : List Value) (keywords : List (String × Value)) (implied : List Value) :
    Alike (invoke span name f positional keywords implied)
      (invoke span' name f positional keywords implied) := by
  unfold invoke
  cases f.signature.bind positional keywords implied with
  | error err => exact alike_fail span span' _
  | ok args =>
    have hcall : Alike (modify fun t => { t with calls := ⟨f, args⟩ :: t.calls })
        (modify fun t => { t with calls := ⟨f, args⟩ :: t.calls }) :=
      ⟨_, _, _, _, _, comesTo_call f args, comesTo_call f args, rfl⟩
    refine hcall.bind fun _ => ?_
    cases f.run args with
    | ok v => exact alike_pure v
    | error err => exact alike_fail span span' _

theorem alike_applyFunction (span span' : Span) (name : String) (f : NativeFunction)
    (positional : List Value) (keywords : List (String × Value)) :
    Alike (applyFunction sc span name f positional keywords)
      (applyFunction sc span' name f positional keywords) :=
  (alike_resolveAll span span' _).bind fun implied =>
    alike_invoke span span' name f positional keywords implied

/-! ### Lists of nodes -/

variable {depth depth' : Nat}

/-- The tree and its bare tree come to the same at these depths. -/
def SameBare (sc : Scope) (depth depth' : Nat) (e : Expr) : Prop :=
  Alike (expr sc depth e) (expr sc depth' e.bare)

theorem alike_items {es : List Expr} (h : ∀ e ∈ es, SameBare sc depth depth' e) :
    Alike (items sc depth es) (items sc depth' (es.map Expr.bare)) := by
  induction es with
  | nil => exact alike_pure []
  | cons e rest ih =>
    obtain ⟨he, hrest⟩ := List.forall_mem_cons.mp h
    exact he.bind fun v => (ih hrest).map (v :: ·)

theorem alike_links {ls : List (CompareOp × Expr)} (l : Value)
    (h : ∀ p ∈ ls, SameBare sc depth depth' p.2) :
    Alike (links sc depth l ls) (links sc depth' l (ls.map fun p => (p.1, p.2.bare))) := by
  induction ls generalizing l with
  | nil => exact alike_pure _
  | cons p rest ih =>
    obtain ⟨op, e⟩ := p
    obtain ⟨he, hrest⟩ := List.forall_mem_cons.mp h
    refine he.bind fun r => ?_
    refine (alike_ofOperator e.span e.bare.span (Operators.compare op l r)).bind fun holds => ?_
    cases holds with
    | true => exact ih r hrest
    | false => exact alike_pure _

theorem alike_arguments {args : List (Argument Expr)}
    (h : ∀ arg ∈ args, SameBare sc depth depth' arg.value) :
    Alike (arguments sc depth args) (arguments sc depth' (args.map Argument.bare)) := by
  induction args with
  | nil => exact alike_pure ([], [])
  | cons arg rest ih =>
    obtain ⟨harg, hrest⟩ := List.forall_mem_cons.mp h
    cases arg with
    | positional e => exact harg.bind fun v => (ih hrest).map fun pk => (v :: pk.1, pk.2)
    | keyword s n e => exact harg.bind fun v => (ih hrest).map fun pk => (pk.1, (n, v) :: pk.2)

theorem alike_entries {es : List (Expr × Expr)}
    (h : ∀ p ∈ es, SameBare sc depth depth' p.1 ∧ SameBare sc depth depth' p.2) :
    Alike (entries sc depth es) (entries sc depth' (es.map fun p => (p.1.bare, p.2.bare))) := by
  induction es with
  | nil => exact alike_pure []
  | cons p rest ih =>
    obtain ⟨k, v⟩ := p
    obtain ⟨⟨hk, hv⟩, hrest⟩ := List.forall_mem_cons.mp h
    exact hk.bind fun key => hv.bind fun value => (ih hrest).map ((key, value) :: ·)

/-! ### Trees -/

/-- A node other than parentheses, behind its visit. -/
theorem plain_bare {e : Expr} (hparen : e.isParen = false)
    (hsteps : sc.options.maxSteps = none) (hdepth : depth < sc.options.maxDepth)
    (hdepth' : depth' < sc.options.maxDepth)
    (h : ∀ c ∈ e.children, SameBare sc (depth + 1) (depth' + 1) c) :
    SameBare sc depth depth' e := by
  unfold SameBare
  cases hf : e.forbidden? with
  | some construct =>
    rw [expr_forbidden hf, expr_forbidden ((Expr.forbidden?_bare hparen).trans hf)]
    exact Alike.visit hsteps hdepth hdepth' (alike_fail _ _ _)
  | none =>
    cases e with
    | literal s v =>
      rw [Expr.bare, expr, expr]
      exact Alike.visit hsteps hdepth hdepth' (alike_pure _)
    | name s n =>
      rw [Expr.bare, expr, expr]
      exact Alike.visit hsteps hdepth hdepth' (alike_resolve n _ _)
    | unary s op x =>
      rw [Expr.bare, expr, expr]
      refine Alike.visit hsteps hdepth hdepth' ?_
      exact (h x (List.mem_singleton_self x)).bind fun v => alike_ofOperator _ _ _
    | binary s op l r =>
      rw [Expr.bare, expr, expr]
      refine Alike.visit hsteps hdepth hdepth' ?_
      exact (h l (by simp [Expr.children])).bind fun a =>
        (h r (by simp [Expr.children])).bind fun b => alike_ofOperator _ _ _
    | boolOp s op l r =>
      rw [Expr.bare, expr, expr]
      refine Alike.visit hsteps hdepth hdepth' ?_
      refine (h l (by simp [Expr.children])).bind fun a => ?_
      by_cases hdecides : decides op a = true
      · simp only [if_pos hdecides]
        exact alike_pure a
      · simp only [if_neg hdecides]
        exact h r (by simp [Expr.children])
    | compare s l ls =>
      rw [Expr.bare, Expr.bareLinks_eq, expr, expr]
      refine Alike.visit hsteps hdepth hdepth' ?_
      refine (h l List.mem_cons_self).bind fun a => alike_links a fun p hp => ?_
      exact h p.2 (List.mem_cons_of_mem l (List.mem_map_of_mem hp))
    | conditional s c yes no =>
      rw [Expr.bare, expr, expr]
      refine Alike.visit hsteps hdepth hdepth' ?_
      refine (h c (by simp [Expr.children])).bind fun v => ?_
      by_cases hc : v.truthy = true
      · simp only [if_pos hc]
        exact h yes (by simp [Expr.children])
      · simp only [if_neg hc]
        exact h no (by simp [Expr.children])
    | call s callee args =>
      rw [Expr.bare, Expr.bareArgs_eq, expr, expr]
      refine Alike.visit hsteps hdepth hdepth' ?_
      rw [Expr.asName_bare]
      cases callee.asName with
      | none => exact alike_fail _ _ _
      | some name =>
        refine (alike_resolveFunction name _ _).bind fun f => ?_
        refine (alike_arguments fun arg harg => ?_).bind fun pk => ?_
        · exact h arg.value (List.mem_cons_of_mem callee (List.mem_map_of_mem harg))
        · exact alike_applyFunction _ _ name f pk.1 pk.2
    | list s es =>
      rw [Expr.bare, Expr.bareAll_eq, expr, expr]
      exact Alike.visit hsteps hdepth hdepth' ((alike_items h).map Value.list)
    | tuple s es =>
      rw [Expr.bare, Expr.bareAll_eq, expr, expr]
      exact Alike.visit hsteps hdepth hdepth' ((alike_items h).map Value.tuple)
    | set s es =>
      rw [Expr.bare, Expr.bareAll_eq, expr, expr]
      exact Alike.visit hsteps hdepth hdepth'
        ((alike_items h).bind fun vs => alike_ofValue _ _ _)
    | dict s es =>
      rw [Expr.bare, Expr.bareEntries_eq, expr, expr]
      refine Alike.visit hsteps hdepth hdepth' ?_
      refine (alike_entries fun p hp => ?_).bind fun vs => alike_ofValue _ _ _
      have hparts : ∀ x ∈ [p.1, p.2], x ∈ (Expr.dict s es).children :=
        fun x hx => List.mem_flatMap.mpr ⟨p, hp, hx⟩
      exact ⟨h _ (hparts _ (by simp)), h _ (hparts _ (by simp))⟩
    | paren => cases hparen
    | starred s double x => cases double <;> cases hf
    | assign s op l r => cases op <;> cases hf
    | member | subscript | slice | lambda | comprehension | named | statement => cases hf

/-- **Without limits a tree comes to what its bare tree comes to**, wherever the two stand. -/
theorem expr_bare (sc : Scope) (e : Expr) (depth depth' : Nat)
    (hsteps : sc.options.maxSteps = none)
    (hdepth : depth + e.depth ≤ sc.options.maxDepth)
    (hdepth' : depth' + e.depth ≤ sc.options.maxDepth) : SameBare sc depth depth' e := by
  induction e using Expr.induction generalizing depth depth' with
  | step e ih =>
    have hheight := Expr.depth_eq e
    cases hparen : e.isParen with
    | true =>
      cases e with
      | paren s inner =>
        -- the bare tree has no node for the parentheses
        have hinner : inner ∈ (Expr.paren s inner).children := List.mem_singleton_self inner
        have hlower := Expr.depth_child_lt hinner
        unfold SameBare
        rw [Expr.bare, expr]
        exact Alike.visit_left hsteps (by omega)
          (ih inner hinner (depth + 1) depth' (by omega) (by omega))
      | _ => cases hparen
    | false =>
      refine plain_bare hparen hsteps (by omega) (by omega) fun c hc => ?_
      have hlower := Expr.depth_child_lt hc
      exact ih c hc (depth + 1) (depth' + 1) (by omega) (by omega)

end SafeExpr.Eval
