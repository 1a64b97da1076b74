/-
  SafeExpr/Proofs/Check/Offences.lean
  ===================================
  **Which offence validation reports.**

  `Expr.offences` lists all that is wrong with a tree in pre-order: the nodes of a forbidden
  kind, without what stands in them, and the callees that are no names, each before what it
  contains.  A tree passes if the list is empty (`validate_eq_ok_iff_offences`), and else the
  first offence on the list is reported, with one exception: a callee that is no name is
  reported only if nothing within it is refused (`validate_first_offence`).
-/
import SafeExpr.Proofs.Check.Checked

namespace SafeExpr

namespace Expr

/-- The callee of a node, if it is neither a name nor itself of a forbidden kind. -/
def indirectCallee? : Expr → Option Expr
  | .call _ callee _ =>
    if callee.forbidden?.isNone && callee.asName.isNone then some callee else none
  | _ => none

/-- The refusal of a callee that is no name. -/
def indirectly (callee : Expr) : Rejection := ⟨.forbidden .indirectCall, callee.span⟩

/-- All offences of a tree in pre-order. -/
def offences : Expr → List Rejection :=
  fold fun e below =>
    match e.forbidden? with
    | some construct => [⟨.forbidden construct, e.span⟩]
    | none => e.indirectCallee?.toList.map indirectly ++ below.flatten

theorem offences_of_forbidden {e : Expr} {construct : Construct}
    (h : e.forbidden? = some construct) : e.offences = [⟨.forbidden construct, e.span⟩] := by
  rw [offences, fold_eq, h]

theorem offences_of_permitted {e : Expr} (h : e.forbidden? = none) :
    e.offences = e.indirectCallee?.toList.map indirectly ++ e.children.flatMap offences := by
  rw [List.flatMap_def]
  unfold offences
  rw [fold_eq, h]

theorem validate_of_forbidden {e : Expr} {construct : Construct}
    (h : e.forbidden? = some construct) :
    e.validate = .error ⟨.forbidden construct, e.span⟩ := by
  rw [validate, fold_eq]
  simp only [validateNode, h]

/-- A permitted node other than a call passes if its parts do. -/
theorem validate_of_permitted {e : Expr} (h : e.forbidden? = none)
    (hcall : ∀ span callee args, e ≠ .call span callee args) :
    e.validate = firstFailure (e.children.map validate) := by
  unfold validate
  rw [fold_eq]
  cases e with
  | call span callee args => exact absurd rfl (hcall span callee args)
  | _ => simp only [validateNode, h]

/-- At a call the callee comes first, then whether it is a name, then the arguments. -/
theorem validate_call {span : Span} {callee : Expr} {args : List (Argument Expr)} :
    (call span callee args).validate = firstFailure (callee.validate ::
      (if callee.asName.isSome then .ok () else .error ⟨.forbidden .indirectCall, callee.span⟩) ::
        (args.map Argument.value).map validate) := by
  unfold validate
  rw [fold_eq]
  rfl

/-! ### The outcome and the offences -/

/-- The outcome of checking a part of a tree with these nodes and these offences. -/
structure Judged (nodes : List Expr) (outcome : Except Rejection Unit)
    (offences : List Rejection) : Prop where
  passes : outcome = .ok () ↔ offences = []
  /-- What stands within a callee is looked at before the callee itself. -/
  first : ∀ r ∈ offences.head?, outcome = .error r ∨
    ∃ n ∈ nodes, ∃ callee, n.indirectCallee? = some callee ∧ r = callee.indirectly ∧
      callee.offences ≠ [] ∧ outcome = callee.validate

namespace Judged

variable {nodes nodes' : List Expr} {outcome : Except Rejection Unit}
  {offences offences' : List Rejection}

theorem refused_ne_ok {r : Rejection} : (.error r : Except Rejection Unit) ≠ .ok () := by
  intro h
  cases h

theorem passed : Judged nodes (.ok ()) [] := by
  refine ⟨iff_of_true rfl rfl, fun r hr => ?_⟩
  cases hr

theorem refused {r reported : Rejection} (hfirst : r = reported ∨
      ∃ n ∈ nodes, ∃ callee, n.indirectCallee? = some callee ∧ r = callee.indirectly ∧
        callee.offences ≠ [] ∧ callee.validate = .error reported) :
    Judged nodes (.error reported) (r :: offences) := by
  refine ⟨iff_of_false refused_ne_ok (List.cons_ne_nil r offences), fun r' hr' => ?_⟩
  cases hr'
  refine hfirst.imp (fun h => by rw [h]) ?_
  rintro ⟨n, hn, callee, hcallee, hr, hne, hvalid⟩
  exact ⟨n, hn, callee, hcallee, hr, hne, hvalid.symm⟩

theorem mono (h : Judged nodes outcome offences) (hle : nodes ⊆ nodes') :
    Judged nodes' outcome offences := by
  refine ⟨h.passes, fun r hr => (h.first r hr).imp_right ?_⟩
  rintro ⟨n, hn, hcallee⟩
  exact ⟨n, hle hn, hcallee⟩

/-- One part of a tree before others. -/
theorem cons {outcomes : List (Except Rejection Unit)} (h : Judged nodes outcome offences)
    (hrest : Judged nodes (firstFailure outcomes) offences') :
    Judged nodes (firstFailure (outcome :: outcomes)) (offences ++ offences') := by
  cases outcome with
  | ok u =>
    rw [h.passes.mp rfl]
    exact hrest
  | error r =>
    have hne : offences ≠ [] := fun hnil => refused_ne_ok (h.passes.mpr hnil)
    refine ⟨iff_of_false refused_ne_ok fun hnil => hne (List.append_eq_nil_iff.mp hnil).1, ?_⟩
    rw [List.head?_append_of_ne_nil _ hne]
    exact h.first

end Judged

theorem judged_children {nodes cs : List Expr}
    (h : ∀ c ∈ cs, Judged nodes c.validate c.offences) :
    Judged nodes (firstFailure (cs.map validate)) (cs.flatMap offences) := by
  induction cs with
  | nil => exact .passed
  | cons c cs ih =>
    obtain ⟨hc, hcs⟩ := List.forall_mem_cons.mp h
    exact hc.cons (ih hcs)

/-- The callee is looked at first, then whether it is a name. -/
theorem judged_call {span : Span} {callee : Expr} {args : List (Argument Expr)}
    {nodes : List Expr} (hself : .call span callee args ∈ nodes)
    (h : ∀ c ∈ (call span callee args).children, Judged nodes c.validate c.offences) :
    Judged nodes (call span callee args).validate (call span callee args).offences := by
  obtain ⟨hcallee, hargs⟩ := List.forall_mem_cons.mp h
  have hchildren := judged_children h
  rw [validate_call, offences_of_permitted rfl]
  by_cases hname : callee.asName.isSome = true
  · -- a name is no offence
    have hnone : (call span callee args).indirectCallee? = none := by
      simp [indirectCallee?, ← Option.not_isSome, hname]
    rw [if_pos hname, hnone]
    cases hvalid : callee.validate with
    | ok u => simpa [children, firstFailure, hvalid] using hchildren
    | error r => simpa [children, firstFailure, hvalid] using hchildren
  · rw [if_neg hname]
    cases hf : callee.forbidden? with
    | some construct =>
      -- the callee is refused for its own kind
      have hnone : (call span callee args).indirectCallee? = none := by
        simp [indirectCallee?, hf]
      have hvalid := validate_of_forbidden hf
      rw [hnone]
      simpa [children, firstFailure, hvalid] using hchildren
    | none =>
      have hsome : (call span callee args).indirectCallee? = some callee := by
        simpa [indirectCallee?, hf] using hname
      rw [hsome]
      cases hvalid : callee.validate with
      | ok u => exact .refused (Or.inl rfl)
      | error r =>
        have hne : callee.offences ≠ [] := fun hnil => by
          rw [hcallee.passes.mpr hnil] at hvalid
          cases hvalid
        exact .refused (Or.inr ⟨_, hself, callee, hsome, rfl, hne, hvalid⟩)

/-- **The outcome for a tree and its offences.** -/
theorem judged (e : Expr) : Judged e.nodes e.validate e.offences := by
  induction e using Expr.induction with
  | step e ih =>
    have hchildren : ∀ c ∈ e.children, Judged e.nodes c.validate c.offences :=
      fun c hc => (ih c hc).mono fun n hn => mem_nodes_of_child hc hn
    cases hf : e.forbidden? with
    | some construct =>
      rw [validate_of_forbidden hf, offences_of_forbidden hf]
      exact .refused (Or.inl rfl)
    | none =>
      cases e with
      | call span callee args => exact judged_call (mem_nodes_self _) hchildren
      | _ =>
        rw [validate_of_permitted hf (by intro _ _ _ h; cases h), offences_of_permitted hf]
        exact judged_children hchildren

/-! ### What is reported -/

/-- A tree is accepted just if it has no offence. -/
theorem validate_eq_ok_iff_offences {e : Expr} : e.validate = .ok () ↔ e.offences = [] :=
  e.judged.passes

/-- **The first offence is reported**, unless it is a callee that is no name, and something
    within this callee is refused: then what is refused within the callee is reported. -/
theorem validate_first_offence {e : Expr} {r : Rejection} (h : r ∈ e.offences.head?) :
    e.validate = .error r ∨
      ∃ n ∈ e.nodes, ∃ callee, n.indirectCallee? = some callee ∧ r = callee.indirectly ∧
        callee.offences ≠ [] ∧ e.validate = callee.validate :=
  e.judged.first r h

/-- The exception does occur: at every call of what is no name and contains an offence. -/
theorem validate_call_of_offence {span : Span} {callee : Expr} {args : List (Argument Expr)}
    (hindirect : (call span callee args).indirectCallee? = some callee)
    (hoffence : callee.offences ≠ []) :
    (call span callee args).offences.head? = some callee.indirectly ∧
      (call span callee args).validate = callee.validate := by
  refine ⟨?_, ?_⟩
  · rw [offences_of_permitted rfl, hindirect]
    rfl
  · rw [validate_call]
    cases hvalid : callee.validate with
    | ok u => exact absurd (validate_eq_ok_iff_offences.mp hvalid) hoffence
    | error r => rfl

/-- `f(x.y)(1)`: the callee `f(x.y)` is the first offence, and `x.y` is reported. -/
example :
    let inner : Expr := .member ⟨2, 5⟩ (.name ⟨2, 3⟩ "x") "y"
    let callee : Expr := .call ⟨0, 6⟩ (.name ⟨0, 1⟩ "f") [.positional inner]
    let e : Expr := .call ⟨0, 9⟩ callee [.positional (.literal ⟨7, 8⟩ (.int 1))]
    e.offences = [⟨.forbidden .indirectCall, ⟨0, 6⟩⟩, ⟨.forbidden .memberAccess, ⟨2, 5⟩⟩] ∧
      e.validate = .error ⟨.forbidden .memberAccess, ⟨2, 5⟩⟩ := by
  decide

end Expr

end SafeExpr
