/-
  SafeExpr/Proofs/Check/Ungrouped.lean
  ====================================
  **The checks see through parentheses and spans.**

  What a tree is refused for, and which names it refers to, can be read off its bare tree.
  Only the span of a refusal tells where the tree stood.
-/
import SafeExpr.Proofs.Check.Offences
import SafeExpr.Proofs.Syntax.Bare

namespace SafeExpr

/-! ### Several checks in a row -/

section FirstFailure

variable {ε ε' : Type}

/-- What is read off the failures changes nothing about which is the first. -/
theorem firstFailure_mapError (f : ε → ε') (checks : List (Except ε Unit)) :
    (firstFailure checks).mapError f = firstFailure (checks.map (Except.mapError f)) := by
  induction checks with
  | nil => rfl
  | cons check rest ih =>
    cases check with
    | error err => rfl
    | ok u => exact ih

/-- Checks that always pass can be left out. -/
theorem firstFailure_filter {α : Type} {check : α → Except ε Unit} {p : α → Bool} {xs : List α}
    (h : ∀ x ∈ xs, p x = false → check x = .ok ()) :
    firstFailure ((xs.filter p).map check) = firstFailure (xs.map check) := by
  induction xs with
  | nil => rfl
  | cons x xs ih =>
    obtain ⟨hx, hxs⟩ := List.forall_mem_cons.mp h
    cases hp : p x with
    | true =>
      rw [List.filter_cons_of_pos hp, List.map_cons, List.map_cons]
      cases hcheck : check x with
      | error err => rfl
      | ok u => exact ih hxs
    | false =>
      rw [List.filter_cons_of_neg (by simp [hp]), List.map_cons, hx hp]
      exact ih hxs

end FirstFailure

/-- The outcome of a check, without the place of the failure. -/
def reasonOf (outcome : Except Rejection Unit) : Except RejectionReason Unit :=
  outcome.mapError Rejection.reason

theorem reasonOf_firstFailure (checks : List (Except Rejection Unit)) :
    reasonOf (firstFailure checks) = firstFailure (checks.map reasonOf) :=
  firstFailure_mapError _ checks

namespace Expr

/-! ### Validation -/

theorem validate_paren (s : Span) (inner : Expr) :
    (paren s inner).validate = inner.validate := by
  rw [validate_of_permitted rfl (by intro _ _ _ h; cases h)]
  change firstFailure [inner.validate] = inner.validate
  cases inner.validate <;> rfl

/-- Whether a callee is a name. -/
theorem reasonOf_named (callee : Expr) (span : Span) :
    reasonOf (if callee.asName.isSome then .ok () else .error ⟨.forbidden .indirectCall, span⟩) =
      if callee.asName.isSome then .ok () else .error (.forbidden .indirectCall) := by
  cases callee.asName <;> rfl

/-- **Validation sees through parentheses.** -/
theorem validate_bare (e : Expr) : reasonOf e.bare.validate = reasonOf e.validate := by
  induction e using Expr.induction with
  | step e ih =>
    cases hparen : e.isParen with
    | true =>
      cases e with
      | paren s inner =>
        rw [validate_paren]
        exact ih inner (List.mem_singleton_self inner)
      | _ => cases hparen
    | false =>
      have hparts : e.bare.children.map (fun c => reasonOf c.validate) =
          e.children.map fun c => reasonOf c.validate := by
        rw [children_bare hparen, List.map_map]
        exact List.map_congr_left ih
      have hforbidden := forbidden?_bare hparen
      cases hf : e.forbidden? with
      | some construct =>
        rw [validate_of_forbidden hf, validate_of_forbidden (hforbidden.trans hf)]
        rfl
      | none =>
        cases e with
        | paren => cases hparen
        | call s callee args =>
          simp only [bare, children, List.map_cons, List.map_map, List.cons.injEq,
            Function.comp_def] at hparts
          rw [bare, validate_call, validate_call, reasonOf_firstFailure, reasonOf_firstFailure]
          simp only [List.map_cons, List.map_map, reasonOf_named, asName_bare, Function.comp_def]
          rw [hparts.1, hparts.2]
        | _ =>
          rw [validate_of_permitted hf (by intro _ _ _ h; cases h),
            validate_of_permitted (hforbidden.trans hf) (by intro _ _ _ h; cases h),
            reasonOf_firstFailure, reasonOf_firstFailure, List.map_map, List.map_map]
          exact congrArg firstFailure hparts

/-! ### Calls -/

theorem checkKeywords_bare (function : String) (signature : Signature) (seen : List String)
    (args : List (Argument Expr)) :
    reasonOf (checkKeywords function signature seen (args.map Argument.bare)) =
      reasonOf (checkKeywords function signature seen args) := by
  induction args generalizing seen with
  | nil => rfl
  | cons arg rest ih =>
    cases arg with
    | positional e => exact ih seen
    | keyword s name e =>
      simp only [List.map_cons, Argument.bare, checkKeywords]
      split
      · rfl
      · split
        · rfl
        · exact ih (name :: seen)

theorem checkCall_bare (ns : Namespace) {n : Expr} (h : n.isParen = false) :
    reasonOf (n.bare.checkCall ns) = reasonOf (n.checkCall ns) := by
  cases n with
  | paren => cases h
  | call s callee args =>
    simp only [bare, checkCall, asName_bare, bareArgs_eq]
    cases callee.asName with
    | none => rfl
    | some called =>
      dsimp only
      cases ns.lookup called with
      | none => rfl
      | some binding =>
        cases binding with
        | value v => rfl
        | function f => exact checkKeywords_bare called f.signature [] args
  | _ => rfl

/-- **The check of calls sees through parentheses.** -/
theorem checkCalls_bare (ns : Namespace) (e : Expr) :
    reasonOf (e.bare.checkCalls ns) = reasonOf (e.checkCalls ns) := by
  have hparens : ∀ n ∈ e.nodes, (!n.isParen) = false → n.checkCall ns = .ok () := by
    intro n _ hn
    cases n with
    | paren => rfl
    | _ => cases hn
  have hsame : ((e.nodes.filter fun n => !n.isParen).map bare).map
      (fun n => reasonOf (n.checkCall ns)) =
        (e.nodes.filter fun n => !n.isParen).map fun n => reasonOf (n.checkCall ns) := by
    rw [List.map_map]
    refine List.map_congr_left fun n hn => checkCall_bare ns ?_
    simpa using (List.mem_filter.mp hn).2
  calc reasonOf (e.bare.checkCalls ns)
      = firstFailure (e.bare.nodes.map fun n => reasonOf (n.checkCall ns)) := by
        rw [checkCalls, reasonOf_firstFailure, List.map_map]
        rfl
    _ = firstFailure ((e.nodes.filter fun n => !n.isParen).map fun n =>
          reasonOf (n.checkCall ns)) := by
        rw [nodes_bare, hsame]
    _ = reasonOf (e.checkCalls ns) := by
        rw [checkCalls, ← firstFailure_filter hparens, reasonOf_firstFailure, List.map_map]
        rfl

/-! ### Names -/

/-- What only other nodes than parentheses contribute is the same for the bare tree. -/
theorem flatMap_nodes_bare {α : Type} {f : Expr → List α} (e : Expr)
    (hparen : ∀ s inner, f (.paren s inner) = [])
    (h : ∀ n ∈ e.nodes, n.isParen = false → f n.bare = f n) :
    e.bare.nodes.flatMap f = e.nodes.flatMap f := by
  rw [nodes_bare, List.flatMap_map]
  generalize e.nodes = ns at h
  induction ns with
  | nil => rfl
  | cons n ns ih =>
    obtain ⟨hn, hns⟩ := List.forall_mem_cons.mp h
    cases hp : n.isParen with
    | true =>
      rw [List.filter_cons_of_neg (by simp [hp]), ih hns, List.flatMap_cons]
      cases n with
      | paren s inner => rw [hparen, List.nil_append]
      | _ => cases hp
    | false =>
      rw [List.filter_cons_of_pos (by simp [hp]), List.flatMap_cons, List.flatMap_cons, hn hp,
        ih hns]

/-- **The names that are written are those of the bare tree.** -/
theorem names_bare (e : Expr) :
    e.bare.nodes.filterMap nameOf? = e.nodes.filterMap nameOf? := by
  simp only [List.filterMap_eq_flatMap_toList]
  exact flatMap_nodes_bare e (fun _ _ => rfl) fun n _ hn => by rw [nameOf?_bare hn]

theorem impliedBy_bare (ns : Namespace) {n : Expr} (h : n.isParen = false) :
    n.bare.impliedBy ns = n.impliedBy ns := by
  cases n with
  | paren => cases h
  | call s callee args => simp only [bare, impliedBy, asName_bare]
  | _ => rfl

theorem references_bare (ns : Namespace) (e : Expr) :
    e.bare.references ns = e.references ns := by
  rw [references, references, names_bare,
    flatMap_nodes_bare e (fun _ _ => rfl) fun n _ hn => impliedBy_bare ns hn]

end Expr

end SafeExpr
