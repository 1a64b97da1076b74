/-
  SafeExpr/Proofs/Check/Checked.lean
  ==================================
  **What a compiled tree was checked for.**

  `Checked ns n` collects what the checks establish of a single node `n`: its shape is a
  permitted one, a call is a call of a name that the namespace binds, and the keywords of a
  call of a function are accepted by its signature and pairwise different.  The main
  statement is `checked_of_compile`: every node of a compiled tree is checked, wherever it
  stands in the tree.
-/
import SafeExpr.Compiled
import SafeExpr.Proofs.Except
import SafeExpr.Proofs.Evaluation.Failure

namespace SafeExpr

open Eval (Calls keywordNames)

/-- The name that a node calls, if it is a call of one. -/
def Expr.calledName? : Expr → Option String
  | .call _ callee _ => callee.asName
  | _ => none

/-- A node with which nothing is wrong, whatever the values around it. -/
structure Checked (ns : Namespace) (n : Expr) : Prop where
  permitted : n.forbidden? = none
  callee {span : Span} {callee : Expr} {args : List (Argument Expr)} :
    n = .call span callee args →
      ∃ name, callee.asName = some name ∧ ns.contains name = true
  accepts {span : Span} {name : String} {f : NativeFunction} {args : List (Argument Expr)} :
    Calls ns n span name f args →
      ∀ keyword ∈ keywordNames args, f.signature.acceptsKeyword keyword = true
  nodup {span : Span} {name : String} {f : NativeFunction} {args : List (Argument Expr)} :
    Calls ns n span name f args → (keywordNames args).Nodup

/-! ### Several checks in a row -/

theorem firstFailure_eq_ok_iff {ε : Type} {checks : List (Except ε Unit)} :
    firstFailure checks = .ok () ↔ ∀ check ∈ checks, check = .ok () := by
  induction checks with
  | nil => simp [firstFailure]
  | cons check rest ih =>
    cases check with
    | error err => simp [firstFailure]
    | ok u => simp [firstFailure, ih]

/-! ### Validation -/

/-- A node passes if its shape is permitted, a callee is a name, and its parts pass. -/
theorem validateNode_eq_ok_iff {e : Expr} {below : Expr → Except Rejection Unit} :
    e.validateNode (e.children.map below) = .ok () ↔
      e.forbidden? = none ∧
        (∀ span callee args, e = .call span callee args → callee.asName.isSome = true) ∧
          ∀ c ∈ e.children, below c = .ok () := by
  cases hf : e.forbidden? with
  | some construct => simp [Expr.validateNode, hf]
  | none =>
    cases e with
    | call span callee args =>
      simp only [Expr.validateNode, hf, Expr.children, List.map_cons, firstFailure_eq_ok_iff,
        List.forall_mem_cons, Expr.call.injEq]
      by_cases hname : callee.asName.isSome = true
      · simp only [if_pos hname, true_and, List.mem_map, forall_exists_index, and_imp]
        constructor
        · rintro ⟨hcallee, hargs⟩
          refine ⟨?_, hcallee, fun c x hx hc => hargs _ c x hx hc rfl⟩
          rintro _ _ _ - rfl -
          exact hname
        · rintro ⟨-, hcallee, hargs⟩
          refine ⟨hcallee, ?_⟩
          rintro _ c x hx hc rfl
          exact hargs c x hx hc
      · simp only [if_neg hname]
        constructor
        · rintro ⟨-, h, -⟩
          cases h
        · rintro ⟨-, h, -⟩
          exact absurd (h span callee args ⟨rfl, rfl, rfl⟩) hname
    | _ => simp [Expr.validateNode, hf, firstFailure_eq_ok_iff]

/-- **Validation reaches every node.** -/
theorem forbidden_eq_none_of_validate {e : Expr} (h : e.validate = .ok ()) :
    ∀ n ∈ e.nodes, n.forbidden? = none ∧
      ∀ span callee args, n = .call span callee args → callee.asName.isSome = true := by
  induction e using Expr.induction with
  | step e ih =>
    rw [Expr.validate, Expr.fold_eq, validateNode_eq_ok_iff] at h
    obtain ⟨hself, hcallee, hbelow⟩ := h
    intro n hn
    rw [Expr.nodes_eq, List.mem_cons, List.mem_flatMap] at hn
    rcases hn with rfl | ⟨c, hc, hn⟩
    · exact ⟨hself, hcallee⟩
    · exact ih c hc (hbelow c hc) n hn

/-! ### Calls -/

/-- Keywords that pass are accepted, different from one another and from those seen. -/
theorem checkKeywords_eq_ok {function : String} {s : Signature} {seen : List String}
    {args : List (Argument Expr)} (h : checkKeywords function s seen args = .ok ()) :
    (∀ keyword ∈ keywordNames args, s.acceptsKeyword keyword = true) ∧
      (keywordNames args).Nodup ∧ ∀ keyword ∈ keywordNames args, keyword ∉ seen := by
  induction args generalizing seen with
  | nil => exact ⟨by simp [keywordNames], List.nodup_nil, by simp [keywordNames]⟩
  | cons a rest ih =>
    cases a with
    | positional e => exact ih h
    | keyword span keyword e =>
      simp only [checkKeywords] at h
      split at h
      · cases h
      · next hseen =>
        split at h
        · cases h
        · next haccept =>
          obtain ⟨haccepts, hnodup, hfresh⟩ := ih h
          have hnames : keywordNames (.keyword span keyword e :: rest) =
              keyword :: keywordNames rest := rfl
          rw [hnames]
          refine ⟨?_, List.nodup_cons.mpr ⟨fun hmem => ?_, hnodup⟩, ?_⟩
          · rw [List.forall_mem_cons]
            exact ⟨by simpa using haccept, haccepts⟩
          · exact hfresh keyword hmem List.mem_cons_self
          · rw [List.forall_mem_cons]
            refine ⟨by simpa using hseen, fun k hk hmem => ?_⟩
            exact hfresh k hk (List.mem_cons_of_mem keyword hmem)

theorem contains_of_checkCall {ns : Namespace} {span : Span} {callee : Expr} {name : String}
    {args : List (Argument Expr)} (hname : callee.asName = some name)
    (h : Expr.checkCall ns (.call span callee args) = .ok ()) : ns.contains name = true := by
  simp only [Expr.checkCall, hname] at h
  cases hb : ns.lookup name with
  | none =>
    rw [hb] at h
    cases h
  | some b => exact Option.isSome_iff_exists.mpr ⟨b, hb⟩

theorem checkKeywords_of_checkCall {ns : Namespace} {n : Expr} {span : Span} {name : String}
    {f : NativeFunction} {args : List (Argument Expr)} (hcall : Calls ns n span name f args)
    (h : n.checkCall ns = .ok ()) : checkKeywords name f.signature [] args = .ok () := by
  obtain ⟨hname, hf⟩ := hcall
  have hb : ns.lookup name = some (.function f) := by
    unfold Namespace.function? at hf
    split at hf
    · next g hg =>
      cases hf
      exact hg
    · cases hf
  simpa [Expr.checkCall, hname, hb] using h

/-! ### Compiling -/

/-- The stages that a text has passed when it is compiled. -/
theorem stages_of_compile {source : String} {ns : Namespace} {maxDepth : Nat} {c : Compiled}
    (h : Compiled.compile source ns maxDepth = .ok c) :
    parseWith maxDepth source = .ok c.expr ∧ c.expr.validate = .ok () ∧
      c.expr.checkCalls ns = .ok () ∧ c.bound = ns ∧ c.referenced = c.expr.references ns := by
  simp only [Compiled.compile, Except.bind_eq_ok_iff, Except.mapError_eq_ok_iff] at h
  obtain ⟨e, hparse, ⟨⟩, hvalidate, ⟨⟩, hcalls, h⟩ := h
  cases h
  exact ⟨hparse, hvalidate, hcalls, rfl, rfl⟩

/-- A text that passes every stage compiles. -/
theorem compile_of_stages {source : String} {ns : Namespace} {maxDepth : Nat} {e : Expr}
    (hparse : parseWith maxDepth source = .ok e) (hvalidate : e.validate = .ok ())
    (hcalls : e.checkCalls ns = .ok ()) :
    Compiled.compile source ns maxDepth = .ok ⟨source, e, ns, e.references ns⟩ := by
  simp only [Compiled.compile, Except.bind_eq_ok_iff, Except.mapError_eq_ok_iff]
  exact ⟨e, hparse, (), hvalidate, (), hcalls, rfl⟩

/-- **Every node of a compiled tree is checked.** -/
theorem checked_of_compile {source : String} {ns : Namespace} {maxDepth : Nat} {c : Compiled}
    (h : Compiled.compile source ns maxDepth = .ok c) : ∀ n ∈ c.expr.nodes, Checked ns n := by
  obtain ⟨-, hvalidate, hcalls, -, -⟩ := stages_of_compile h
  intro n hn
  obtain ⟨hpermitted, hcallee⟩ := forbidden_eq_none_of_validate hvalidate n hn
  have hcheck : n.checkCall ns = .ok () :=
    firstFailure_eq_ok_iff.mp hcalls _ (List.mem_map_of_mem hn)
  exact {
    permitted := hpermitted
    callee := by
      rintro span callee args rfl
      obtain ⟨name, hname⟩ := Option.isSome_iff_exists.mp (hcallee span callee args rfl)
      exact ⟨name, hname, contains_of_checkCall hname hcheck⟩
    accepts := fun hcall => (checkKeywords_eq_ok (checkKeywords_of_checkCall hcall hcheck)).1
    nodup := fun hcall => (checkKeywords_eq_ok (checkKeywords_of_checkCall hcall hcheck)).2.1 }

/-! ### A small namespace -/

/-- `clamp(x, high=None)`, which looks up `low` by itself. -/
def clamp : NativeFunction where
  name := "clamp"
  signature := ((Signature.required {} "x").optional "high").implied "low"
  run
    | [.int x, .int high, .int low] => .ok (.int (max low (min x high)))
    | [.int x, .none, .int low] => .ok (.int (max low x))
    | _ => .error { message := "clamp() takes integers" }

def clampNamespace : Namespace := ⟨⟨[("clamp", .function clamp)]⟩, ["clamp"]⟩

end SafeExpr
