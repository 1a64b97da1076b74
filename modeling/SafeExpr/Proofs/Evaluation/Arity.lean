/-
  SafeExpr/Proofs/Evaluation/Arity.lean
  =====================================
  **What an arity mismatch tells about the arguments.**

  Two failures of binding are reported as an arity mismatch.  Where there are more positional
  arguments than parameters for them, their number is compared with the arity, and exceeds it.
  Where a required parameter lacks an argument, it is the number of all arguments, those by
  keyword too, and that may be any: optional parameters may have got what was passed.

  The number of positional arguments is then below the arity, if a function's required
  parameters come before its optional ones (`RequiredFirst`), as they do throughout this
  library.
-/
import SafeExpr.Library.Math
import SafeExpr.Proofs.Evaluation.Failure
import SafeExpr.Proofs.Function.Keywords

namespace SafeExpr

namespace Signature

/-! ### Counting parameters -/

/-- No optional parameter comes before a required one. -/
def RequiredFirst (params : List Param) : Prop :=
  params.Pairwise fun p q => q.kind = .required → p.kind ≠ .optional

instance (params : List Param) : Decidable (RequiredFirst params) :=
  inferInstanceAs (Decidable (params.Pairwise _))

/-- The positional arguments that reach a required parameter are less than the minimum. -/
theorem RequiredFirst.explicitBefore_lt {params : List Param} (h : RequiredFirst params) {i : Nat}
    {p : Param} (hp : params[i]? = some p) (hkind : p.kind = .required) :
    explicitBefore params i < (params.filter (·.kind = .required)).length := by
  induction params generalizing i with
  | nil => cases hp
  | cons q params ih =>
    obtain ⟨hq, hrest⟩ := List.pairwise_cons.mp h
    cases i with
    | zero =>
      cases hp
      simp [explicitBefore, hkind]
    | succ i =>
      have hlt := ih hrest hp
      have hnot : q.kind ≠ .optional := hq p (List.mem_of_getElem? hp) hkind
      rw [explicitBefore_cons_succ, List.filter_cons]
      cases hkind' : q.kind with
      | optional => exact absurd hkind' hnot
      | required => simpa [Param.isExplicit, hkind'] using hlt
      | implied => simpa [Param.isExplicit, hkind'] using hlt

/-! ### What binding reports -/

section Bind

variable {s : Signature} {ps is : List Value} {ks : List (String × Value)}

/-- Placing a keyword fails with the keyword's name. -/
theorem placeKeywords_eq_error {slots : List (Option Value)} {x : BindError}
    (h : s.placeKeywords slots ks = .error x) :
    ∃ name, x = .unexpectedKeyword name ∨ x = .duplicateArgument name := by
  induction ks generalizing slots with
  | nil => cases h
  | cons k rest ih =>
    rcases Except.bind_eq_error_iff.mp h with hk | ⟨made, -, h⟩
    · refine ⟨k.1, ?_⟩
      simp only [placeKeyword] at hk
      split at hk
      · cases hk
        exact .inl rfl
      · split at hk
        · cases hk
          exact .inl rfl
        · split at hk
          · cases hk
            exact .inr rfl
          · cases hk
    · exact ih h

/-- Too many positional arguments are more than the maximum. -/
theorem bind_eq_tooMany {expected : Arity} {found : Nat}
    (h : s.bind ps ks is = .error (.tooMany expected found)) :
    expected = s.arity ∧ found = ps.length ∧ ∃ max, s.arity.max = some max ∧ max < found := by
  rw [bind_eq] at h
  by_cases hroom : s.HasRoom ps.length
  · rw [if_neg (fun hmany => (tooMany_iff s ps).mp hmany hroom)] at h
    rcases Except.bind_eq_error_iff.mp h with hk | ⟨slots, -, h⟩
    · obtain ⟨name, hname | hname⟩ := placeKeywords_eq_error hk <;> cases hname
    · rcases Except.bind_eq_error_iff.mp h with hc | ⟨args, -, h⟩
      · obtain ⟨name, hname⟩ := completeSlots_error hc
        cases hname
      · cases h
  · rw [if_pos ((tooMany_iff s ps).mpr hroom)] at h
    cases h
    obtain ⟨hvariadic, hmany⟩ := not_or.mp hroom
    refine ⟨rfl, rfl, s.params.countP Param.isExplicit, ?_, Nat.lt_of_not_le hmany⟩
    simp [arity, hvariadic, List.countP_eq_length_filter]

/-- Of `n` positional arguments, and keywords of these names, none is for the parameter at
    position `i`. -/
def Unpassed (s : Signature) (n : Nat) (names : List String) (i : Nat) : Prop :=
  n ≤ explicitBefore s.params i ∧
    ∀ name ∈ names, s.params.findIdx? (·.name = name) ≠ some i

/-- What is missing is an argument for a required parameter. -/
theorem bind_eq_missing (hcount : is.length = s.impliedNames.length) {name : String}
    (h : s.bind ps ks is = .error (.missing name)) :
    ∃ (i : Nat) (p : Param), s.params[i]? = some p ∧ p.name = name ∧ p.kind = .required ∧
      s.Unpassed ps.length (ks.map Prod.fst) i := by
  rw [length_impliedNames] at hcount
  rw [bind_eq] at h
  split at h
  · cases h
  · rcases Except.bind_eq_error_iff.mp h with hk | ⟨slots, hslots, h⟩
    · obtain ⟨name, hname | hname⟩ := placeKeywords_eq_error hk <;> cases hname
    · rcases Except.bind_eq_error_iff.mp h with hc | ⟨args, -, h⟩
      · obtain ⟨i, p, hp, hname, hlacks, -⟩ := lacks_of_completeSlots hc
        cases hname
        rcases hlacks with ⟨himplied, hnone⟩ | ⟨hrequired, hnone⟩
        · have hlt := impliedBefore_lt hp himplied
          rw [List.drop_eq_nil_iff] at hnone
          omega
        · have hempty : ∀ v, slots[i]? ≠ some (some v) := by
            intro v hv
            rw [hv, Option.join_some] at hnone
            cases hnone
          refine ⟨i, p, hp, rfl, hrequired, Nat.le_of_not_lt fun hlt => ?_, fun name hname hi => ?_⟩
          · -- a positional argument would be in the slot
            refine hempty _ (getElem?_of_placeKeywords hslots (v := ps[explicitBefore s.params i]) ?_)
            rw [getElem?_placePositional, hp]
            simp [Param.isExplicit, hrequired, hlt]
          · obtain ⟨⟨name, v⟩, hk, rfl⟩ := List.mem_map.mp hname
            obtain ⟨-, j, hj, hv⟩ :=
              slot_of_placeKeywords hslots (length_placePositional s.params ps) hk
            cases hi.symm.trans hj
            exact hempty v hv
      · cases h

end Bind

end Signature

namespace Eval

/-! ### Evaluation -/

/-- Each argument is passed by position or by keyword. -/
theorem positionalCount_add_keywordNames (args : List (Argument Expr)) :
    positionalCount args + (keywordNames args).length = args.length := by
  induction args with
  | nil => rfl
  | cons a rest ih =>
    rw [List.length_cons, ← ih]
    cases a with
    | positional e =>
      have hone : positionalCount (.positional e :: rest) = positionalCount rest + 1 :=
        List.countP_cons_of_pos rfl
      rw [hone, Nat.add_right_comm]
      rfl
    | keyword span n e => rfl

/-- What an arity mismatch at a call of a function with this signature is about. -/
inductive Mismatch (s : Signature) (args : List (Argument Expr)) (found : Nat) : Prop
  /-- There are more positional arguments than the function takes. -/
  | tooMany (hfound : found = positionalCount args) {max : Nat} (hmax : s.arity.max = some max)
    (h : max < found)
  /-- A required parameter lacks an argument, and all arguments are counted. -/
  | missing (hfound : found = args.length) {i : Nat} {p : Param} (hp : s.params[i]? = some p)
    (hkind : p.kind = .required)
    (h : s.Unpassed (positionalCount args) (keywordNames args) i)

/-- If required parameters come first, the number of positional arguments is none that the
    function takes, whatever number is reported. -/
theorem Mismatch.positionalCount_out {s : Signature} {args : List (Argument Expr)} {found : Nat}
    (h : Mismatch s args found) (hfirst : Signature.RequiredFirst s.params) :
    positionalCount args < s.arity.min ∨
      ∃ max, s.arity.max = some max ∧ max < positionalCount args := by
  cases h with
  | tooMany hfound hmax h => exact .inr ⟨_, hmax, hfound ▸ h⟩
  | missing _ hp hkind h => exact .inl (Nat.lt_of_le_of_lt h.1 (hfirst.explicitBefore_lt hp hkind))

/-- Without keywords, that is the number reported. -/
theorem Mismatch.found_eq {s : Signature} {args : List (Argument Expr)} {found : Nat}
    (h : Mismatch s args found) (hkeywords : keywordNames args = []) :
    found = positionalCount args := by
  cases h with
  | tooMany hfound => exact hfound
  | missing hfound =>
    rw [hfound, ← positionalCount_add_keywordNames, hkeywords, List.length_nil, Nat.add_zero]

/-- What a node raises by itself is not about the number of arguments. -/
theorem not_arityMismatch_of_ownError {n : Expr} {err : EvalError} (h : OwnError n err)
    (name : String) (expected : Arity) (found : Nat) :
    err.kind ≠ .arityMismatch name expected found := by
  intro hkind
  cases h with
  | @unary _ _ _ _ err | @binary _ _ _ _ _ _ err | @compare _ _ _ _ _ _ _ err =>
    cases err <;> cases hkind
  | set | dict | indirect | forbidden => cases hkind

/-- A node that fails with an arity mismatch is a call. -/
theorem mismatch_of_fails {sc : Scope} {d : Nat} {t : Trace} {n : Expr} {err : EvalError}
    {name : String} {expected : Arity} {found : Nat} (h : Fails sc d t n err)
    (hkind : err.kind = .arityMismatch name expected found) :
    ∃ f args, Calls sc.namespaces n err.span name f args ∧ expected = f.signature.arity ∧
      Mismatch f.signature args found := by
  cases h with
  | overflow | steps | backend => cases hkind
  | own herr => exact absurd hkind (not_arityMismatch_of_ownError herr _ _ _)
  | name hname => cases hname <;> cases hkind
  | callee _ herr => cases herr <;> cases hkind
  | implied _ _ hname => cases hname <;> cases hkind
  | @bind _ _ _ f args ps ks is x hcall hps hks his hx =>
    cases x with
    | unexpectedKeyword | duplicateArgument => cases hkind
    | tooMany =>
      cases hkind
      obtain ⟨harity, hfound, max, hmax, hlt⟩ := Signature.bind_eq_tooMany hx
      exact ⟨f, args, hcall, harity, .tooMany (hfound.trans hps) hmax hlt⟩
    | missing =>
      cases hkind
      obtain ⟨i, p, hp, -, hrequired, hunpassed⟩ := Signature.bind_eq_missing his hx
      rw [hps, hks] at hunpassed
      refine ⟨f, args, hcall, rfl, .missing ?_ hp hrequired hunpassed⟩
      rw [hps, ← positionalCount_add_keywordNames, ← hks, List.length_map]

/-- **An arity mismatch.**  It comes from a call, with the arity of the function called, and
    there are too many positional arguments or too few for the required parameters. -/
theorem mismatch_of_evaluate {e : Expr} {ns : Namespace} {vars : Variables}
    {options : EvalOptions} {name : String} {expected : Arity} {found : Nat} {span : Span}
    (h : (evaluate e ns vars options).result = .error ⟨.arityMismatch name expected found, span⟩) :
    ∃ n ∈ e.nodes, ∃ f args, Calls ns n span name f args ∧ expected = f.signature.arity ∧
      Mismatch f.signature args found := by
  obtain ⟨n, hn, d, t, -, hfails⟩ := evaluate_fails h
  exact ⟨n, hn, mismatch_of_fails hfails rfl⟩

/-- The functions of this library have their required parameters first. -/
theorem requiredFirst_of_library :
    ∀ f ∈ builtins ++ MathModule.functions, Signature.RequiredFirst f.signature.params := by
  decide

/-- `pow(2, mod=3)`: both arguments are counted, and two are as many as `pow` takes. -/
example :
    let call : Expr := .call ⟨0, 13⟩ (.name ⟨0, 3⟩ "pow")
      [.positional (.literal ⟨4, 5⟩ (.int 2)), .keyword ⟨7, 12⟩ "mod" (.literal ⟨11, 12⟩ (.int 3))]
    (evaluate call ⟨.ofList (builtins.map fun f => (f.name, .function f)), []⟩ {} {}).result =
      .error ⟨.arityMismatch "pow" ⟨2, some 3⟩ 2, ⟨0, 13⟩⟩ := by
  rfl

end Eval

end SafeExpr
