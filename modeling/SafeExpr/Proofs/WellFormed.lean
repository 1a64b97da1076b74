/-
  SafeExpr/Proofs/WellFormed.lean
  ===============================
  **Every value of the program is well-formed.**

  Sets and dicts come from displays, from operators and functions, and from JSON text.
  None of these makes one with an unhashable or a repeated key out of values that have none.
-/
import SafeExpr.Proofs.Evaluation.WellFormed
import SafeExpr.Proofs.Json.WellFormed

namespace SafeExpr

/-! ### Namespaces -/

def Module.WellFormed (m : Module) : Prop := m.bindings.Holds Binding.WellFormed

section Modules

variable {P : Binding → Prop} {m : Module}

theorem Module.holds_constants {cs : List (String × Double)} (hm : m.bindings.Holds P)
    (hfloat : ∀ x, P (.value (.float x))) :
    (cs.foldl (fun m (name, x) => m.constant name (.float x)) m).bindings.Holds P := by
  induction cs generalizing m with
  | nil => exact hm
  | cons c rest ih => exact ih (hm.insert c.1 (hfloat c.2))

theorem Module.holds_functions {fs : List NativeFunction} (hm : m.bindings.Holds P)
    (hfs : ∀ f ∈ fs, P (.function f)) : (fs.foldl Module.function m).bindings.Holds P := by
  induction fs generalizing m with
  | nil => exact hm
  | cons f rest ih =>
    obtain ⟨hf, hrest⟩ := List.forall_mem_cons.mp hfs
    exact ih (hm.insert f.name hf) hrest

theorem Module.bindings_declareAll (m : Module) : m.declareAll.bindings = m.bindings := rfl

/-- The math module has floats and functions. -/
theorem mathModule_holds (hfloat : ∀ x, P (.value (.float x)))
    (hfunctions : ∀ f ∈ MathModule.functions, P (.function f)) : mathModule.bindings.Holds P := by
  rw [mathModule, Module.bindings_declareAll]
  exact Module.holds_functions (Module.holds_constants .empty hfloat) hfunctions

end Modules

theorem mathModule_wellFormed : mathModule.WellFormed :=
  mathModule_holds .float MathModule.functions_keepWellFormed

namespace Namespace

variable {P : Binding → Prop} {made made' : Table Binding}

theorem holds_of_addExports {m : Module} {names : List String} (hm : m.bindings.Holds P)
    (hmade : made.Holds P) (h : names.foldlM (addExport m) made = .ok made') :
    made'.Holds P := by
  induction names generalizing made with
  | nil =>
    cases h
    exact hmade
  | cons name rest ih =>
    rw [List.foldlM_cons] at h
    obtain ⟨next, hnext, h⟩ := Except.bind_eq_ok_iff.mp h
    refine ih ?_ h
    unfold addExport at hnext
    split at hnext
    · cases hnext
    · split at hnext
      · cases hnext
      · split at hnext
        · cases hnext
        · split at hnext
          · next b hb =>
            cases hnext
            exact hmade.insert name (hm name b hb)
          · cases hnext

/-- Only builtin functions can be selected. -/
theorem subset_of_selected {selection : BuiltinSelection} {fs : List NativeFunction}
    (h : selected selection = .ok fs) : fs ⊆ builtins := by
  cases selection with
  | all =>
    cases h
    exact List.Subset.refl _
  | nothing =>
    cases h
    exact List.nil_subset _
  | only names =>
    change names.mapM selectBuiltin = .ok fs at h
    induction names generalizing fs with
    | nil =>
      cases h
      exact List.nil_subset _
    | cons name rest ih =>
      rw [List.mapM_cons] at h
      obtain ⟨f, hf, h⟩ := Except.bind_eq_ok_iff.mp h
      obtain ⟨gs, hgs, h⟩ := Except.bind_eq_ok_iff.mp h
      cases h
      refine List.cons_subset.mpr ⟨?_, ih hgs⟩
      unfold selectBuiltin at hf
      split at hf
      · cases hf
      · split at hf
        · next hfind =>
          cases hf
          exact List.mem_of_find?_eq_some hfind
        · cases hf

theorem holds_addBuiltins {fs : List NativeFunction} (hmade : made.Holds P)
    (hfs : ∀ f ∈ fs, P (.function f)) : (fs.foldl addBuiltin made).Holds P := by
  induction fs generalizing made with
  | nil => exact hmade
  | cons f rest ih =>
    obtain ⟨hf, hrest⟩ := List.forall_mem_cons.mp hfs
    refine ih ?_ hrest
    unfold addBuiltin
    split
    · exact hmade
    · exact hmade.insert f.name hf

/-- A namespace has only what its module and the builtin functions have. -/
theorem holds_of_build {m : Module} {selection : BuiltinSelection} {ns : Namespace}
    (hm : m.bindings.Holds P) (hbuiltins : ∀ f ∈ builtins, P (.function f))
    (h : build m selection = .ok ns) : ns.bindings.Holds P := by
  obtain ⟨exports, -, h⟩ := Except.bind_eq_ok_iff.mp h
  obtain ⟨made, hmade, h⟩ := Except.bind_eq_ok_iff.mp h
  obtain ⟨chosen, hchosen, h⟩ := Except.bind_eq_ok_iff.mp h
  cases h
  apply holds_addBuiltins (holds_of_addExports hm .empty hmade)
  intro f hf
  exact hbuiltins f (subset_of_selected hchosen hf)

/-- A namespace is well-formed if the module is that it is built from. -/
theorem wellFormed_of_build {m : Module} {selection : BuiltinSelection} {ns : Namespace}
    (hm : m.WellFormed) (h : build m selection = .ok ns) : ns.WellFormed :=
  holds_of_build hm builtins_keepWellFormed h

end Namespace

/-! ### Values -/

/-- **Sets and dicts are well-formed, wherever they come from.**  The functions of the
    library keep values well-formed.  So does the evaluation of any tree, checked or not,
    if the functions and values that it finds do.  JSON text has only well-formed values. -/
theorem values_wellFormed :
    (∀ f ∈ builtins ++ MathModule.functions, f.KeepsWellFormed) ∧
    (∀ (ns : Namespace) (vars : Variables), ns.WellFormed → vars.WellFormed →
      ∀ (e : Expr) (options : EvalOptions) (v : Value),
        (evaluate e ns vars options).result = .ok v → v.WellFormed) ∧
    ∀ (text : String) (v : Value), Value.ofJson? text = some v → v.WellFormed := by
  refine ⟨?_, ?_, ?_⟩
  · exact List.forall_mem_append.mpr ⟨builtins_keepWellFormed, MathModule.functions_keepWellFormed⟩
  · exact fun ns vars hns hvars e options v h => Eval.evaluate_wellFormed hns hvars h
  · exact fun text v h => Value.wellFormed_ofJson h

/-- A symmetric difference of sets whose elements are equal across types, chosen from a
    list, and a JSON object that has a name twice. -/
theorem values_wellFormed_mixed :
    let largest := Library.native "max" .anyNumber (Builtins.extremum "max" .gt)
    let ns : Namespace := ⟨Table.insert {} "max" (.function largest), []⟩
    let vars : Variables := Table.insert {} "x" (.float (.ofInt 3))
    -- max([{1, 2} ^ {True, x}])
    let e : Expr := .call ⟨0, 25⟩ (.name ⟨0, 3⟩ "max") [.positional (.list ⟨4, 24⟩ [
      .binary ⟨5, 23⟩ .bitXor
        (.set ⟨5, 11⟩ [.literal ⟨6, 7⟩ (.int 1), .literal ⟨9, 10⟩ (.int 2)])
        (.set ⟨14, 23⟩ [.literal ⟨15, 19⟩ (.bool true), .name ⟨21, 22⟩ "x"])])]
    let v : Value := .set [.int 2, .float (.ofInt 3)]
    (evaluate e ns vars {}).result = .ok v ∧ v.WellFormed ∧
      ∃ w, Value.ofJson? "\x7b\"a\": [], \"b\": true, \"a\": null\x7d" = some w ∧
        w.length? = some 2 ∧ w.WellFormed := by
  intro largest ns vars e v
  have hns : ns.WellFormed := by
    refine .insert .empty "max" ?_
    apply values_wellFormed.1
    simp [builtins, largest]
  have hvars : vars.WellFormed := .insert .empty "x" (.float _)
  have hv : (evaluate e ns vars {}).result = .ok v := by rfl
  have hreads : (Value.ofJson? "\x7b\"a\": [], \"b\": true, \"a\": null\x7d").bind Value.length? =
      some 2 := by
    decide +kernel
  obtain ⟨w, hw, hlength⟩ := Option.bind_eq_some_iff.mp hreads
  exact ⟨hv, values_wellFormed.2.1 ns vars hns hvars e {} v hv, w, hw, hlength,
    values_wellFormed.2.2 _ w hw⟩

end SafeExpr
