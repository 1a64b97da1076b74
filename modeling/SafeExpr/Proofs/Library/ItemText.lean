/-
  SafeExpr/Proofs/Library/ItemText.lean
  =====================================
  **What `str` gives, and what stands in a list.**

  `str` gives the text that a value has as an item, between the brackets of a list
  (`str_of_list`).  There are two exceptions.  A string is its own text, and has quotes around it
  as an item.  And `None` has no text at all: binding fills an omitted argument with `None`, so
  `str` takes one that is passed for one that is not (`strFunction_none`).

  Among values other than strings, this makes `None` the only one for which the two texts differ
  (`str_agrees_iff`).
-/
import SafeExpr.Proofs.Library.Numerals

namespace SafeExpr

/-! ### Lists as text -/

theorem intercalate_toList (texts : List String) :
    (", ".intercalate texts).toList = separated (texts.map String.toList) := by
  rw [String.toList_intercalate]
  cases texts with
  | nil => rfl
  | cons t texts =>
    rw [List.map_cons, separated]
    induction texts generalizing t with
    | nil => simp [continued]
    | cons u texts ih =>
      rw [List.map_cons, List.intercalate_cons_cons, ih]
      simp [continued]

namespace Value

/-- The text of a list: the texts of its items between brackets. -/
theorem render_list (vs : List Value) :
    (list vs).render = "[" ++ ", ".intercalate (vs.map render) ++ "]" := by
  apply String.toList_injective
  rw [String.toList_append, String.toList_append, intercalate_toList, List.map_map]
  exact spelling_list vs

theorem plain_of_not_str {v : Value} (hv : ∀ s, v ≠ str s) : v.plain = v.render := by
  cases v with
  | str s => exact absurd rfl (hv s)
  | _ => rfl

end Value

namespace Builtins

/-! ### The answers of `str` -/

theorem strFunction_answers_iff (v : Value) (answer : Except BackendError Value) :
    strFunction.Answers [v] answer ↔ .ok (.str ((v.given.map Value.plain).getD "")) = answer :=
  NativeFunction.answers_iff [v] rfl

theorem strFunction_of_given {v : Value} (hv : v ≠ .none) (answer : Except BackendError Value) :
    strFunction.Answers [v] answer ↔ .ok (.str v.plain) = answer := by
  rw [strFunction_answers_iff]
  cases v with
  | none => exact absurd rfl hv
  | _ => rfl

/-- **`None` is taken for an argument that is omitted.** -/
theorem strFunction_none (answer : Except BackendError Value) :
    (strFunction.Answers [.none] answer ↔ strFunction.Answers [] answer) ∧
      (strFunction.Answers [.none] answer ↔ .ok (.str "") = answer) := by
  have homitted : strFunction.Answers [] answer ↔ .ok (.str "") = answer :=
    NativeFunction.answers_iff [.none] rfl
  have hnone := strFunction_answers_iff .none answer
  exact ⟨hnone.trans homitted.symm, hnone⟩

/-! ### Items -/

section Items

variable {f : NativeFunction} (hf : f ∈ builtins) (hname : f.name = "str")
include hf hname

/-- **`str` of a list puts together what `str` gives of its items,** as long as no item is a
    string or `None`. -/
theorem str_of_list {vs : List Value} (hvs : ∀ v ∈ vs, v ≠ .none ∧ ∀ s, v ≠ .str s) :
    ∃ texts : List String, List.Forall₂ (fun v t => f.Answers [v] (.ok (.str t))) vs texts ∧
      f.Answers [.list vs] (.ok (.str ("[" ++ ", ".intercalate texts ++ "]"))) := by
  cases builtins_name_inj hf strFunction_mem hname
  refine ⟨vs.map Value.render, ?_, ?_⟩
  · rw [List.forall₂_map_right_iff, List.forall₂_same]
    intro v hv
    rw [strFunction_of_given (hvs v hv).1, Value.plain_of_not_str (hvs v hv).2]
  · rw [strFunction_of_given (by simp), ← Value.render_list]
    rfl

theorem str_of_item {v : Value} (hnone : v ≠ .none) (hstr : ∀ s, v ≠ .str s) :
    f.Answers [v] (.ok (.str v.plain)) ∧
      f.Answers [.list [v]] (.ok (.str ("[" ++ v.plain ++ "]"))) := by
  obtain ⟨texts, hitems, hlist⟩ := str_of_list hf hname (List.forall_mem_singleton.mpr ⟨hnone, hstr⟩)
  cases builtins_name_inj hf strFunction_mem hname
  have hitem : strFunction.Answers [v] (.ok (.str v.plain)) := (strFunction_of_given hnone _).mpr rfl
  refine ⟨hitem, ?_⟩
  cases hitems with
  | cons htext hrest =>
    cases hrest
    cases (strFunction_of_given hnone _).mp htext
    exact hlist

/-- As an item `None` has a text, which is not the one that `str` gives. -/
theorem str_of_none :
    f.Answers [.none] (.ok (.str "")) ∧ f.Answers [.list [.none]] (.ok (.str "[None]")) := by
  cases builtins_name_inj hf strFunction_mem hname
  exact ⟨(strFunction_none _).2.mpr rfl, (strFunction_of_given (by simp) _).mpr rfl⟩

/-- **What `str` gives of a value other than a string is its text, and its text in a list, just
    if the value is not `None`.** -/
theorem str_agrees_iff {v : Value} (hv : ∀ s, v ≠ .str s) :
    (f.Answers [v] (.ok (.str v.plain)) ↔ v ≠ .none) ∧
      ((∃ t, f.Answers [v] (.ok (.str t)) ∧
        f.Answers [.list [v]] (.ok (.str ("[" ++ t ++ "]")))) ↔ v ≠ .none) := by
  have hagrees := fun hnone => str_of_item hf hname hnone hv
  obtain ⟨hempty, hbrackets⟩ := str_of_none hf hname
  refine ⟨⟨?_, fun hnone => (hagrees hnone).1⟩, ?_, fun hnone => ⟨_, hagrees hnone⟩⟩
  · rintro h rfl
    have htext : "" = Value.none.plain := by simpa using hempty.unique h
    exact absurd htext (by decide)
  · rintro ⟨t, ht, hlist⟩ rfl
    have htext : "" = t := by simpa using hempty.unique ht
    have hbracketed : "[None]" = "[" ++ t ++ "]" := by simpa using hbrackets.unique hlist
    rw [← htext] at hbracketed
    exact absurd hbracketed (by decide)

end Items

end Builtins

end SafeExpr
