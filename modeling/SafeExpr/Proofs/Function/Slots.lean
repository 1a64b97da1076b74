/-
  SafeExpr/Proofs/Function/Slots.lean
  ===================================
  **What the stages of binding do to the slots.**

  Positional values go to the parameters that may be passed, in their order.  In the end each
  parameter gets what is in its slot, an implied value or `None` (`Gets`), or it lacks a value
  (`Lacks`) and completing stops there.  On the way no value is lost, and none is duplicated.
-/
import SafeExpr.Function.Signature
import SafeExpr.Proofs.Except

namespace SafeExpr.Signature

/-! ### Positions of parameters -/

theorem isExplicit_iff {p : Param} : p.isExplicit = true ↔ p.kind ≠ .implied := by
  simp [Param.isExplicit]

theorem isExplicit_eq_false_iff {p : Param} : p.isExplicit = false ↔ p.kind = .implied := by
  simp [Param.isExplicit]

/-- How many of the parameters in front of position `i` a caller may pass. -/
def explicitBefore (params : List Param) (i : Nat) : Nat :=
  (params.take i).countP Param.isExplicit

/-- How many of the parameters in front of position `i` are implied. -/
def impliedBefore (params : List Param) (i : Nat) : Nat :=
  (params.take i).countP fun p => !p.isExplicit

theorem explicitBefore_cons_succ (p : Param) (params : List Param) (i : Nat) :
    explicitBefore (p :: params) (i + 1) =
      explicitBefore params i + if p.isExplicit then 1 else 0 := by
  rw [explicitBefore, List.take_succ_cons, List.countP_cons, explicitBefore]

theorem impliedBefore_cons_succ (p : Param) (params : List Param) (i : Nat) :
    impliedBefore (p :: params) (i + 1) =
      impliedBefore params i + if p.isExplicit then 0 else 1 := by
  rw [impliedBefore, List.take_succ_cons, List.countP_cons, impliedBefore]
  cases p.isExplicit <;> rfl

/-! ### Slots that positional arguments fill -/

theorem length_placePositional (params : List Param) (vs : List Value) :
    (placePositional params vs).1.length = params.length := by
  induction params generalizing vs with
  | nil => rfl
  | cons p params ih =>
    unfold placePositional
    split
    · cases vs with
      | nil => exact congrArg (· + 1) (ih [])
      | cons v vs => exact congrArg (· + 1) (ih vs)
    · exact congrArg (· + 1) (ih vs)

/-- **The `k`-th value goes to the `k`-th parameter that may be passed.** -/
theorem getElem?_placePositional (params : List Param) (vs : List Value) (i : Nat) :
    (placePositional params vs).1[i]? =
      params[i]?.map fun p => if p.isExplicit then vs[explicitBefore params i]? else none := by
  induction params generalizing vs i with
  | nil => rfl
  | cons p params ih =>
    unfold placePositional
    cases i with
    | zero => cases hp : p.isExplicit <;> cases vs <;> simp [hp, explicitBefore]
    | succ i =>
      rw [explicitBefore_cons_succ, List.getElem?_cons_succ]
      cases hp : p.isExplicit with
      | false => simpa [hp] using ih vs i
      | true => cases vs <;> simp [ih]

/-- Values for which there is no parameter are left. -/
theorem placePositional_surplus_eq (params : List Param) (vs : List Value) :
    (placePositional params vs).2 = vs.drop (params.countP Param.isExplicit) := by
  induction params generalizing vs with
  | nil => rfl
  | cons p params ih =>
    unfold placePositional
    cases hp : p.isExplicit with
    | false => simp [hp, ih]
    | true => cases vs <;> simp [hp, ih]

/-- The values in the slots and those that are left are the ones passed. -/
theorem filterMap_placePositional (params : List Param) (vs : List Value) :
    (placePositional params vs).1.filterMap id ++ (placePositional params vs).2 = vs := by
  induction params generalizing vs with
  | nil => rfl
  | cons p params ih =>
    unfold placePositional
    cases hp : p.isExplicit with
    | false => simpa [hp] using ih vs
    | true =>
      cases vs with
      | nil => simpa [hp] using ih []
      | cons v vs => simpa [hp] using ih vs

/-- To fill an empty slot adds its value. -/
theorem filterMap_set_perm {slots : List (Option Value)} {i : Nat} (v : Value)
    (h : slots[i]? = some none) :
    ((slots.set i (some v)).filterMap id).Perm (v :: slots.filterMap id) := by
  induction slots generalizing i with
  | nil => cases h
  | cons slot slots ih =>
    cases i with
    | zero =>
      cases h
      exact .refl _
    | succ i =>
      have hrest := ih h
      cases slot with
      | none => exact hrest
      | some w => exact (hrest.cons w).trans (.swap v w _)

/-! ### Completing the slots -/

/-- What a parameter gets, by what is in its slot, and the implied values that are left. -/
inductive Gets (p : Param) : Option Value → List Value → Value → List Value → Prop
  | implied (h : p.kind = .implied) (slot : Option Value) (v : Value) (is : List Value) :
    Gets p slot (v :: is) v is
  | passed (h : p.kind ≠ .implied) (v : Value) (is : List Value) : Gets p (some v) is v is
  | omitted (h : p.kind = .optional) (is : List Value) : Gets p none is .none is

/-- There is no value for the parameter to get. -/
def Lacks (p : Param) (slot : Option Value) (is : List Value) : Prop :=
  (p.kind = .implied ∧ is = []) ∨ (p.kind = .required ∧ slot = none)

theorem gets_iff {p : Param} {slot : Option Value} {is left : List Value} {v : Value} :
    Gets p slot is v left ↔
      (p.kind = .implied ∧ is = v :: left) ∨ (p.kind ≠ .implied ∧ slot = some v ∧ left = is) ∨
        (p.kind = .optional ∧ slot = none ∧ v = .none ∧ left = is) := by
  constructor
  · intro h
    cases h with
    | implied hkind => exact .inl ⟨hkind, rfl⟩
    | passed hkind => exact .inr (.inl ⟨hkind, rfl, rfl⟩)
    | omitted hkind => exact .inr (.inr ⟨hkind, rfl, rfl, rfl⟩)
  · rintro (⟨hkind, rfl⟩ | ⟨hkind, rfl, rfl⟩ | ⟨hkind, rfl, rfl, rfl⟩)
    · exact .implied hkind slot v left
    · exact .passed hkind v left
    · exact .omitted hkind left

/-- A required parameter gets what is in its slot. -/
theorem Gets.slot_eq {p : Param} {slot : Option Value} {is left : List Value} {v : Value}
    (h : Gets p slot is v left) (hkind : p.kind = .required) : slot = some v := by
  rcases gets_iff.mp h with ⟨himplied, -⟩ | ⟨-, hslot, -⟩ | ⟨hoptional, -⟩
  · simp [hkind] at himplied
  · exact hslot
  · simp [hkind] at hoptional

/-- An implied parameter takes one of the implied values, and no other parameter does. -/
theorem Gets.left_eq {p : Param} {slot : Option Value} {is left : List Value} {v : Value}
    (h : Gets p slot is v left) : left = is.drop (if p.isExplicit then 0 else 1) := by
  cases h with
  | implied hkind => simp [isExplicit_eq_false_iff.mpr hkind]
  | passed hkind => simp [isExplicit_iff.mpr hkind]
  | omitted hkind => simp [Param.isExplicit, hkind]

/-- The implied values from a parameter on. -/
theorem Gets.drop_left {p : Param} {slot : Option Value} {is left : List Value} {v : Value}
    (h : Gets p slot is v left) (params : List Param) (i : Nat) :
    left.drop (impliedBefore params i) = is.drop (impliedBefore (p :: params) (i + 1)) := by
  rw [h.left_eq, List.drop_drop, impliedBefore_cons_succ, Nat.add_comm]

/-- A parameter gets a value, and then the others do, or it lacks one. -/
theorem completeSlots_cons (p : Param) (params : List Param) (slots : List (Option Value))
    (is : List Value) :
    (∃ v left, Gets p slots.head?.join is v left ∧
      completeSlots (p :: params) slots is =
        (do return v :: (← completeSlots params slots.tail left))) ∨
    (Lacks p slots.head?.join is ∧
      completeSlots (p :: params) slots is = .error (.missing p.name)) := by
  cases hkind : p.kind with
  | implied =>
    cases is with
    | nil => exact .inr ⟨.inl ⟨hkind, rfl⟩, by simp only [completeSlots, hkind]⟩
    | cons v is =>
      exact .inl ⟨v, is, .implied hkind _ v is, by simp only [completeSlots, hkind]⟩
  | required =>
    cases hslot : slots.head?.join with
    | none => exact .inr ⟨.inr ⟨hkind, rfl⟩, by simp only [completeSlots, hkind, hslot]⟩
    | some v =>
      exact .inl ⟨v, is, .passed (by simp [hkind]) v is, by
        simp only [completeSlots, hkind, hslot]⟩
  | optional =>
    cases hslot : slots.head?.join with
    | none => exact .inl ⟨.none, is, .omitted hkind is, by simp only [completeSlots, hkind, hslot]⟩
    | some v =>
      exact .inl ⟨v, is, .passed (by simp [hkind]) v is, by
        simp only [completeSlots, hkind, hslot]⟩

theorem length_completeSlots {params : List Param} {slots : List (Option Value)}
    {implied args : List Value} (h : completeSlots params slots implied = .ok args) :
    args.length = params.length := by
  induction params generalizing slots implied args with
  | nil =>
    cases h
    rfl
  | cons p params ih =>
    rcases completeSlots_cons p params slots implied with ⟨v, left, -, heq⟩ | ⟨-, heq⟩
    · rw [heq] at h
      obtain ⟨vs, hvs, h⟩ := Except.bind_eq_ok_iff.mp h
      cases h
      exact congrArg (· + 1) (ih hvs)
    · rw [heq] at h
      cases h

theorem gets_of_completeSlots {params : List Param} {slots : List (Option Value)}
    {is args : List Value} (h : completeSlots params slots is = .ok args) {i : Nat} {p : Param}
    (hp : params[i]? = some p) :
    ∃ v left, Gets p slots[i]?.join (is.drop (impliedBefore params i)) v left ∧
      args[i]? = some v := by
  induction params generalizing slots is args i with
  | nil => cases hp
  | cons q params ih =>
    rcases completeSlots_cons q params slots is with ⟨v, left, hgets, heq⟩ | ⟨-, heq⟩
    · rw [heq] at h
      obtain ⟨rest, hrest, h⟩ := Except.bind_eq_ok_iff.mp h
      cases h
      cases i with
      | zero =>
        cases hp
        rw [List.head?_eq_getElem?] at hgets
        exact ⟨v, left, hgets, rfl⟩
      | succ i =>
        obtain ⟨w, left', hw, hargs⟩ := ih hrest hp
        rw [hgets.drop_left, List.getElem?_tail] at hw
        exact ⟨w, left', hw, hargs⟩
    · rw [heq] at h
      cases h

/-- Where completing fails, the parameters in front have got their values. -/
theorem lacks_of_completeSlots {params : List Param} {slots : List (Option Value)}
    {is : List Value} {x : BindError} (h : completeSlots params slots is = .error x) :
    ∃ (i : Nat) (p : Param), params[i]? = some p ∧ x = .missing p.name ∧
      Lacks p slots[i]?.join (is.drop (impliedBefore params i)) ∧
      ∀ (j : Nat) (q : Param), j < i → params[j]? = some q → ∃ v left,
        Gets q slots[j]?.join (is.drop (impliedBefore params j)) v left := by
  induction params generalizing slots is with
  | nil => cases h
  | cons q params ih =>
    rcases completeSlots_cons q params slots is with ⟨v, left, hgets, heq⟩ | ⟨hlacks, heq⟩
    · rw [heq] at h
      rcases Except.bind_eq_error_iff.mp h with hrest | ⟨rest, -, h⟩
      · obtain ⟨i, p, hp, hx, hlacks, hbefore⟩ := ih hrest
        rw [hgets.drop_left, List.getElem?_tail] at hlacks
        refine ⟨i + 1, p, hp, hx, hlacks, fun j r hj hr => ?_⟩
        cases j with
        | zero =>
          cases hr
          rw [List.head?_eq_getElem?] at hgets
          exact ⟨v, left, hgets⟩
        | succ j =>
          obtain ⟨w, left', hw⟩ := hbefore j r (Nat.lt_of_succ_lt_succ hj) hr
          rw [hgets.drop_left, List.getElem?_tail] at hw
          exact ⟨w, left', hw⟩
      · cases h
    · rw [heq] at h
      cases h
      rw [List.head?_eq_getElem?] at hlacks
      exact ⟨0, q, rfl, rfl, hlacks, fun j _ hj => absurd hj (Nat.not_lt_zero j)⟩

/-- There is an implied value for each implied parameter. -/
theorem impliedBefore_lt {params : List Param} {i : Nat} {p : Param} (hp : params[i]? = some p)
    (hkind : p.kind = .implied) : impliedBefore params i < params.countP fun p => !p.isExplicit := by
  induction params generalizing i with
  | nil => cases hp
  | cons q params ih =>
    rw [List.countP_cons]
    cases i with
    | zero =>
      cases hp
      simp [impliedBefore, isExplicit_eq_false_iff.mpr hkind]
    | succ i =>
      have hrest := ih hp
      rw [impliedBefore_cons_succ]
      cases q.isExplicit <;> simp <;> omega

/-- The arguments are the values in the slots, the implied ones, and `None`s. -/
theorem completeSlots_perm {params : List Param} {slots : List (Option Value)}
    {is args : List Value} (h : completeSlots params slots is = .ok args)
    (hlength : slots.length = params.length)
    (hcount : is.length = params.countP fun p => !p.isExplicit)
    (hempty : ∀ (i : Nat) (p : Param), params[i]? = some p → p.kind = .implied →
      slots[i]?.join = none) :
    ∃ n, args.Perm (slots.filterMap id ++ is ++ List.replicate n .none) := by
  induction params generalizing slots is args with
  | nil =>
    cases h
    rw [List.length_eq_zero_iff.mp hlength, List.length_eq_zero_iff.mp hcount]
    exact ⟨0, .nil⟩
  | cons p params ih =>
    obtain ⟨slot, slots, rfl⟩ := List.exists_cons_of_length_eq_add_one hlength
    rcases completeSlots_cons p params (slot :: slots) is with ⟨v, left, hgets, heq⟩ | ⟨-, heq⟩
    · rw [heq] at h
      obtain ⟨rest, hrest, h⟩ := Except.bind_eq_ok_iff.mp h
      cases h
      have hleft : left.length = params.countP fun p => !p.isExplicit := by
        rw [hgets.left_eq, List.length_drop, hcount, List.countP_cons]
        cases p.isExplicit <;> simp
      obtain ⟨n, hperm⟩ := ih hrest (by simpa using hlength) hleft
        fun i q hq => by simpa using hempty (i + 1) q (by simpa using hq)
      have hslot : (slot :: slots).head?.join = slot := rfl
      rw [hslot] at hgets
      cases hgets with
      | implied hkind =>
        obtain rfl : slot = none := by simpa using hempty 0 p rfl hkind
        refine ⟨n, (hperm.cons v).trans ?_⟩
        simpa using List.perm_middle.symm
      | passed => exact ⟨n, hperm.cons v⟩
      | omitted =>
        refine ⟨n + 1, (hperm.cons _).trans ?_⟩
        rw [List.replicate_succ]
        exact List.perm_middle.symm
    · rw [heq] at h
      cases h

end SafeExpr.Signature
