/-
  SafeExpr/Proofs/Machine/Binding.lean
  ====================================
  **Binding arguments on a machine.**

  The slots of the parameters are an array.  The positions of those that a caller may pass
  are listed first; each positional argument then goes into the slot at the next of them,
  and each keyword argument into the slot at the position of its name.
-/
import SafeExpr.Proofs.Function.Binding
import SafeExpr.Proofs.Machine.Library

namespace SafeExpr.Machine

open Signature (completeSlots length_completeSlots)

/-! ### Definitions -/

/-- Those of the positions whose parameter a caller may pass. -/
def explicitAt (params : List Param) : List Nat → Checked (List Nat)
  | [] => return []
  | i :: rest => do
    let p ← itemAt params i
    let explicit ← explicitAt params rest
    return if p.isExplicit then i :: explicit else explicit

/-- Puts positional values into the slots at the positions, as long as there are any.
    Surplus values are taken by a variadic function only. -/
def placePositional (s : Signature) (found : Nat) (slots : List (Option Value))
    (surplus : List Value) :
    List Nat → List Value → Checked (Except BindError (List (Option Value) × List Value))
  | _, [] => return .ok (slots, surplus)
  | i :: explicit, v :: values => do
    let slots ← setAt slots i (some v)
    placePositional s found slots surplus explicit values
  | [], v :: values =>
    if s.variadic then placePositional s found slots (surplus ++ [v]) [] values
    else return .error (.tooMany s.arity found)

def placeKeyword (s : Signature) (slots : List (Option Value)) (keyword : String × Value) :
    Checked (Except BindError (List (Option Value))) :=
  let (name, value) := keyword
  if !s.acceptsKeyword name then return .error (.unexpectedKeyword name)
  else
    match s.params.findIdx? (·.name = name) with
    | none => return .error (.unexpectedKeyword name)
    | some i => do
      if (← itemAt slots i).isSome then return .error (.duplicateArgument name)
      return .ok (← setAt slots i (some value))

def placeKeywords (s : Signature) (slots : List (Option Value)) :
    List (String × Value) → Checked (Except BindError (List (Option Value)))
  | [] => return .ok slots
  | keyword :: rest => do
    match ← placeKeyword s slots keyword with
    | .ok slots => placeKeywords s slots rest
    | .error e => return .error e

def bind (s : Signature) (positional : List Value) (keywords : List (String × Value))
    (implied : List Value) : Checked (Except BindError (List Value)) := do
  let explicit ← explicitAt s.params (List.range' 0 s.params.length)
  let empty := List.replicate s.params.length none
  match ← placePositional s positional.length empty [] explicit positional with
  | .error e => return .error e
  | .ok (slots, surplus) =>
    match ← placeKeywords s slots keywords with
    | .error e => return .error e
    | .ok slots =>
      let _capacity ← addSize slots.length surplus.length
      return (completeSlots s.params slots implied).map (· ++ surplus)

/-! ### Positional arguments -/

/-- The positions of the parameters that a caller may pass, counted from `k`. -/
def positionsFrom (k : Nat) : List Param → List Nat
  | [] => []
  | p :: params =>
    if p.isExplicit then k :: positionsFrom (k + 1) params else positionsFrom (k + 1) params

theorem explicitAt_eq (first params : List Param) :
    explicitAt (first ++ params) (List.range' first.length params.length) =
      .ok (positionsFrom first.length params) := by
  induction params generalizing first with
  | nil => rfl
  | cons p params ih =>
    have hitem : itemAt (first ++ p :: params) first.length = .ok p := itemAt_eq (by simp)
    have hrest := ih (first ++ [p])
    rw [List.append_assoc, List.length_append] at hrest
    rw [List.length_cons, List.range'_succ, explicitAt, hitem]
    change (explicitAt (first ++ ([p] ++ params)) (List.range' (first.length + [p].length) _) >>=
      _) = _
    rw [hrest]
    change Except.ok _ = _
    rw [positionsFrom]
    rfl

theorem placePositional_nil (params : List Param) :
    Signature.placePositional params [] = (List.replicate params.length none, []) := by
  induction params with
  | nil => rfl
  | cons p params ih =>
    rw [Signature.placePositional, ih]
    split <;> rfl

/-- Values for which there is no position. -/
theorem placePositional_surplus (s : Signature) (found : Nat) (slots : List (Option Value))
    (surplus values : List Value) :
    placePositional s found slots surplus [] values =
      .ok (if !s.variadic && !values.isEmpty then .error (.tooMany s.arity found)
        else .ok (slots, surplus ++ values)) := by
  induction values generalizing surplus with
  | nil => simp [placePositional, pure, Except.pure]
  | cons v values ih =>
    rw [placePositional]
    cases hvariadic : s.variadic with
    | false => rfl
    | true =>
      rw [if_pos rfl, ih, hvariadic, List.append_assoc]
      rfl

/-- Filling slots by position is filling them from left to right. -/
theorem placePositional_eq (s : Signature) (found : Nat) (first : List (Option Value))
    (surplus : List Value) (params : List Param) (values : List Value) :
    placePositional s found (first ++ List.replicate params.length none) surplus
        (positionsFrom first.length params) values =
      .ok (if !s.variadic && !(Signature.placePositional params values).2.isEmpty then
          .error (.tooMany s.arity found)
        else
          .ok (first ++ (Signature.placePositional params values).1,
            surplus ++ (Signature.placePositional params values).2)) := by
  induction params generalizing first values with
  | nil =>
    rw [positionsFrom, placePositional_surplus, Signature.placePositional]
    rfl
  | cons p params ih =>
    cases values with
    | nil =>
      rw [placePositional, placePositional_nil]
      simp [pure, Except.pure]
    | cons v values =>
      rw [positionsFrom, Signature.placePositional]
      by_cases hp : p.isExplicit = true
      · have hset : setAt (first ++ List.replicate (p :: params).length none) first.length
            (some v) = .ok ((first ++ [some v]) ++ List.replicate params.length none) := by
          rw [setAt_eq (by simp)]
          simp [List.replicate_succ]
        have hrest := ih (first ++ [some v]) values
        rw [if_pos hp, if_pos hp, placePositional, hset]
        rw [List.length_append] at hrest
        change placePositional _ _ _ _ (positionsFrom (first.length + [some v].length) params) _ = _
        rw [hrest, List.append_assoc]
        rfl
      · have hrest := ih (first ++ [none]) (v :: values)
        rw [List.length_append, List.append_assoc, List.append_assoc] at hrest
        rw [if_neg hp, if_neg hp]
        exact hrest

/-! ### Keywords -/

section Keywords

variable {s : Signature} {slots : List (Option Value)}

/-- A keyword that is accepted has a slot. -/
theorem placeKeyword_eq (hslots : slots.length = s.params.length) (keyword : String × Value) :
    placeKeyword s slots keyword = .ok (s.placeKeyword slots keyword) := by
  obtain ⟨name, value⟩ := keyword
  unfold placeKeyword Signature.placeKeyword
  dsimp only
  by_cases haccepts : (!s.acceptsKeyword name) = true
  · rw [if_pos haccepts, if_pos haccepts]
    rfl
  · rw [if_neg haccepts, if_neg haccepts]
    cases hfind : s.params.findIdx? (·.name = name) with
    | none => rfl
    | some i =>
      obtain ⟨hi, -⟩ := List.findIdx?_eq_some_iff_getElem.mp hfind
      rw [← hslots] at hi
      have hitem : itemAt slots i = .ok (slots.getD i none) :=
        itemAt_eq (by rw [List.getD_eq_getElem?_getD, List.getElem?_eq_getElem hi]; rfl)
      dsimp only
      rw [hitem, setAt_eq hi]
      by_cases hfilled : (slots.getD i none).isSome = true
      · rw [if_pos hfilled]
        exact if_pos hfilled
      · rw [if_neg hfilled]
        exact if_neg hfilled

theorem length_placeKeyword {slots' : List (Option Value)} {keyword : String × Value}
    (h : s.placeKeyword slots keyword = .ok slots') : slots'.length = slots.length := by
  unfold Signature.placeKeyword at h
  dsimp only at h
  split at h
  · cases h
  · split at h
    · cases h
    · split at h
      · cases h
      · cases h
        exact List.length_set

theorem placeKeywords_eq (hslots : slots.length = s.params.length)
    (keywords : List (String × Value)) :
    placeKeywords s slots keywords = .ok (s.placeKeywords slots keywords) := by
  induction keywords generalizing slots with
  | nil => rfl
  | cons keyword rest ih =>
    rw [placeKeywords, placeKeyword_eq hslots, Signature.placeKeywords]
    cases hplaced : s.placeKeyword slots keyword with
    | error e => rfl
    | ok slots' => exact ih ((length_placeKeyword hplaced).trans hslots)

theorem length_placeKeywords {slots' : List (Option Value)} {keywords : List (String × Value)}
    (h : s.placeKeywords slots keywords = .ok slots') : slots'.length = slots.length := by
  induction keywords generalizing slots with
  | nil =>
    cases h
    rfl
  | cons keyword rest ih =>
    rw [Signature.placeKeywords] at h
    obtain ⟨slots'', hplaced, hrest⟩ := Except.bind_eq_ok_iff.mp h
    exact (ih hrest).trans (length_placeKeyword hplaced)

end Keywords

/-! ### All arguments -/

section Bind

variable {s : Signature} {positional implied : List Value} {keywords : List (String × Value)}

theorem placePositional_all (s : Signature) (values : List Value) (found : Nat) :
    (explicitAt s.params (List.range' 0 s.params.length) >>= fun explicit =>
      placePositional s found (List.replicate s.params.length none) [] explicit values) =
      .ok (if !s.variadic && !(Signature.placePositional s.params values).2.isEmpty then
          .error (.tooMany s.arity found)
        else .ok (Signature.placePositional s.params values)) := by
  have hexplicit := explicitAt_eq [] s.params
  rw [List.nil_append] at hexplicit
  rw [List.length_nil] at hexplicit
  rw [hexplicit]
  exact placePositional_eq s found [] [] s.params values

/-- **Binding never steps out of its slots.** -/
theorem bind_eq (hsize : s.params.length + positional.length ≤ maxSize)
    (keywords : List (String × Value)) (implied : List Value) :
    bind s positional keywords implied = .ok (s.bind positional keywords implied) := by
  have hplaced := placePositional_all s positional positional.length
  unfold bind Signature.bind
  dsimp only
  rw [← bind_assoc, hplaced]
  have hslots := Signature.length_placePositional s.params positional
  have hsurplus : (Signature.placePositional s.params positional).2.length ≤ positional.length := by
    rw [Signature.placePositional_surplus_eq, List.length_drop]
    exact Nat.sub_le _ _
  generalize Signature.placePositional s.params positional = placed at *
  obtain ⟨slots, surplus⟩ := placed
  by_cases hmany : (!s.variadic && !surplus.isEmpty) = true
  · rw [if_pos hmany, if_pos hmany]
    rfl
  · rw [if_neg hmany, if_neg hmany]
    change (placeKeywords s slots keywords >>= _) = _
    rw [placeKeywords_eq hslots]
    cases hkeywords : s.placeKeywords slots keywords with
    | error e => rfl
    | ok slots' =>
      have hcapacity : addSize slots'.length surplus.length = .ok _ :=
        addSize_eq (by
          rw [length_placeKeywords hkeywords, hslots]
          exact Nat.le_trans (Nat.add_le_add_left hsurplus _) hsize)
      change (addSize slots'.length surplus.length >>= _) = _
      rw [hcapacity]
      change Except.ok (Except.map _ (completeSlots s.params slots' implied)) =
        Except.ok (completeSlots s.params slots' implied >>= _)
      cases completeSlots s.params slots' implied with
      | error e => rfl
      | ok args => rfl

/-- Whatever is bound, a function gets as many arguments as it takes. -/
theorem takes_of_bind {args : List Value} (h : s.bind positional keywords implied = .ok args) :
    Takes s args.length := by
  unfold Signature.bind at h
  dsimp only at h
  generalize Signature.placePositional s.params positional = placed at h
  obtain ⟨slots, surplus⟩ := placed
  by_cases hmany : (!s.variadic && !surplus.isEmpty) = true
  · rw [if_pos hmany] at h
    cases h
  · rw [if_neg hmany] at h
    obtain ⟨slots', -, h⟩ := Except.bind_eq_ok_iff.mp h
    obtain ⟨own, hown, h⟩ := Except.bind_eq_ok_iff.mp h
    cases h
    rw [Takes, List.length_append, length_completeSlots hown]
    refine ⟨Nat.le_add_right _ _, fun hvariadic => ?_⟩
    rw [hvariadic] at hmany
    have hsurplus : surplus = [] := by simpa using hmany
    rw [hsurplus]
    rfl

end Bind

end SafeExpr.Machine
