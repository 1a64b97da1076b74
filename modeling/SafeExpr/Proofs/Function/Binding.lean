/-
  SafeExpr/Proofs/Function/Binding.lean
  =====================================
  **Why the arguments of a call do not match the parameters.**

  A call whose keywords are all accepted, and pairwise different, can only fail in three
  ways: too many positional arguments, a missing argument, or a keyword for a parameter
  that a positional argument has filled already (`FilledByPosition`).  The main statement
  is `bind_error_of_accepted`.
-/
import SafeExpr.Proofs.Function.Slots

namespace SafeExpr.Signature

/-- Among `n` positional arguments there is one for the parameter that the keyword `name`
    stands for: the first one of that name is explicit, and fewer than `n` explicit ones
    come before it. -/
def FilledByPosition (s : Signature) (n : Nat) (name : String) : Prop :=
  ∃ i p, s.params.findIdx? (·.name = name) = some i ∧ s.params[i]? = some p ∧
    p.isExplicit = true ∧ (s.params.take i).countP Param.isExplicit < n

/-! ### Slots that positional arguments fill -/

theorem countP_of_isSome_placePositional {params : List Param} {vs : List Value} {i : Nat}
    (h : ((placePositional params vs).1.getD i none).isSome = true) :
    ∃ p, params[i]? = some p ∧ p.isExplicit = true ∧
      (params.take i).countP Param.isExplicit < vs.length := by
  rw [List.getD_eq_getElem?_getD, getElem?_placePositional] at h
  cases hp : params[i]? with
  | none => simp [hp] at h
  | some p =>
    by_cases hexplicit : p.isExplicit = true
    · exact ⟨p, rfl, hexplicit, by simpa [hp, hexplicit, explicitBefore] using h⟩
    · simp [hp, hexplicit] at h

/-! ### Slots that keywords fill -/

/-- A keyword that is accepted is the name of a parameter. -/
theorem findIdx?_of_acceptsKeyword {s : Signature} {name : String}
    (h : s.acceptsKeyword name = true) :
    ∃ i, s.params.findIdx? (·.name = name) = some i := by
  simp only [acceptsKeyword, Bool.and_eq_true, List.any_eq_true, decide_eq_true_eq] at h
  obtain ⟨-, p, hp, hname, -⟩ := h
  apply Option.isSome_iff_exists.mp
  rw [List.findIdx?_isSome, List.any_eq_true]
  exact ⟨p, List.mem_of_mem_drop hp, by simp [hname]⟩

/-- Keywords of different names go to different slots. -/
theorem name_eq_of_findIdx? {s : Signature} {name name' : String} {i : Nat}
    (h : s.params.findIdx? (·.name = name) = some i)
    (h' : s.params.findIdx? (·.name = name') = some i) : name = name' := by
  rw [List.findIdx?_eq_some_iff_getElem] at h h'
  obtain ⟨hi, hname, -⟩ := h
  obtain ⟨_, hname', -⟩ := h'
  simp only [decide_eq_true_eq] at hname hname'
  rw [← hname, ← hname']

/-- Accepted keywords of different names only fail at a slot that was filled before. -/
theorem placeKeywords_error {s : Signature} {slots : List (Option Value)}
    {ks : List (String × Value)} {x : BindError}
    (haccepts : ∀ name ∈ ks.map Prod.fst, s.acceptsKeyword name = true)
    (hnodup : (ks.map Prod.fst).Nodup) (h : s.placeKeywords slots ks = .error x) :
    ∃ name i, x = .duplicateArgument name ∧ name ∈ ks.map Prod.fst ∧
      s.params.findIdx? (·.name = name) = some i ∧ (slots.getD i none).isSome = true := by
  induction ks generalizing slots with
  | nil => cases h
  | cons k rest ih =>
    obtain ⟨name, value⟩ := k
    simp only [List.map_cons, List.nodup_cons] at hnodup
    have haccept := haccepts name (by simp)
    obtain ⟨i, hi⟩ := findIdx?_of_acceptsKeyword haccept
    by_cases hfilled : (slots.getD i none).isSome = true
    · have hplace : s.placeKeyword slots (name, value) = .error (.duplicateArgument name) := by
        simp only [placeKeyword, haccept, hi]
        rw [if_neg (by simp), if_pos hfilled]
      simp only [placeKeywords, hplace] at h
      cases h
      exact ⟨name, i, rfl, by simp, hi, hfilled⟩
    · have hplace : s.placeKeyword slots (name, value) = .ok (slots.set i (some value)) := by
        simp only [placeKeyword, haccept, hi]
        rw [if_neg (by simp), if_neg hfilled]
      simp only [placeKeywords, hplace] at h
      obtain ⟨name', j, rfl, hmem, hj, hslot⟩ :=
        ih (fun n hn => haccepts n (List.mem_cons_of_mem name hn)) hnodup.2 h
      refine ⟨name', j, rfl, List.mem_cons_of_mem name hmem, hj, ?_⟩
      -- the keyword placed first has another slot
      have hne : i ≠ j := by
        rintro rfl
        exact hnodup.1 (name_eq_of_findIdx? hi hj ▸ hmem)
      simpa [List.getD_eq_getElem?_getD, List.getElem?_set_ne hne] using hslot

/-! ### Binding -/

/-- Completing the slots fails only for a parameter without a value. -/
theorem completeSlots_error {params : List Param} {slots : List (Option Value)}
    {implied : List Value} {x : BindError}
    (h : completeSlots params slots implied = .error x) : ∃ name, x = .missing name := by
  obtain ⟨-, p, -, hx, -⟩ := lacks_of_completeSlots h
  exact ⟨p.name, hx⟩

/-- Positional arguments first, then keywords, then what is implied or omitted. -/
theorem bind_eq (s : Signature) (ps : List Value) (ks : List (String × Value))
    (is : List Value) :
    s.bind ps ks is =
      if (!s.variadic && !(placePositional s.params ps).2.isEmpty) = true then
        .error (.tooMany s.arity ps.length)
      else do
        let slots ← s.placeKeywords (placePositional s.params ps).1 ks
        let args ← completeSlots s.params slots is
        return args ++ (placePositional s.params ps).2 := by
  unfold bind
  rcases placePositional s.params ps with ⟨slots, surplus⟩
  by_cases hmany : (!s.variadic && !surplus.isEmpty) = true
  · simp only [if_pos hmany]
    rfl
  · simp only [if_neg hmany]

/-! ### Where bound arguments come from -/

theorem mem_of_mem_placePositional (params : List Param) (vs : List Value) (v : Value) :
    (some v ∈ (placePositional params vs).1 → v ∈ vs) ∧
      (v ∈ (placePositional params vs).2 → v ∈ vs) := by
  have hall := filterMap_placePositional params vs
  constructor
  · intro h
    rw [← hall]
    exact List.mem_append_left _ (List.mem_filterMap.mpr ⟨some v, h, rfl⟩)
  · intro h
    rw [← hall]
    exact List.mem_append_right _ h

theorem mem_of_placeKeyword {s : Signature} {slots slots' : List (Option Value)}
    {k : String × Value} {v : Value} (h : s.placeKeyword slots k = .ok slots')
    (hv : some v ∈ slots') : some v ∈ slots ∨ v = k.2 := by
  simp only [placeKeyword] at h
  split at h
  · cases h
  · split at h
    · cases h
    · split at h
      · cases h
      · cases h
        rcases List.mem_or_eq_of_mem_set hv with hv | hv
        · exact .inl hv
        · exact .inr (Option.some.inj hv)

theorem mem_of_placeKeywords {s : Signature} {slots slots' : List (Option Value)}
    {ks : List (String × Value)} {v : Value} (h : s.placeKeywords slots ks = .ok slots')
    (hv : some v ∈ slots') : some v ∈ slots ∨ v ∈ ks.map Prod.snd := by
  induction ks generalizing slots with
  | nil =>
    cases h
    exact .inl hv
  | cons k rest ih =>
    obtain ⟨made, hmade, h⟩ := Except.bind_eq_ok_iff.mp h
    rcases ih h with hv | hv
    · rcases mem_of_placeKeyword hmade hv with hv | rfl
      · exact .inl hv
      · exact .inr List.mem_cons_self
    · exact .inr (List.mem_cons_of_mem k.2 hv)

theorem mem_of_completeSlots {params : List Param} {slots : List (Option Value)}
    {implied args : List Value} (h : completeSlots params slots implied = .ok args) :
    ∀ v ∈ args, some v ∈ slots ∨ v ∈ implied ∨ v = .none := by
  induction params generalizing slots implied args with
  | nil =>
    cases h
    exact List.forall_mem_nil _
  | cons p params ih =>
    rcases completeSlots_cons p params slots implied with ⟨w, left, hgets, heq⟩ | ⟨-, heq⟩
    · rw [heq] at h
      obtain ⟨vs, hvs, h⟩ := Except.bind_eq_ok_iff.mp h
      cases h
      generalize hslot : slots.head?.join = slot at hgets
      have hleft : left ⊆ implied := by
        cases hgets with
        | implied => exact List.subset_cons_self _ _
        | passed => exact List.Subset.refl _
        | omitted => exact List.Subset.refl _
      refine List.forall_mem_cons.mpr ⟨?_, fun v hv => ?_⟩
      · cases hgets with
        | implied => exact .inr (.inl List.mem_cons_self)
        | passed => exact .inl (List.mem_of_mem_head? (Option.join_eq_some_iff.mp hslot))
        | omitted => exact .inr (.inr rfl)
      · rcases ih hvs v hv with hv | hv | hv
        · exact .inl (List.mem_of_mem_tail hv)
        · exact .inr (.inl (hleft hv))
        · exact .inr (.inr hv)
    · rw [heq] at h
      cases h

/-- A bound argument was passed, or implied, or stands for an omitted one. -/
theorem mem_of_bind {s : Signature} {ps : List Value} {ks : List (String × Value)}
    {is args : List Value} (h : s.bind ps ks is = .ok args) :
    ∀ v ∈ args, v ∈ ps ∨ v ∈ ks.map Prod.snd ∨ v ∈ is ∨ v = .none := by
  rw [bind_eq] at h
  split at h
  · cases h
  · obtain ⟨slots, hslots, h⟩ := Except.bind_eq_ok_iff.mp h
    obtain ⟨bound, hbound, h⟩ := Except.bind_eq_ok_iff.mp h
    cases h
    intro v hv
    rcases List.mem_append.mp hv with hv | hv
    · rcases mem_of_completeSlots hbound v hv with hv | hv | hv
      · rcases mem_of_placeKeywords hslots hv with hv | hv
        · exact .inl ((mem_of_mem_placePositional s.params ps v).1 hv)
        · exact .inr (.inl hv)
      · exact .inr (.inr (.inl hv))
      · exact .inr (.inr (.inr hv))
    · exact .inl ((mem_of_mem_placePositional s.params ps v).2 hv)

/-- **What remains to go wrong with keywords that were checked before.** -/
theorem bind_error_of_accepted {s : Signature} {ps : List Value} {ks : List (String × Value)}
    {is : List Value} {x : BindError}
    (haccepts : ∀ name ∈ ks.map Prod.fst, s.acceptsKeyword name = true)
    (hnodup : (ks.map Prod.fst).Nodup) (h : s.bind ps ks is = .error x) :
    x = .tooMany s.arity ps.length ∨ (∃ name, x = .missing name) ∨
      ∃ name ∈ ks.map Prod.fst, x = .duplicateArgument name ∧
        s.FilledByPosition ps.length name := by
  rw [bind_eq] at h
  by_cases hmany : (!s.variadic && !(placePositional s.params ps).2.isEmpty) = true
  · rw [if_pos hmany] at h
    cases h
    exact Or.inl rfl
  · rw [if_neg hmany] at h
    rcases Except.bind_eq_error_iff.mp h with hk | ⟨slots, -, h⟩
    · obtain ⟨name, i, hx, hmem, hi, hslot⟩ := placeKeywords_error haccepts hnodup hk
      obtain ⟨p, hp, hexplicit, hcount⟩ := countP_of_isSome_placePositional hslot
      exact Or.inr (Or.inr ⟨name, hmem, hx, i, p, hi, hp, hexplicit, hcount⟩)
    · rcases Except.bind_eq_error_iff.mp h with hc | ⟨args, -, h⟩
      · exact Or.inr (Or.inl (completeSlots_error hc))
      · cases h

end SafeExpr.Signature
