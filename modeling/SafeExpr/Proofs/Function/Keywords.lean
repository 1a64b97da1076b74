/-
  SafeExpr/Proofs/Function/Keywords.lean
  ======================================
  **Which parameter a keyword reaches.**

  Nothing keeps parameters from sharing a name.  `acceptsKeyword` asks whether any of the
  parameters of a name may be named in a call (`MayBeNamed`); `bind` gives the value to the
  first of them, whichever that is.  Where the first one may be named, as it always may where
  names are pairwise different, the value arrives (`bind_keyword`).

  Elsewhere the two disagree.  A first parameter that takes its argument by position only is
  named all the same, and what is passed to an implied one is lost: no other value would have
  made a difference (`bind_ignores_keyword`).
-/
import SafeExpr.Proofs.Function.Arguments

namespace SafeExpr.Signature

/-- The parameter at position `i` may be passed as `name=…`. -/
def MayBeNamed (s : Signature) (name : String) (i : Nat) : Prop :=
  s.positionalOnly ≤ i ∧ ∃ p, s.params[i]? = some p ∧ p.name = name ∧ p.isExplicit = true

/-- Names with a leading underscore aside, a keyword is accepted just if some parameter may be
    named so. -/
theorem acceptsKeyword_iff (s : Signature) (name : String) :
    s.acceptsKeyword name = true ↔
      name.toList.head? ≠ some '_' ∧ ∃ i, s.MayBeNamed name i := by
  have hany : ((s.params.drop s.positionalOnly).any fun p => p.name = name && p.isExplicit) = true ↔
      ∃ i, s.MayBeNamed name i := by
    simp only [List.any_eq_true, List.mem_iff_getElem?, List.getElem?_drop, Bool.and_eq_true,
      decide_eq_true_eq]
    constructor
    · rintro ⟨p, ⟨i, hp⟩, hname⟩
      exact ⟨s.positionalOnly + i, Nat.le_add_right _ _, p, hp, hname⟩
    · rintro ⟨i, hi, p, hp, hname⟩
      refine ⟨p, ⟨i - s.positionalOnly, ?_⟩, hname⟩
      rw [Nat.add_sub_cancel' hi]
      exact hp
  rw [acceptsKeyword, Bool.and_eq_true, hany]
  simp

/-! ### Keywords in their slots -/

section Slots

variable {s : Signature} {slots slots' : List (Option Value)} {name : String} {v : Value}

/-- A keyword fills an empty slot: that of the first parameter of its name. -/
theorem placeKeyword_eq_ok_iff :
    s.placeKeyword slots (name, v) = .ok slots' ↔
      s.acceptsKeyword name = true ∧ ∃ i, s.params.findIdx? (·.name = name) = some i ∧
        (slots.getD i none).isSome = false ∧ slots' = slots.set i (some v) := by
  cases haccepts : s.acceptsKeyword name with
  | false => simp [placeKeyword, haccepts]
  | true =>
    obtain ⟨i, hi⟩ := findIdx?_of_acceptsKeyword haccepts
    simp only [placeKeyword, haccepts, hi, Option.some.injEq, exists_eq_left', true_and]
    cases (slots.getD i none).isSome with
    | false => exact ⟨fun h => ⟨rfl, (Except.ok.inj h).symm⟩, fun h => congrArg Except.ok h.2.symm⟩
    | true =>
      constructor
      · intro h
        cases h
      · rintro ⟨h, -⟩
        cases h

/-- What is in a slot stays there. -/
theorem getElem?_of_placeKeywords {ks : List (String × Value)} {i : Nat}
    (h : s.placeKeywords slots ks = .ok slots') (hv : slots[i]? = some (some v)) :
    slots'[i]? = some (some v) := by
  induction ks generalizing slots with
  | nil =>
    cases h
    exact hv
  | cons k rest ih =>
    obtain ⟨made, hmade, h⟩ := Except.bind_eq_ok_iff.mp h
    obtain ⟨-, j, -, hempty, rfl⟩ := placeKeyword_eq_ok_iff.mp hmade
    have hne : j ≠ i := by
      rintro rfl
      simp [List.getD_eq_getElem?_getD, hv] at hempty
    exact ih h (by rwa [List.getElem?_set_ne hne])

theorem length_of_placeKeywords {ks : List (String × Value)}
    (h : s.placeKeywords slots ks = .ok slots') : slots'.length = slots.length := by
  induction ks generalizing slots with
  | nil =>
    cases h
    rfl
  | cons k rest ih =>
    obtain ⟨made, hmade, h⟩ := Except.bind_eq_ok_iff.mp h
    obtain ⟨-, j, -, -, rfl⟩ := placeKeyword_eq_ok_iff.mp hmade
    rw [ih h, List.length_set]

/-- **The value of each keyword is in the slot of the first parameter of its name.** -/
theorem slot_of_placeKeywords {ks : List (String × Value)}
    (h : s.placeKeywords slots ks = .ok slots') (hlength : slots.length = s.params.length)
    (hk : (name, v) ∈ ks) :
    s.acceptsKeyword name = true ∧
      ∃ i, s.params.findIdx? (·.name = name) = some i ∧ slots'[i]? = some (some v) := by
  induction ks generalizing slots with
  | nil => cases hk
  | cons k rest ih =>
    obtain ⟨made, hmade, h⟩ := Except.bind_eq_ok_iff.mp h
    obtain ⟨haccepts, i, hi, -, rfl⟩ := placeKeyword_eq_ok_iff.mp hmade
    rcases List.mem_cons.mp hk with rfl | hk
    · obtain ⟨hlt, -⟩ := List.findIdx?_eq_some_iff_getElem.mp hi
      rw [← hlength] at hlt
      exact ⟨haccepts, i, hi, getElem?_of_placeKeywords h (List.getElem?_set_self hlt)⟩
    · exact ih h (by rw [List.length_set, hlength]) hk

end Slots

/-! ### Bound arguments -/

section Bound

variable {s : Signature} {ps is args : List Value} {ks : List (String × Value)}

/-- The slots on the way to the arguments of a call. -/
theorem exists_slots_of_bind (h : s.bind ps ks is = .ok args) :
    ∃ slots bound, s.placeKeywords (placePositional s.params ps).1 ks = .ok slots ∧
      completeSlots s.params slots is = .ok bound ∧
      args = bound ++ (placePositional s.params ps).2 := by
  rw [bind_eq] at h
  split at h
  · cases h
  · obtain ⟨slots, hslots, h⟩ := Except.bind_eq_ok_iff.mp h
    obtain ⟨bound, hbound, h⟩ := Except.bind_eq_ok_iff.mp h
    cases h
    exact ⟨slots, bound, hslots, hbound, rfl⟩

/-- **What becomes of a keyword.**  The first parameter of its name gets the value, unless it
    is implied: then it gets what it would have got anyway. -/
theorem bind_keyword_first (h : s.bind ps ks is = .ok args) {name : String} {v : Value}
    (hk : (name, v) ∈ ks) :
    s.acceptsKeyword name = true ∧ ∃ (i : Nat) (p : Param),
      s.params.findIdx? (·.name = name) = some i ∧ s.params[i]? = some p ∧ p.name = name ∧
      args[i]? = if p.isExplicit then some v else is[impliedBefore s.params i]? := by
  obtain ⟨slots, bound, hslots, hbound, rfl⟩ := exists_slots_of_bind h
  obtain ⟨haccepts, i, hi, hslot⟩ :=
    slot_of_placeKeywords hslots (length_placePositional s.params ps) hk
  obtain ⟨hlt, hname, -⟩ := List.findIdx?_eq_some_iff_getElem.mp hi
  have hp : s.params[i]? = some s.params[i] := List.getElem?_eq_getElem hlt
  refine ⟨haccepts, i, s.params[i], hi, hp, by simpa using hname, ?_⟩
  obtain ⟨w, left, hgets, hw⟩ := gets_of_completeSlots hbound hp
  rw [List.getElem?_append_left (by rwa [length_completeSlots hbound]), hw]
  rw [hslot, Option.join_some] at hgets
  rcases gets_iff.mp hgets with ⟨hkind, hdrop⟩ | ⟨hkind, hvalue, -⟩ | ⟨-, hnone, -⟩
  · rw [isExplicit_eq_false_iff.mpr hkind, if_neg Bool.false_ne_true, ← List.head?_drop, hdrop,
      List.head?_cons]
  · rw [if_pos (isExplicit_iff.mpr hkind), hvalue]
  · cases hnone

/-- Where names are pairwise different, an accepted keyword is the name of one parameter, and
    that one may be named. -/
theorem mayBeNamed_of_distinct (hnames : (s.params.map Param.name).Nodup) {name : String}
    (haccepts : s.acceptsKeyword name = true) {i : Nat}
    (hi : s.params.findIdx? (·.name = name) = some i) : s.MayBeNamed name i := by
  obtain ⟨-, j, hj, p, hp, rfl, hexplicit⟩ := (acceptsKeyword_iff s name).mp haccepts
  cases hi.symm.trans (findIdx?_name hnames hp)
  exact ⟨hj, p, hp, rfl, hexplicit⟩

/-- **An accepted keyword reaches a parameter that may be named**, if the first parameter of
    its name is one. -/
theorem bind_keyword (h : s.bind ps ks is = .ok args) {name : String} {v : Value}
    (hk : (name, v) ∈ ks)
    (hfirst : ∀ i, s.params.findIdx? (·.name = name) = some i → s.MayBeNamed name i) :
    ∃ i, s.MayBeNamed name i ∧ args[i]? = some v := by
  obtain ⟨-, i, p, hi, hp, -, hargs⟩ := bind_keyword_first h hk
  obtain ⟨hle, q, hq, hname, hexplicit⟩ := hfirst i hi
  cases hp.symm.trans hq
  rw [if_pos hexplicit] at hargs
  exact ⟨i, ⟨hle, p, hp, hname, hexplicit⟩, hargs⟩

/-- Of two parameters of one name, the first may not be named, but gets the value. -/
example :
    let s : Signature := { params := [⟨"x", .optional⟩, ⟨"x", .optional⟩], positionalOnly := 1 }
    s.acceptsKeyword "x" = true ∧ s.bind [] [("x", .int 1)] [] = .ok [.int 1, .none] :=
  ⟨rfl, rfl⟩

end Bound

/-! ### Keywords without effect -/

/-- Slots of implied parameters do not matter. -/
theorem completeSlots_congr {params : List Param} {slots slots' : List (Option Value)}
    (is : List Value)
    (h : ∀ (i : Nat) (p : Param), params[i]? = some p → p.isExplicit = true →
      slots[i]?.join = slots'[i]?.join) :
    completeSlots params slots is = completeSlots params slots' is := by
  induction params generalizing slots slots' is with
  | nil => rfl
  | cons p params ih =>
    have hrest : ∀ left, completeSlots params slots.tail left = completeSlots params slots'.tail left :=
      fun left => ih left fun i q hq => by simpa using h (i + 1) q (by simpa using hq)
    unfold completeSlots
    cases hkind : p.kind with
    | implied => cases is <;> simp [hrest]
    | required | optional =>
      have hhead : slots.head?.join = slots'.head?.join := by
        simpa [List.head?_eq_getElem?] using h 0 p rfl (isExplicit_iff.mpr (by simp [hkind]))
      simp [hhead, hrest]

/-- Only whether a slot is filled decides where the keywords behind go. -/
theorem placeKeyword_set_some (s : Signature) {slots : List (Option Value)} {i : Nat} {v : Value}
    (hv : slots[i]? = some (some v)) (w : Value) (k : String × Value) :
    s.placeKeyword (slots.set i (some w)) k =
      (s.placeKeyword slots k).map fun made => made.set i (some w) := by
  obtain ⟨name, value⟩ := k
  simp only [placeKeyword]
  split
  · rfl
  · split
    · rfl
    · next j hj =>
      have hlt := (List.getElem?_eq_some_iff.mp hv).1
      by_cases hij : i = j
      · subst hij
        simp [List.getD_eq_getElem?_getD, hv, List.getElem?_set_self hlt, Except.map]
      · simp only [List.getD_eq_getElem?_getD, List.getElem?_set_ne hij]
        split
        · rfl
        · rw [List.set_comm _ _ hij]
          rfl

theorem placeKeywords_set_some (s : Signature) {slots : List (Option Value)} {i : Nat} {v : Value}
    (hv : slots[i]? = some (some v)) (w : Value) (ks : List (String × Value)) :
    s.placeKeywords (slots.set i (some w)) ks =
      (s.placeKeywords slots ks).map fun made => made.set i (some w) := by
  induction ks generalizing slots with
  | nil => rfl
  | cons k rest ih =>
    unfold placeKeywords
    rw [placeKeyword_set_some s hv]
    cases hmade : s.placeKeyword slots k with
    | error x => rfl
    | ok made =>
      have hsingle : s.placeKeywords slots [k] = .ok made := by
        simp only [placeKeywords, hmade]
        rfl
      exact ih (getElem?_of_placeKeywords hsingle hv)

theorem placeKeywords_append (s : Signature) (slots : List (Option Value))
    (before after : List (String × Value)) :
    s.placeKeywords slots (before ++ after) =
      s.placeKeywords slots before >>= fun made => s.placeKeywords made after := by
  induction before generalizing slots with
  | nil => rfl
  | cons k rest ih =>
    simp only [List.cons_append, placeKeywords, ih, bind_assoc]

/-- **A keyword whose first parameter is implied has no effect**: whatever value is passed, the
    call is bound, or is not, in the same way. -/
theorem bind_ignores_keyword {s : Signature} {name : String} {i : Nat} {p : Param}
    (hi : s.params.findIdx? (·.name = name) = some i) (hp : s.params[i]? = some p)
    (hkind : p.kind = .implied) (ps is : List Value) (before after : List (String × Value))
    (v w : Value) :
    s.bind ps (before ++ (name, v) :: after) is = s.bind ps (before ++ (name, w) :: after) is := by
  have hcomplete : ∀ slots : List (Option Value),
      completeSlots s.params (slots.set i (some w)) is = completeSlots s.params slots is := by
    refine fun slots => completeSlots_congr is fun j q hq hexplicit => ?_
    have hne : i ≠ j := by
      rintro rfl
      cases hp.symm.trans hq
      exact isExplicit_iff.mp hexplicit hkind
    rw [List.getElem?_set_ne hne]
  simp only [bind_eq, placeKeywords_append, bind_assoc]
  split
  · rfl
  · refine Except.bind_congr_of_ok fun slots hslots => ?_
    have hlt : i < slots.length := by
      rw [length_of_placeKeywords hslots, length_placePositional]
      exact (List.getElem?_eq_some_iff.mp hp).1
    simp only [placeKeywords, placeKeyword, hi]
    split
    · rfl
    · split
      · rfl
      · have hv : (slots.set i (some v))[i]? = some (some v) := List.getElem?_set_self hlt
        have hsame := placeKeywords_set_some s hv w after
        rw [List.set_set] at hsame
        change (s.placeKeywords _ _ >>= _) = (s.placeKeywords _ _ >>= _)
        rw [hsame]
        cases s.placeKeywords (slots.set i (some v)) after with
        | error x => rfl
        | ok made =>
          change (completeSlots s.params made is >>= _) =
            (completeSlots s.params (made.set i (some w)) is >>= _)
          rw [hcomplete]

/-- What is passed is lost, though the second parameter has the name as well. -/
example :
    let s : Signature := { params := [⟨"x", .implied⟩, ⟨"x", .optional⟩] }
    s.acceptsKeyword "x" = true ∧ s.bind [] [("x", .int 1)] [.int 2] = .ok [.int 2, .none] :=
  ⟨rfl, rfl⟩

end SafeExpr.Signature
