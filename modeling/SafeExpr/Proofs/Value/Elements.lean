/-
  SafeExpr/Proofs/Value/Elements.lean
  ===================================
  **Sets and dicts as what they contain.**

  A set is a list in which things are searched by `==`, and so are the keys of a dict.  Among
  hashable values without floats (`IsKey`) `==` is an equivalence, so it makes no difference
  which of several equal values is searched for.  A list of such values in which no two are equal
  (`Elements`) is then determined, up to the order and the spelling of its elements, by what is
  found in it.

  Equality compares lengths and searches in one direction only.  That it follows from a search in
  both directions takes a count: a list of elements is no longer than one in which all of them are
  found (`length_le_of_found`).
-/
import SafeExpr.Proofs.Value.Order

namespace SafeExpr

namespace Value

/-! ### Keys without floats -/

/-- A value that can be an element or a key, and has no float in it. -/
structure IsKey (v : Value) : Prop where
  hashable : v.isHashable = true
  floatFree : v.FloatFree

theorem FloatFree.nanFree {v : Value} (h : v.FloatFree) : v.NaNFree := by
  intro x hx
  cases x with
  | int n => rfl
  | float x => exact absurd hx (h x)

namespace IsKey

variable {a b c : Value}

theorem eq_refl (ha : a.IsKey) : a.eq a = true := eq_refl_of_nanFree a ha.floatFree.nanFree

theorem eq_comm (ha : a.IsKey) (hb : b.IsKey) : a.eq b = b.eq a :=
  eq_comm_of_hashable a b ha.hashable hb.hashable

theorem eq_trans (ha : a.IsKey) (hb : b.IsKey) (hc : c.IsKey) (hab : a.eq b = true)
    (hbc : b.eq c = true) : a.eq c = true := by
  have hfree : ∀ v ∈ [a, b, c], v.FloatFree := by
    simpa using ⟨ha.floatFree, hb.floatFree, hc.floatFree⟩
  have hwellFormed : ∀ v ∈ [a, b, c], v.WellFormed := by
    simpa using ⟨WellFormed.of_hashable a ha.hashable, WellFormed.of_hashable b hb.hashable,
      WellFormed.of_hashable c hc.hashable⟩
  have hwithin := within_numbersAll hwellFormed
  exact eq_trans_within (ordered_of_floatFree hfree) (hwithin a (by simp)) (hwithin b (by simp))
    (hwithin c (by simp)) hab hbc

end IsKey

/-! ### Searching -/

theorem memberOf_iff {v : Value} {vs : List Value} :
    v.memberOf vs = true ↔ ∃ x ∈ vs, x.eq v = true := List.any_eq_true

theorem memberOf_singleton {v w : Value} : v.memberOf [w] = w.eq v := by
  rw [memberOf, List.any_cons, List.any_nil, Bool.or_false]

theorem memberOf_append {v : Value} {vs ws : List Value} :
    v.memberOf (vs ++ ws) = (v.memberOf vs || v.memberOf ws) := List.any_append

theorem memberOf_perm {v : Value} {vs ws : List Value} (h : vs.Perm ws) :
    v.memberOf vs = v.memberOf ws := by
  rw [Bool.eq_iff_iff, memberOf_iff, memberOf_iff]
  simp only [h.mem_iff]

/-- It makes no difference which of two equal keys is searched for. -/
theorem memberOf_congr {v w : Value} {vs : List Value} (hv : v.IsKey) (hw : w.IsKey)
    (hvs : ∀ x ∈ vs, x.IsKey) (h : v.eq w = true) : v.memberOf vs = w.memberOf vs := by
  have hone : ∀ {a b : Value}, a.IsKey → b.IsKey → a.eq b = true →
      a.memberOf vs = true → b.memberOf vs = true := by
    intro a b ha hb hab hmem
    obtain ⟨x, hx, hxa⟩ := memberOf_iff.mp hmem
    exact memberOf_iff.mpr ⟨x, hx, (hvs x hx).eq_trans ha hb hxa hab⟩
  rw [Bool.eq_iff_iff]
  exact ⟨hone hv hw h, hone hw hv (hv.eq_comm hw ▸ h)⟩

/-- The test `x in c` is true. -/
def Has (c x : Value) : Prop := c.contains x = .ok true

section Containers

variable {x : Value} (hx : x.isHashable = true)
include hx

theorem has_set_iff (vs : List Value) : (set vs).Has x ↔ x.memberOf vs = true := by
  rw [Has, contains, requireHashable, if_pos hx]
  change Except.ok (x.memberOf vs) = .ok true ↔ _
  rw [Except.ok.injEq]

theorem has_dict_iff (es : List (Value × Value)) :
    (dict es).Has x ↔ x.memberOf (es.map Prod.fst) = true := by
  rw [Has, contains, requireHashable, if_pos hx]
  change Except.ok (x.memberOf (es.map Prod.fst)) = .ok true ↔ _
  rw [Except.ok.injEq]

end Containers

/-- An element is found. -/
theorem memberOf_of_mem {v : Value} {vs : List Value} (hv : v.IsKey) (h : v ∈ vs) :
    v.memberOf vs = true := memberOf_iff.mpr ⟨v, h, hv.eq_refl⟩

/-! ### Elements -/

/-- Keys without floats, no two of them equal. -/
structure Elements (vs : List Value) : Prop where
  distinct : Distinct vs
  keys : ∀ v ∈ vs, v.IsKey

namespace Elements

variable {vs ws : List Value}

theorem of_distinct (h : Distinct vs) (hfree : ∀ v ∈ vs, v.FloatFree) : Elements vs :=
  ⟨h, fun v hv => ⟨h.hashable v hv, hfree v hv⟩⟩

/-- The elements of a well-formed set without floats. -/
theorem of_set (h : (set vs).WellFormed) (hfree : (set vs).FloatFree) : Elements vs := by
  cases h with
  | set hdistinct =>
    exact of_distinct hdistinct fun v hv x hx => hfree x (numbers_subset_of_mem hv hx)

/-- Nothing finds two elements. -/
theorem differ (h : Elements vs) :
    vs.Pairwise fun v v' => ∀ w, w.IsKey → v.eq w = true → ¬ v'.eq w = true := by
  refine h.distinct.differ.imp_of_mem fun {v v'} hv hv' hne w hw hvw hvw' => ?_
  rw [(h.keys v' hv').eq_comm hw] at hvw'
  have hequal := (h.keys v hv).eq_trans hw (h.keys v' hv') hvw hvw'
  rw [hne.1] at hequal
  cases hequal

end Elements

/-- Where all elements of one list find one in the other, and no two of them the same one, the
    other list has at least as many. -/
theorem length_le_of_found {α β : Type} {R : α → β → Prop} (xs : List α) :
    ∀ ys : List β, (∀ x ∈ xs, ∃ y ∈ ys, R x y) →
      xs.Pairwise (fun x x' => ∀ y ∈ ys, R x y → ¬ R x' y) → xs.length ≤ ys.length := by
  induction xs with
  | nil => exact fun ys _ _ => Nat.zero_le _
  | cons x xs ih =>
    intro ys hfind hdiffer
    obtain ⟨hx, hdiffer⟩ := List.pairwise_cons.mp hdiffer
    obtain ⟨⟨z, hz, hxz⟩, hfind⟩ := List.forall_mem_cons.mp hfind
    -- what the first element finds is left to it
    obtain ⟨before, after, rfl⟩ := List.append_of_mem hz
    have hfewer : ∀ y, y ∈ before ++ after → y ∈ before ++ z :: after := by
      intro y hy
      rw [List.mem_append, List.mem_cons]
      rw [List.mem_append] at hy
      tauto
    have hrest : xs.length ≤ (before ++ after).length := by
      refine ih (before ++ after) (fun x' hx' => ?_)
        (hdiffer.imp fun hne y hy => hne y (hfewer y hy))
      obtain ⟨y, hy, hR⟩ := hfind x' hx'
      have hyz : y ≠ z := fun h => hx x' hx' z hz hxz (h ▸ hR)
      refine ⟨y, ?_, hR⟩
      rw [List.mem_append, List.mem_cons] at hy
      rw [List.mem_append]
      tauto
    simp only [List.length_cons, List.length_append] at hrest ⊢
    omega

namespace Elements

variable {vs ws : List Value}

theorem length_le (hvs : Elements vs) (hws : ∀ w ∈ ws, w.IsKey)
    (h : ∀ v ∈ vs, v.memberOf ws = true) : vs.length ≤ ws.length := by
  refine length_le_of_found (R := fun v w => v.eq w = true) vs ws (fun v hv => ?_)
    (hvs.differ.imp fun hne w hw => hne w (hws w hw))
  obtain ⟨w, hw, hwv⟩ := memberOf_iff.mp (h v hv)
  exact ⟨w, hw, (hws w hw).eq_comm (hvs.keys v hv) ▸ hwv⟩

end Elements

/-! ### Equal sets -/

section Sets

variable {vs ws : List Value}

theorem set_eq_iff_alike :
    (set vs).eq (set ws) = true ↔
      vs.length = ws.length ∧ ∀ v ∈ vs, ∃ w ∈ ws, v.eq w = true := by
  rw [eq, Bool.and_eq_true, beq_iff_eq, allIn_iff]

/-- **Sets are equal just if the same keys are found in them.** -/
theorem set_eq_iff (hvs : Elements vs) (hws : Elements ws) :
    (set vs).eq (set ws) = true ↔ ∀ k : Value, k.IsKey → k.memberOf vs = k.memberOf ws := by
  rw [set_eq_iff_alike]
  constructor
  · rintro ⟨hlength, hfind⟩ k hk
    have hback : ∀ w ∈ ws, ∃ v ∈ vs, v.eq w = true :=
      found_of_length vs ws hlength hfind
        (hvs.differ.imp fun hne w hw => hne w (hws.keys w hw))
    rw [Bool.eq_iff_iff, memberOf_iff, memberOf_iff]
    constructor
    · rintro ⟨v, hv, hvk⟩
      obtain ⟨w, hw, hvw⟩ := hfind v hv
      rw [(hvs.keys v hv).eq_comm (hws.keys w hw)] at hvw
      exact ⟨w, hw, (hws.keys w hw).eq_trans (hvs.keys v hv) hk hvw hvk⟩
    · rintro ⟨w, hw, hwk⟩
      obtain ⟨v, hv, hvw⟩ := hback w hw
      exact ⟨v, hv, (hvs.keys v hv).eq_trans (hws.keys w hw) hk hvw hwk⟩
  · intro hsame
    have hforward : ∀ v ∈ vs, v.memberOf ws = true := fun v hv =>
      hsame v (hvs.keys v hv) ▸ memberOf_of_mem (hvs.keys v hv) hv
    have hback : ∀ w ∈ ws, w.memberOf vs = true := fun w hw =>
      hsame w (hws.keys w hw) ▸ memberOf_of_mem (hws.keys w hw) hw
    refine ⟨Nat.le_antisymm (hvs.length_le hws.keys hforward) (hws.length_le hvs.keys hback),
      fun v hv => ?_⟩
    obtain ⟨w, hw, hwv⟩ := memberOf_iff.mp (hforward v hv)
    exact ⟨w, hw, (hws.keys w hw).eq_comm (hvs.keys v hv) ▸ hwv⟩

end Sets

/-! ### Equal dicts -/

section Dicts

variable {es fs : List (Value × Value)}

theorem dict_eq_iff_alike :
    (dict es).eq (dict fs) = true ↔
      es.length = fs.length ∧ ∀ e ∈ es, ∃ f ∈ fs, e.1.eq f.1 = true ∧ e.2.eq f.2 = true := by
  rw [eq, Bool.and_eq_true, beq_iff_eq, allEntriesIn_iff]

/-- Entries with equal keys are one entry. -/
theorem Elements.entry_eq (hes : Elements (es.map Prod.fst)) {e f : Value × Value} (he : e ∈ es)
    (hf : f ∈ es) (h : e.1.eq f.1 = true) : e = f := by
  have hdiffer := List.pairwise_iff_getElem.mp (List.pairwise_map.mp hes.distinct.differ)
  obtain ⟨i, hi, rfl⟩ := List.getElem_of_mem he
  obtain ⟨j, hj, rfl⟩ := List.getElem_of_mem hf
  rcases Nat.lt_trichotomy i j with hij | rfl | hji
  · rw [(hdiffer i j hi hj hij).1] at h
    cases h
  · rfl
  · rw [(hdiffer j i hj hi hji).2] at h
    cases h

/-- **Dicts are equal just if the same keys are found in them, with equal values.** -/
theorem dict_eq_iff (hes : Elements (es.map Prod.fst)) (hfs : Elements (fs.map Prod.fst)) :
    (dict es).eq (dict fs) = true ↔
      (∀ k : Value, k.IsKey →
        k.memberOf (es.map Prod.fst) = k.memberOf (fs.map Prod.fst)) ∧
      ∀ e ∈ es, ∀ f ∈ fs, e.1.eq f.1 = true → e.2.eq f.2 = true := by
  rw [dict_eq_iff_alike, ← set_eq_iff hes hfs, set_eq_iff_alike, List.length_map, List.length_map,
    List.forall_mem_map]
  constructor
  · rintro ⟨hlength, hfind⟩
    refine ⟨⟨hlength, fun e he => ?_⟩, fun e he f hf hkey => ?_⟩
    · obtain ⟨f, hf, hkey, -⟩ := hfind e he
      exact ⟨f.1, List.mem_map_of_mem hf, hkey⟩
    · obtain ⟨g, hg, hkey', hvalue⟩ := hfind e he
      have hek := hes.keys e.1 (List.mem_map_of_mem he)
      have hfk := hfs.keys f.1 (List.mem_map_of_mem hf)
      have hgk := hfs.keys g.1 (List.mem_map_of_mem hg)
      rw [hek.eq_comm hfk] at hkey
      rw [hfs.entry_eq hf hg (hfk.eq_trans hek hgk hkey hkey')]
      exact hvalue
  · rintro ⟨⟨hlength, hfind⟩, hvalues⟩
    refine ⟨hlength, fun e he => ?_⟩
    obtain ⟨k, hk, hkey⟩ := hfind e he
    obtain ⟨f, hf, rfl⟩ := List.mem_map.mp hk
    exact ⟨f, hf, hkey, hvalues e he f hf hkey⟩

end Dicts

end Value

end SafeExpr
