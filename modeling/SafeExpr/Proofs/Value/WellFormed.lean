/-
  SafeExpr/Proofs/Value/WellFormed.lean
  =====================================
  **Sets and dicts hold hashable keys, and no key twice.**

  The constructors of `Value` take any list.  `WellFormed` says that a value is as the
  operations on sets and dicts expect it to be, at every depth.  Whatever makes a set or a
  dict has to keep this: `mkSet` and `mkDict` check their items one by one, the operations
  of set algebra only take elements apart that were checked before.

  Equality is symmetric between hashable values.  It is not transitive, since an integer may
  be equal to a float that is equal to other integers too, so nothing here relies on that.
-/
import SafeExpr.Evaluation.Operators
import SafeExpr.Proofs.Except

namespace SafeExpr

namespace Value

/-! ### Equality is symmetric -/

theorem double_eq_comm (x y : Double) : x.eq y = y.eq x := by
  rw [Double.eq, Double.eq, Bool.and_comm (!x.isNaN), BEq.comm]

theorem number_eq_comm (x y : Number) : x.eq y = y.eq x := by
  cases x with
  | int a =>
    cases y with
    | int b => exact BEq.comm
    | float y => exact double_eq_comm _ _
  | float x =>
    cases y with
    | int b => exact double_eq_comm _ _
    | float y => exact double_eq_comm _ _

theorem eqNumber_comm (a b : Value) : a.eqNumber b = b.eqNumber a := by
  unfold eqNumber
  cases a.asNumber with
  | none => cases b.asNumber <;> rfl
  | some x =>
    cases b.asNumber with
    | none => rfl
    | some y => exact number_eq_comm x y

mutual

theorem eq_comm_of_hashable (a b : Value) (ha : a.isHashable = true)
    (hb : b.isHashable = true) : a.eq b = b.eq a := by
  cases a with
  | list | dict | set => simp [isHashable] at ha
  | tuple xs =>
    cases b with
    | list | dict | set => simp [isHashable] at hb
    | tuple ys =>
      rw [eq, eq]
      exact eqAll_comm_of_hashable xs ys ha hb
    | _ =>
      simp only [eq]
      exact eqNumber_comm _ _
  | str x =>
    cases b with
    | list | dict | set => simp [isHashable] at hb
    | str y =>
      simp only [eq]
      exact BEq.comm
    | _ =>
      simp only [eq]
      exact eqNumber_comm _ _
  | none =>
    cases b with
    | list | dict | set => simp [isHashable] at hb
    | none => rfl
    | _ =>
      simp only [eq]
      exact eqNumber_comm _ _
  | bool | int | float =>
    cases b with
    | list | dict | set => simp [isHashable] at hb
    | _ =>
      simp only [eq]
      exact eqNumber_comm _ _

theorem eqAll_comm_of_hashable (xs ys : List Value) (hxs : allHashable xs = true)
    (hys : allHashable ys = true) : eqAll xs ys = eqAll ys xs := by
  cases xs with
  | nil => cases ys <;> simp [eqAll]
  | cons x xs =>
    cases ys with
    | nil => simp [eqAll]
    | cons y ys =>
      simp only [allHashable, Bool.and_eq_true] at hxs hys
      rw [eqAll, eqAll, eq_comm_of_hashable x y hxs.1 hys.1,
        eqAll_comm_of_hashable xs ys hxs.2 hys.2]

end

/-! ### Well-formed values -/

/-- The values can be elements of a set or keys of a dict, and no two of them are equal. -/
structure Distinct (vs : List Value) : Prop where
  hashable : ∀ v ∈ vs, v.isHashable = true
  differ : vs.Pairwise fun v w => v.eq w = false ∧ w.eq v = false

inductive WellFormed : Value → Prop
  | none : WellFormed none
  | bool (b : Bool) : WellFormed (bool b)
  | int (n : Int64) : WellFormed (int n)
  | float (x : Double) : WellFormed (float x)
  | str (s : String) : WellFormed (str s)
  | list {vs : List Value} (h : ∀ v ∈ vs, WellFormed v) : WellFormed (list vs)
  | tuple {vs : List Value} (h : ∀ v ∈ vs, WellFormed v) : WellFormed (tuple vs)
  | set {vs : List Value} (h : Distinct vs) : WellFormed (set vs)
  | dict {es : List (Value × Value)} (hkeys : Distinct (es.map Prod.fst))
    (hvalues : ∀ e ∈ es, WellFormed e.2) : WellFormed (dict es)

theorem isHashable_of_mem {v : Value} {vs : List Value} (h : allHashable vs = true)
    (hv : v ∈ vs) : v.isHashable = true := by
  induction vs with
  | nil => cases hv
  | cons w vs ih =>
    simp only [allHashable, Bool.and_eq_true] at h
    rcases List.mem_cons.mp hv with rfl | hv
    · exact h.1
    · exact ih h.2 hv

/-- A hashable value holds no set and no dict, so nothing can be wrong with it. -/
theorem WellFormed.of_hashable (v : Value) (h : v.isHashable = true) : v.WellFormed := by
  cases v with
  | list | dict | set => simp [isHashable] at h
  | none => exact .none
  | bool b => exact .bool b
  | int n => exact .int n
  | float x => exact .float x
  | str s => exact .str s
  | tuple vs =>
    apply WellFormed.tuple
    intro v hv
    have := List.sizeOf_lt_of_mem hv
    exact of_hashable v (isHashable_of_mem h hv)
termination_by sizeOf v

theorem isHashable_of_require {v : Value} {u : Unit} (h : v.requireHashable = .ok u) :
    v.isHashable = true := by
  unfold requireHashable at h
  split at h
  · assumption
  · cases h

/-- Iteration gives well-formed items. -/
theorem WellFormed.items {v : Value} {vs : List Value} (h : v.WellFormed)
    (hvs : v.items = .ok vs) : ∀ w ∈ vs, w.WellFormed := by
  cases h with
  | none | bool | int | float => simp [Value.items] at hvs
  | str s =>
    simp only [Value.items, Except.ok.injEq] at hvs
    subst hvs
    intro w hw
    obtain ⟨c, -, rfl⟩ := List.mem_map.mp hw
    exact .str _
  | list h | tuple h =>
    cases hvs
    exact h
  | set h =>
    cases hvs
    intro w hw
    exact .of_hashable w (h.hashable w hw)
  | dict hkeys hvalues =>
    cases hvs
    intro w hw
    exact .of_hashable w (hkeys.hashable w hw)

/-! ### Distinct values -/

namespace Distinct

variable {v : Value} {vs ws : List Value}

theorem nil : Distinct [] := ⟨List.forall_mem_nil _, .nil⟩

theorem filter (h : Distinct vs) (p : Value → Bool) : Distinct (vs.filter p) :=
  ⟨fun v hv => h.hashable v (List.mem_filter.mp hv).1, h.differ.filter p⟩

/-- Two lists may be joined if nothing in the second is equal to something in the first. -/
theorem append (hvs : Distinct vs) (hws : Distinct ws)
    (h : ∀ v ∈ vs, ∀ w ∈ ws, v.eq w = false) : Distinct (vs ++ ws) := by
  constructor
  · intro v hv
    rcases List.mem_append.mp hv with hv | hv
    · exact hvs.hashable v hv
    · exact hws.hashable v hv
  · refine List.pairwise_append.mpr ⟨hvs.differ, hws.differ, ?_⟩
    intro v hv w hw
    have hvw := h v hv w hw
    rw [eq_comm_of_hashable w v (hws.hashable w hw) (hvs.hashable v hv)]
    exact ⟨hvw, hvw⟩

theorem singleton (hv : v.isHashable = true) : Distinct [v] :=
  ⟨by simpa using hv, List.pairwise_singleton _ _⟩

theorem eq_eq_false_of_not_member (h : v.memberOf vs = false) : ∀ w ∈ vs, w.eq v = false := by
  simpa [memberOf] using h

theorem addElement (h : Distinct vs) (hv : v.isHashable = true) :
    Distinct (Value.addElement vs v) := by
  unfold Value.addElement
  by_cases hmem : v.memberOf vs = true
  · rw [if_pos hmem]
    exact h
  · rw [if_neg hmem]
    apply h.append (singleton hv)
    intro w hw x hx
    rw [List.mem_singleton.mp hx]
    exact eq_eq_false_of_not_member (by simpa using hmem) w hw

end Distinct

/-! ### Making sets and dicts -/

theorem wellFormed_mkSet_go {made vs : List Value} {v : Value} (hmade : Distinct made)
    (h : mkSet.go made vs = .ok v) : v.WellFormed := by
  induction vs generalizing made with
  | nil =>
    cases h
    exact .set hmade
  | cons w vs ih =>
    simp only [mkSet.go] at h
    split at h
    · next hw => exact ih (hmade.addElement (isHashable_of_require hw)) h
    · cases h

/-- **A set that is made of any items is well-formed.** -/
theorem wellFormed_mkSet {vs : List Value} {v : Value} (h : mkSet vs = .ok v) : v.WellFormed :=
  wellFormed_mkSet_go .nil h

/-- The keys are those of before, and the new one at the end unless an equal one is there. -/
theorem keys_putEntry (es : List (Value × Value)) (k v : Value) :
    (putEntry es k v).map Prod.fst = addElement (es.map Prod.fst) k := by
  induction es with
  | nil => rfl
  | cons e es ih =>
    obtain ⟨k', v'⟩ := e
    by_cases hk : k'.eq k = true
    · simp [putEntry, hk, addElement, memberOf]
    · have hmember : k.memberOf (k' :: es.map Prod.fst) = k.memberOf (es.map Prod.fst) := by
        simp [memberOf, hk]
      rw [putEntry, if_neg hk, List.map_cons, List.map_cons, ih, addElement, addElement, hmember]
      by_cases hmem : k.memberOf (es.map Prod.fst) = true
      · rw [if_pos hmem, if_pos hmem]
      · rw [if_neg hmem, if_neg hmem, List.cons_append]

theorem mem_putEntry {es : List (Value × Value)} {k v : Value} {e : Value × Value}
    (h : e ∈ putEntry es k v) : e.2 = v ∨ ∃ e' ∈ es, e'.2 = e.2 := by
  induction es with
  | nil =>
    rw [putEntry, List.mem_singleton] at h
    exact .inl (by rw [h])
  | cons e' es ih =>
    obtain ⟨k', v'⟩ := e'
    rw [putEntry] at h
    by_cases hk : k'.eq k = true
    · rw [if_pos hk] at h
      rcases List.mem_cons.mp h with rfl | h
      · exact .inl rfl
      · exact .inr ⟨e, List.mem_cons_of_mem _ h, rfl⟩
    · rw [if_neg hk] at h
      rcases List.mem_cons.mp h with rfl | h
      · exact .inr ⟨_, List.mem_cons_self, rfl⟩
      · rcases ih h with h | ⟨e', he', h⟩
        · exact .inl h
        · exact .inr ⟨e', List.mem_cons_of_mem _ he', h⟩

theorem wellFormed_mkDict_go {made es : List (Value × Value)} {v : Value}
    (hmade : (dict made).WellFormed) (hes : ∀ e ∈ es, e.2.WellFormed)
    (h : mkDict.go made es = .ok v) : v.WellFormed := by
  induction es generalizing made with
  | nil =>
    cases h
    exact hmade
  | cons e es ih =>
    obtain ⟨k, w⟩ := e
    obtain ⟨hw, hes⟩ := List.forall_mem_cons.mp hes
    cases hmade with
    | dict hkeys hvalues =>
      simp only [mkDict.go] at h
      split at h
      · next hk =>
        refine ih (.dict ?_ ?_) hes h
        · rw [keys_putEntry]
          exact hkeys.addElement (isHashable_of_require hk)
        · intro e he
          rcases mem_putEntry he with h | ⟨e', he', h⟩
          · rw [h]
            exact hw
          · rw [← h]
            exact hvalues e' he'
      · cases h

/-- **A dict that is made of any entries with well-formed values is well-formed.** -/
theorem wellFormed_mkDict {es : List (Value × Value)} {v : Value}
    (hes : ∀ e ∈ es, e.2.WellFormed) (h : mkDict es = .ok v) : v.WellFormed := by
  have hempty : (dict []).WellFormed := .dict .nil (List.forall_mem_nil _)
  exact wellFormed_mkDict_go hempty hes h

end Value

end SafeExpr
