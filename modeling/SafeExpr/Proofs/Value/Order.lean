/-
  SafeExpr/Proofs/Value/Order.lean
  ================================
  **When the order of values is one.**

  Values are compared as numbers, as strings, or item by item up to the first items that
  differ.  Where there is no NaN and no float equal to two different integers (`Ordered`),
  the comparison is a preorder: to swap the values swaps the answer, and `≤` is transitive.
  Both say more than they would of a total order.  If `a` can be compared with `b`, then `b`
  with `a`; if `a ≤ b` and `b ≤ c`, then `a` can be compared with `c`.

  Items that are equal are passed over and need not be comparable themselves, so equality
  has to be an equivalence for this: `eq_equivalence` is what it all rests on.

  Equal values need not be identical: they may be of different types (`1` and `True`) or be
  written differently (sets in another order).  The order does not tell them apart all the same
  (`compare_congr_left`), since each is at most the other.  Without floats there is nothing to be
  ambiguous, and the laws hold of all well-formed values (`order_laws`).
-/
import SafeExpr.Proofs.Number.Exact
import SafeExpr.Proofs.Value.Equality

namespace SafeExpr

namespace Number

/-! ### Numbers -/

/-- The first number is at most the second. -/
def Le (x y : Number) : Prop := ∃ c, x.compare y = some c ∧ c.isLE = true

/-- The key of the nearest double. -/
def key (x : Number) : Int := x.toDouble.key

/-- Numbers without a NaN, and without a float that is equal to two different integers. -/
structure Ordered (ns : List Number) : Prop where
  nanFree : ∀ x ∈ ns, x.isNaN = false
  unambiguous : Unambiguous ns

/-- Without floats there is nothing to be ambiguous. -/
theorem Ordered.of_integers {ns : List Number} (h : ∀ x, float x ∉ ns) : Ordered ns where
  nanFree x hx := by
    cases x with
    | int n => rfl
    | float x => exact absurd hx (h x)
  unambiguous _ _ x _ _ hx := absurd hx (h x)

theorem toDouble_isNaN (x : Number) : x.toDouble.isNaN = x.isNaN := by
  cases x with
  | int n => exact Double.ofInt_isNaN n.toInt
  | float x => rfl

theorem double_compare_swap (x y : Double) : y.compare x = (x.compare y).map Ordering.swap := by
  unfold Double.compare
  rw [Bool.or_comm y.isNaN]
  split
  · rfl
  · rw [Std.OrientedOrd.eq_swap (a := y.key)]
    rfl

theorem compare_swap (x y : Number) : y.compare x = (x.compare y).map Ordering.swap := by
  cases x with
  | int a =>
    cases y with
    | int b =>
      simp only [Number.compare, Option.map_some]
      rw [Std.OrientedOrd.eq_swap (a := b.toInt)]
    | float y => exact double_compare_swap _ _
  | float x => cases y <;> exact double_compare_swap _ _

theorem double_compare_eq_iff {x y : Double} {c : Ordering} (h : x.compare y = some c) :
    c = .eq ↔ x.eq y = true := by
  unfold Double.compare at h
  split at h
  · cases h
  · next hnan =>
    cases h
    rw [Double.eq_iff, Std.compare_eq_iff_eq]
    simp only [Bool.or_eq_true, not_or, Bool.not_eq_true] at hnan
    exact ⟨fun hkey => ⟨hnan.1, hnan.2, hkey⟩, fun heq => heq.2.2⟩

theorem compare_eq_iff {x y : Number} {c : Ordering} (h : x.compare y = some c) :
    c = .eq ↔ x.eq y = true := by
  cases x with
  | int a =>
    cases y with
    | int b =>
      cases h
      rw [Std.compare_eq_iff_eq, eq_int_iff, Int64.toInt_inj]
    | float y => exact double_compare_eq_iff h
  | float x => cases y <;> exact double_compare_eq_iff h

theorem double_compare {x y : Double} (hx : x.isNaN = false) (hy : y.isNaN = false) :
    x.compare y = some (Ord.compare x.key y.key) := by
  rw [Double.compare, hx, hy]
  rfl

/-- Without a NaN two numbers have an order. -/
theorem exists_compare {x y : Number} (hx : x.isNaN = false) (hy : y.isNaN = false) :
    ∃ c, x.compare y = some c := by
  rw [← toDouble_isNaN] at hx hy
  cases x with
  | int a =>
    cases y with
    | int b => exact ⟨_, rfl⟩
    | float y => exact ⟨_, double_compare hx hy⟩
  | float x => cases y <;> exact ⟨_, double_compare hx hy⟩

theorem compare_of_eq {x y : Number} (h : x.eq y = true) : x.compare y = some .eq := by
  have hnan : x.isNaN = false ∧ y.isNaN = false := by
    cases x with
    | int a =>
      cases y with
      | int b => exact ⟨rfl, rfl⟩
      | float y => exact ⟨rfl, (Double.eq_iff.mp h).2.1⟩
    | float x =>
      cases y with
      | int b => exact ⟨(Double.eq_iff.mp h).1, rfl⟩
      | float y => exact ⟨(Double.eq_iff.mp h).1, (Double.eq_iff.mp h).2.1⟩
  obtain ⟨c, hc⟩ := exists_compare hnan.1 hnan.2
  rw [hc, (compare_eq_iff hc).mpr h]

theorem le_int_iff {a b : Int64} : Le (int a) (int b) ↔ a.toInt ≤ b.toInt := by
  rw [← Int.isLE_compare]
  exact ⟨fun ⟨_, hc, hle⟩ => Option.some.inj hc ▸ hle, fun hle => ⟨_, rfl, hle⟩⟩

theorem double_le_iff {x y : Double} (hx : x.isNaN = false) (hy : y.isNaN = false) :
    (∃ c, x.compare y = some c ∧ c.isLE = true) ↔ x.key ≤ y.key := by
  rw [double_compare hx hy, ← Int.isLE_compare]
  exact ⟨fun ⟨_, hc, hle⟩ => Option.some.inj hc ▸ hle, fun hle => ⟨_, rfl, hle⟩⟩

/-- Unless both are integers, numbers are in the order of their keys. -/
theorem le_iff_key {x y : Number} (hx : x.isNaN = false) (hy : y.isNaN = false)
    (hfloat : (∃ f, x = float f) ∨ ∃ f, y = float f) : Le x y ↔ x.key ≤ y.key := by
  rw [← toDouble_isNaN] at hx hy
  rcases hfloat with ⟨f, rfl⟩ | ⟨f, rfl⟩
  · cases y <;> exact double_le_iff hx hy
  · cases x <;> exact double_le_iff hx hy

theorem Le.key_le {x y : Number} (hx : x.isNaN = false) (hy : y.isNaN = false) (h : Le x y) :
    x.key ≤ y.key := by
  cases x with
  | int a =>
    cases y with
    | int b => exact Double.ofInt_key_mono (le_int_iff.mp h)
    | float f => exact (le_iff_key hx hy (.inr ⟨f, rfl⟩)).mp h
  | float f => exact (le_iff_key hx hy (.inl ⟨f, rfl⟩)).mp h

/-- **The order of numbers is transitive where it is unambiguous.** -/
theorem Ordered.le_trans {ns : List Number} (hns : Ordered ns) {x y z : Number} (hx : x ∈ ns)
    (hy : y ∈ ns) (hz : z ∈ ns) (hxy : Le x y) (hyz : Le y z) : Le x z := by
  have hxn := hns.nanFree x hx
  have hyn := hns.nanFree y hy
  have hzn := hns.nanFree z hz
  have hkeys := Int.le_trans (hxy.key_le hxn hyn) (hyz.key_le hyn hzn)
  cases x with
  | float f => exact (le_iff_key hxn hzn (.inl ⟨f, rfl⟩)).mpr hkeys
  | int a =>
    cases z with
    | float f => exact (le_iff_key hxn hzn (.inr ⟨f, rfl⟩)).mpr hkeys
    | int b =>
      cases y with
      | int m => exact le_int_iff.mpr (Int.le_trans (le_int_iff.mp hxy) (le_int_iff.mp hyz))
      | float f =>
        -- if the second integer were the smaller one, the float would be equal to both
        rw [le_int_iff]
        by_contra hless
        have hba : (int b).key ≤ (int a).key := Double.ofInt_key_mono (by omega)
        have haf := hxy.key_le hxn hyn
        have hfb := hyz.key_le hyn hzn
        have hafeq : (int a).eq (float f) = true :=
          Double.eq_iff.mpr ⟨Double.ofInt_isNaN _, hyn, by
            change (int a).key = (float f).key
            omega⟩
        have hbfeq : (int b).eq (float f) = true :=
          Double.eq_iff.mpr ⟨Double.ofInt_isNaN _, hyn, by
            change (int b).key = (float f).key
            omega⟩
        rw [hns.unambiguous a b f hx hz hy hafeq hbfeq] at hless
        omega

end Number

open Number (Ordered)

namespace Value

/-! ### What a comparison answers -/

/-- What the comparison of two lists of items answers: equal items are passed over. -/
inductive CompareItems : List Value → List Value → Option Ordering → Prop
  | done : CompareItems [] [] (some .eq)
  | shorter (y : Value) (ys : List Value) : CompareItems [] (y :: ys) (some .lt)
  | longer (x : Value) (xs : List Value) : CompareItems (x :: xs) [] (some .gt)
  | equal {x y : Value} {xs ys : List Value} {o : Option Ordering} (h : x.eq y = true)
    (hrest : CompareItems xs ys o) : CompareItems (x :: xs) (y :: ys) o
  | differ {x y : Value} {o : Option Ordering} (xs ys : List Value) (h : ¬ x.eq y = true)
    (hfirst : x.compare y = .ok o) : CompareItems (x :: xs) (y :: ys) o

theorem compareAll_eq_ok_iff {xs ys : List Value} {o : Option Ordering} :
    compareAll xs ys = .ok o ↔ CompareItems xs ys o := by
  constructor
  · intro h
    induction xs generalizing ys with
    | nil =>
      cases ys with
      | nil =>
        rw [compareAll] at h
        cases h
        exact .done
      | cons y ys =>
        simp only [compareAll] at h
        cases h
        exact .shorter y ys
    | cons x xs ih =>
      cases ys with
      | nil =>
        simp only [compareAll] at h
        cases h
        exact .longer x xs
      | cons y ys =>
        rw [compareAll] at h
        by_cases hxy : x.eq y = true
        · rw [if_pos hxy] at h
          exact .equal hxy (ih h)
        · rw [if_neg hxy] at h
          exact .differ xs ys hxy h
  · intro h
    induction h with
    | done => rw [compareAll]
    | shorter y ys => simp only [compareAll]
    | longer x xs => simp only [compareAll]
    | equal hxy _ ih =>
      rw [compareAll, if_pos hxy]
      exact ih
    | differ xs ys hxy hfirst =>
      rw [compareAll, if_neg hxy]
      exact hfirst

/-- What the comparison of two values answers. -/
inductive Compares : Value → Value → Option Ordering → Prop
  | str (s t : String) : Compares (str s) (str t) (some (Ord.compare s t))
  | list {xs ys : List Value} {o : Option Ordering} (h : CompareItems xs ys o) :
    Compares (list xs) (list ys) o
  | tuple {xs ys : List Value} {o : Option Ordering} (h : CompareItems xs ys o) :
    Compares (tuple xs) (tuple ys) o
  | number {a b : Value} {x y : Number} (ha : a.asNumber = some x) (hb : b.asNumber = some y) :
    Compares a b (x.compare y)

theorem compare_eq_ok_iff {a b : Value} {o : Option Ordering} :
    a.compare b = .ok o ↔ Compares a b o := by
  constructor
  · intro h
    unfold compare at h
    split at h
    · cases h
      exact .str _ _
    · exact .list (compareAll_eq_ok_iff.mp h)
    · exact .tuple (compareAll_eq_ok_iff.mp h)
    · split at h
      · next hx hy =>
        cases h
        exact .number hx hy
      · cases h
  · intro h
    cases h with
    | str s t => simp [compare]
    | list h => simpa [compare] using compareAll_eq_ok_iff.mpr h
    | tuple h => simpa [compare] using compareAll_eq_ok_iff.mpr h
    | number ha hb =>
      cases a with
      | bool | int | float => cases b <;> cases hb <;> cases ha <;> simp [compare, asNumber, asInt]
      | _ => cases ha

/-- Two values can be compared. -/
def Orderable (a b : Value) : Prop := ∃ o, a.compare b = .ok o

/-- The first value is at most the second. -/
def Le (a b : Value) : Prop := ∃ c, a.compare b = .ok (some c) ∧ c.isLE = true

def LeItems (xs ys : List Value) : Prop := ∃ c, CompareItems xs ys (some c) ∧ c.isLE = true

/-- The first value is at most the second, and not equal to it. -/
def Less (a b : Value) : Prop := ¬ a.eq b = true ∧ Le a b

inductive LeStep : Value → Value → Prop
  | str {s t : String} (h : (Ord.compare s t).isLE = true) : LeStep (str s) (str t)
  | list {xs ys : List Value} (h : LeItems xs ys) : LeStep (list xs) (list ys)
  | tuple {xs ys : List Value} (h : LeItems xs ys) : LeStep (tuple xs) (tuple ys)
  | number {a b : Value} {x y : Number} (ha : a.asNumber = some x) (hb : b.asNumber = some y)
    (h : x.Le y) : LeStep a b

theorem le_iff_step {a b : Value} : Le a b ↔ LeStep a b := by
  constructor
  · rintro ⟨c, hc, hle⟩
    rw [compare_eq_ok_iff] at hc
    generalize ho : some c = o at hc
    cases hc with
    | str s t =>
      cases ho
      exact .str hle
    | list h => exact .list ⟨c, ho ▸ h, hle⟩
    | tuple h => exact .tuple ⟨c, ho ▸ h, hle⟩
    | number hx hy => exact .number hx hy ⟨c, ho.symm, hle⟩
  · intro h
    cases h with
    | str h => exact ⟨_, compare_eq_ok_iff.mpr (.str _ _), h⟩
    | list h =>
      obtain ⟨c, hc, hle⟩ := h
      exact ⟨c, compare_eq_ok_iff.mpr (.list hc), hle⟩
    | tuple h =>
      obtain ⟨c, hc, hle⟩ := h
      exact ⟨c, compare_eq_ok_iff.mpr (.tuple hc), hle⟩
    | number hx hy h =>
      obtain ⟨c, hc, hle⟩ := h
      exact ⟨c, compare_eq_ok_iff.mpr (hc ▸ .number hx hy), hle⟩

theorem leItems_nil (ys : List Value) : LeItems [] ys := by
  cases ys with
  | nil => exact ⟨.eq, .done, rfl⟩
  | cons y ys => exact ⟨.lt, .shorter y ys, rfl⟩

theorem not_leItems_nil (x : Value) (xs : List Value) : ¬ LeItems (x :: xs) [] := by
  rintro ⟨c, hc, hle⟩
  cases hc
  cases hle

theorem leItems_cons_iff {x y : Value} {xs ys : List Value} :
    LeItems (x :: xs) (y :: ys) ↔ (x.eq y = true ∧ LeItems xs ys) ∨ Less x y := by
  constructor
  · rintro ⟨c, hc, hle⟩
    cases hc with
    | equal hxy hrest => exact .inl ⟨hxy, c, hrest, hle⟩
    | differ _ _ hxy hfirst => exact .inr ⟨hxy, c, hfirst, hle⟩
  · rintro (⟨hxy, c, hc, hle⟩ | ⟨hxy, c, hc, hle⟩)
    · exact ⟨c, .equal hxy hc, hle⟩
    · exact ⟨c, .differ xs ys hxy hc, hle⟩

/-! ### Equal values -/

theorem compareItems_of_eqAll {xs ys : List Value} (h : eqAll xs ys = true) :
    CompareItems xs ys (some .eq) := by
  induction eqAll_iff.mp h with
  | nil => exact .done
  | cons hxy hrest ih => exact .equal hxy (ih (eqAll_iff.mpr hrest))

/-- A value that can be compared at all can be compared with its equals. -/
theorem compare_of_eq {a b c : Value} (heq : a.eq b = true) (h : Orderable a c) :
    a.compare b = .ok (some .eq) := by
  obtain ⟨o, ho⟩ := h
  rw [compare_eq_ok_iff] at ho ⊢
  cases eq_iff_alike.mp heq with
  | none => cases ho with | number ha => cases ha
  | set => cases ho with | number ha => cases ha
  | dict => cases ho with | number ha => cases ha
  | str s =>
    have hself : Ord.compare s s = .eq := Std.compare_eq_iff_eq.mpr rfl
    exact hself ▸ Compares.str s s
  | list hitems => exact .list (compareItems_of_eqAll (eqAll_iff.mpr hitems))
  | tuple hitems => exact .tuple (compareItems_of_eqAll (eqAll_iff.mpr hitems))
  | number hx hy hxy => exact Number.compare_of_eq hxy ▸ Compares.number hx hy

theorem CompareItems.eq_iff {xs ys : List Value} {c : Ordering}
    (h : CompareItems xs ys (some c))
    (hparts : ∀ x ∈ xs, ∀ (y : Value) (c : Ordering), x.compare y = .ok (some c) →
      (c = .eq ↔ x.eq y = true)) : c = .eq ↔ eqAll xs ys = true := by
  generalize ho : some c = o at h
  induction h with
  | done =>
    cases ho
    simp [eqAll]
  | shorter y ys =>
    cases ho
    simp [eqAll]
  | longer x xs =>
    cases ho
    simp [eqAll]
  | equal hxy _ ih =>
    rw [ih (List.forall_mem_cons.mp hparts).2 ho, eqAll, hxy, Bool.true_and]
  | @differ x y _ xs ys hxy hfirst =>
    subst ho
    rw [hparts x List.mem_cons_self y c hfirst]
    simp [eqAll, hxy]

/-- **The order calls those values equal that `==` does.** -/
theorem compare_eq_iff (a b : Value) (c : Ordering) (h : a.compare b = .ok (some c)) :
    c = .eq ↔ a.eq b = true := by
  have hparts : ∀ x ∈ a.parts, ∀ (y : Value) (c : Ordering), x.compare y = .ok (some c) →
      (c = .eq ↔ x.eq y = true) := by
    intro x hx y c hc
    have := size_part_lt hx
    exact compare_eq_iff x y c hc
  generalize ho : some c = o at h
  rw [compare_eq_ok_iff] at h
  cases h with
  | str s t =>
    cases ho
    rw [Std.compare_eq_iff_eq]
    simp [eq]
  | list h =>
    rw [CompareItems.eq_iff (ho ▸ h) hparts]
    simp [eq, parts]
  | tuple h =>
    rw [CompareItems.eq_iff (ho ▸ h) hparts]
    simp [eq, parts]
  | number hx hy =>
    rw [Number.compare_eq_iff ho.symm]
    constructor
    · exact fun hxy => eq_iff_alike.mpr (.number hx hy hxy)
    · intro hab
      cases eq_iff_alike.mp hab with
      | number hx' hy' hxy =>
        cases hx.symm.trans hx'
        cases hy.symm.trans hy'
        exact hxy
      | _ => cases hx
termination_by sizeOf a

/-! ### Values whose order is one -/

/-- A well-formed value with its numbers among `ns`. -/
structure Within (ns : List Number) (v : Value) : Prop where
  wellFormed : v.WellFormed
  numbers : v.numbers ⊆ ns

/-- No float in a value, at any depth. -/
def FloatFree (v : Value) : Prop := ∀ x, Number.float x ∉ v.numbers

theorem mem_numbersAll {x : Number} {vs : List Value} :
    x ∈ numbersAll vs ↔ ∃ v ∈ vs, x ∈ v.numbers := by
  induction vs with
  | nil => simp [numbersAll]
  | cons v vs ih => simp [numbersAll, ih]

theorem ordered_of_floatFree {vs : List Value} (h : ∀ v ∈ vs, v.FloatFree) :
    Ordered (numbersAll vs) := by
  apply Ordered.of_integers
  intro x hx
  obtain ⟨v, hv, hx⟩ := mem_numbersAll.mp hx
  exact h v hv x hx

/-- The items of a list, among the numbers of all of them. -/
theorem within_numbersAll {vs : List Value} (h : ∀ v ∈ vs, v.WellFormed) :
    ∀ v ∈ vs, v.Within (numbersAll vs) :=
  fun v hv => ⟨h v hv, numbers_subset_of_mem hv⟩

theorem Within.part {ns : List Number} {p v : Value} (h : v.Within ns) (hp : p ∈ v.parts) :
    p.Within ns :=
  ⟨h.wellFormed.part hp, List.Subset.trans (numbers_subset_of_part hp) h.numbers⟩

section Laws

variable {ns : List Number} (hns : Ordered ns)
include hns

theorem eq_symm_within {a b : Value} (ha : a.Within ns) (hb : b.Within ns)
    (h : a.eq b = true) : b.eq a = true :=
  eq_symm_of_unambiguous hns.unambiguous a b ha.wellFormed hb.wellFormed ha.numbers hb.numbers h

theorem eq_trans_within {a b c : Value} (ha : a.Within ns) (hb : b.Within ns)
    (hc : c.Within ns) (hab : a.eq b = true) (hbc : b.eq c = true) : a.eq c = true :=
  eq_trans_of_unambiguous hns.unambiguous a b c ha.numbers hb.numbers hc.numbers hab hbc

/-! ### Swapping -/

theorem CompareItems.swap {xs ys : List Value} {o : Option Ordering} (h : CompareItems xs ys o)
    (hxs : ∀ x ∈ xs, x.Within ns) (hys : ∀ y ∈ ys, y.Within ns)
    (hparts : ∀ x ∈ xs, ∀ y ∈ ys, ∀ o, x.compare y = .ok o →
      y.compare x = .ok (o.map Ordering.swap)) :
    CompareItems ys xs (o.map Ordering.swap) := by
  induction h with
  | done => exact .done
  | shorter y ys => exact .longer y ys
  | longer x xs => exact .shorter x xs
  | equal hxy _ ih =>
    obtain ⟨hx, hxs⟩ := List.forall_mem_cons.mp hxs
    obtain ⟨hy, hys⟩ := List.forall_mem_cons.mp hys
    refine .equal (eq_symm_within hns hx hy hxy) (ih hxs hys fun x hx y hy => ?_)
    exact hparts x (List.mem_cons_of_mem _ hx) y (List.mem_cons_of_mem _ hy)
  | differ xs ys hxy hfirst =>
    have hx := hxs _ List.mem_cons_self
    have hy := hys _ List.mem_cons_self
    refine .differ ys xs (fun hyx => hxy (eq_symm_within hns hy hx hyx)) ?_
    exact hparts _ List.mem_cons_self _ List.mem_cons_self _ hfirst

/-- **If `a` can be compared with `b`, then `b` with `a`,** with the opposite answer. -/
theorem compare_swap (a b : Value) (ha : a.Within ns) (hb : b.Within ns) (o : Option Ordering)
    (h : a.compare b = .ok o) : b.compare a = .ok (o.map Ordering.swap) := by
  have hparts : ∀ x ∈ a.parts, ∀ y ∈ b.parts, ∀ o, x.compare y = .ok o →
      y.compare x = .ok (o.map Ordering.swap) := by
    intro x hx y hy
    have := size_part_lt hx
    exact compare_swap x y (ha.part hx) (hb.part hy)
  rw [compare_eq_ok_iff] at h ⊢
  cases h with
  | str s t =>
    rw [Option.map_some, ← Std.OrientedOrd.eq_swap]
    exact .str t s
  | list h => exact .list (h.swap hns (fun _ => ha.part) (fun _ => hb.part) hparts)
  | tuple h => exact .tuple (h.swap hns (fun _ => ha.part) (fun _ => hb.part) hparts)
  | number hx hy =>
    rw [← Number.compare_swap]
    exact .number hy hx
termination_by sizeOf a

theorem Orderable.symm {a b : Value} (ha : a.Within ns) (hb : b.Within ns)
    (h : Orderable a b) : Orderable b a := by
  obtain ⟨o, ho⟩ := h
  exact ⟨_, compare_swap hns a b ha hb o ho⟩

/-! ### Transitivity -/

/-- Items that are not equal and in order are not so the other way round. -/
theorem not_le_of_less {x y : Value} (hx : x.Within ns) (hy : y.Within ns) (h : Less x y) :
    ¬ Le y x := by
  obtain ⟨hne, c, hc, hle⟩ := h
  rintro ⟨c', hc', hle'⟩
  have hswap := compare_swap hns x y hx hy _ hc
  rw [hc'] at hswap
  cases hswap
  have hequal : c = .eq := by
    cases c with
    | eq => rfl
    | lt => cases hle'
    | gt => cases hle
  exact hne ((compare_eq_iff x y c hc).mp hequal)

section Items

variable {S : Value → Prop} (hwithin : ∀ v, S v → v.Within ns)
  (htrans : ∀ u v w, S u → S v → S w → Le u v → Le v w → Le u w)
include hwithin htrans

theorem less_of_eq_of_less {x y z : Value} (hx : S x) (hy : S y) (hz : S z)
    (hxy : x.eq y = true) (hyz : Less y z) : Less x z := by
  have hx' := hwithin x hx
  have hy' := hwithin y hy
  have hyx := eq_symm_within hns hx' hy' hxy
  obtain ⟨hne, hle⟩ := hyz
  obtain ⟨c, hc, -⟩ := id hle
  have hxyle : Le x y := ⟨_, compare_swap hns y x hy' hx' _ (compare_of_eq hyx ⟨_, hc⟩), rfl⟩
  exact ⟨fun h => hne (eq_trans_within hns hy' hx' (hwithin z hz) hyx h),
    htrans x y z hx hy hz hxyle hle⟩

theorem less_of_less_of_eq {x y z : Value} (hx : S x) (hy : S y) (hz : S z)
    (hxy : Less x y) (hyz : y.eq z = true) : Less x z := by
  have hy' := hwithin y hy
  have hz' := hwithin z hz
  have hzy := eq_symm_within hns hy' hz' hyz
  obtain ⟨hne, hle⟩ := hxy
  obtain ⟨c, hc, -⟩ := id hle
  have hyzle : Le y z := ⟨_, compare_of_eq hyz ⟨_, compare_swap hns x y (hwithin x hx) hy' _ hc⟩, rfl⟩
  exact ⟨fun h => hne (eq_trans_within hns (hwithin x hx) hz' hy' h hzy),
    htrans x y z hx hy hz hle hyzle⟩

theorem less_trans {x y z : Value} (hx : S x) (hy : S y) (hz : S z)
    (hxy : Less x y) (hyz : Less y z) : Less x z := by
  refine ⟨fun h => ?_, htrans x y z hx hy hz hxy.2 hyz.2⟩
  -- equal ends would put the second item before the third one, and behind it
  have hzx := eq_symm_within hns (hwithin x hx) (hwithin z hz) h
  have hzy := less_of_eq_of_less hns hwithin htrans hz hx hy hzx hxy
  exact not_le_of_less hns (hwithin y hy) (hwithin z hz) hyz hzy.2

/-- Lists are in the order of their first items that differ. -/
theorem leItems_trans {xs ys zs : List Value} (hxs : ∀ x ∈ xs, S x) (hys : ∀ y ∈ ys, S y)
    (hzs : ∀ z ∈ zs, S z) (hxy : LeItems xs ys) (hyz : LeItems ys zs) : LeItems xs zs := by
  induction xs generalizing ys zs with
  | nil => exact leItems_nil zs
  | cons x xs ih =>
    cases ys with
    | nil => exact absurd hxy (not_leItems_nil x xs)
    | cons y ys =>
      cases zs with
      | nil => exact absurd hyz (not_leItems_nil y ys)
      | cons z zs =>
        obtain ⟨hx, hxs⟩ := List.forall_mem_cons.mp hxs
        obtain ⟨hy, hys⟩ := List.forall_mem_cons.mp hys
        obtain ⟨hz, hzs⟩ := List.forall_mem_cons.mp hzs
        rw [leItems_cons_iff] at hxy hyz ⊢
        rcases hxy with ⟨hxyeq, hxy⟩ | hxyless
        · rcases hyz with ⟨hyzeq, hyz⟩ | hyzless
          · exact .inl ⟨eq_trans_within hns (hwithin x hx) (hwithin y hy) (hwithin z hz) hxyeq hyzeq,
              ih hxs hys hzs hxy hyz⟩
          · exact .inr (less_of_eq_of_less hns hwithin htrans hx hy hz hxyeq hyzless)
        · rcases hyz with ⟨hyzeq, -⟩ | hyzless
          · exact .inr (less_of_less_of_eq hns hwithin htrans hx hy hz hxyless hyzeq)
          · exact .inr (less_trans hns hwithin htrans hx hy hz hxyless hyzless)

end Items

theorem le_trans_of_size (n : Nat) {a b c : Value} (ha : a.Within ns ∧ sizeOf a < n)
    (hb : b.Within ns ∧ sizeOf b < n) (hc : c.Within ns ∧ sizeOf c < n)
    (hab : Le a b) (hbc : Le b c) : Le a c := by
  induction n generalizing a b c with
  | zero => exact absurd ha.2 (Nat.not_lt_zero _)
  | succ n ih =>
    have hparts : ∀ {v : Value}, v.Within ns ∧ sizeOf v < n + 1 →
        ∀ p ∈ v.parts, p.Within ns ∧ sizeOf p < n :=
      fun hv p hp => ⟨hv.1.part hp, Nat.lt_of_lt_of_le (size_part_lt hp) (Nat.lt_succ_iff.mp hv.2)⟩
    have hitems : ∀ {xs ys zs : List Value}, (∀ x ∈ xs, x.Within ns ∧ sizeOf x < n) →
        (∀ y ∈ ys, y.Within ns ∧ sizeOf y < n) → (∀ z ∈ zs, z.Within ns ∧ sizeOf z < n) →
        LeItems xs ys → LeItems ys zs → LeItems xs zs :=
      leItems_trans hns (fun v hv => hv.1) fun _ _ _ => ih
    rw [le_iff_step] at hab hbc ⊢
    cases hab with
    | str hst =>
      cases hbc with
      | str htu => exact .str (Std.TransCmp.isLE_trans hst htu)
      | number hx => cases hx
    | list hxy =>
      cases hbc with
      | list hyz => exact .list (hitems (hparts ha) (hparts hb) (hparts hc) hxy hyz)
      | number hx => cases hx
    | tuple hxy =>
      cases hbc with
      | tuple hyz => exact .tuple (hitems (hparts ha) (hparts hb) (hparts hc) hxy hyz)
      | number hx => cases hx
    | number hx hy hxy =>
      cases hbc with
      | number hy' hz hyz =>
        cases hy.symm.trans hy'
        exact .number hx hz (hns.le_trans (ha.1.numbers (mem_numbers_of_asNumber hx))
          (hb.1.numbers (mem_numbers_of_asNumber hy)) (hc.1.numbers (mem_numbers_of_asNumber hz))
          hxy hyz)
      | _ => cases hy

/-- **If `a ≤ b` and `b ≤ c`, then `a` can be compared with `c`,** and `a ≤ c`. -/
theorem le_trans {a b c : Value} (ha : a.Within ns) (hb : b.Within ns) (hc : c.Within ns)
    (hab : Le a b) (hbc : Le b c) : Le a c :=
  le_trans_of_size hns (sizeOf a + sizeOf b + sizeOf c + 1) ⟨ha, by omega⟩ ⟨hb, by omega⟩
    ⟨hc, by omega⟩ hab hbc

/-! ### Answers -/

omit hns in
theorem CompareItems.exists_answer {xs ys : List Value} {o : Option Ordering}
    (h : CompareItems xs ys o)
    (hparts : ∀ x ∈ xs, ∀ y ∈ ys, ∀ o, x.compare y = .ok o → ∃ c, o = some c) :
    ∃ c, o = some c := by
  induction h with
  | done => exact ⟨_, rfl⟩
  | shorter y ys => exact ⟨_, rfl⟩
  | longer x xs => exact ⟨_, rfl⟩
  | equal _ _ ih =>
    exact ih fun x hx y hy => hparts x (List.mem_cons_of_mem _ hx) y (List.mem_cons_of_mem _ hy)
  | differ xs ys _ hfirst => exact hparts _ List.mem_cons_self _ List.mem_cons_self _ hfirst

/-- **Without a NaN a comparison that does not fail has an answer.** -/
theorem exists_compare (a b : Value) (ha : a.Within ns) (hb : b.Within ns)
    (o : Option Ordering) (h : a.compare b = .ok o) : ∃ c, o = some c := by
  have hparts : ∀ x ∈ a.parts, ∀ y ∈ b.parts, ∀ o, x.compare y = .ok o → ∃ c, o = some c := by
    intro x hx y hy
    have := size_part_lt hx
    exact exists_compare x y (ha.part hx) (hb.part hy)
  rw [compare_eq_ok_iff] at h
  cases h with
  | str s t => exact ⟨_, rfl⟩
  | list h => exact h.exists_answer hparts
  | tuple h => exact h.exists_answer hparts
  | number hx hy =>
    exact Number.exists_compare (hns.nanFree _ (ha.numbers (mem_numbers_of_asNumber hx)))
      (hns.nanFree _ (hb.numbers (mem_numbers_of_asNumber hy)))
termination_by sizeOf a

end Laws

/-! ### What the answers say -/

/-- The operator `<=` asks for the order. -/
theorem compare_le_iff {a b : Value} : Operators.compare .le a b = .ok true ↔ Le a b := by
  have hordered : Operators.compare .le a b = Operators.ordered .le a b Ordering.isLE := rfl
  rw [hordered, Operators.ordered, Le]
  rcases a.compare b with e | (_ | c) <;> simp

theorem less_iff {a b : Value} : Less a b ↔ a.compare b = .ok (some .lt) := by
  constructor
  · rintro ⟨hne, c, hc, hle⟩
    cases c with
    | lt => exact hc
    | eq => exact absurd ((compare_eq_iff a b .eq hc).mp rfl) hne
    | gt => cases hle
  · intro h
    refine ⟨fun heq => ?_, .lt, h, rfl⟩
    cases (compare_eq_iff a b .lt h).mpr heq

/-! ### Equal values are compared alike -/

section Congruence

variable {ns : List Number} (hns : Ordered ns) {a a' b : Value} (ha : a.Within ns)
  (ha' : a'.Within ns) (hb : b.Within ns)
include hns ha ha' hb

/-- **What is said of a value is said of its equals.** -/
theorem compare_of_eq_left (heq : a.eq a' = true) {o : Option Ordering}
    (h : a.compare b = .ok o) : a'.compare b = .ok o := by
  have hwithin : ∀ v : Value, v.Within ns → v.Within ns := fun _ hv => hv
  have htrans : ∀ u v w : Value, u.Within ns → v.Within ns → w.Within ns →
      Le u v → Le v w → Le u w := fun _ _ _ => le_trans hns
  have heq' := eq_symm_within hns ha ha' heq
  have hself : Orderable a' a :=
    Orderable.symm hns ha ha' ⟨_, compare_of_eq heq ⟨o, h⟩⟩
  obtain ⟨c, rfl⟩ := exists_compare hns a b ha hb o h
  cases c with
  | eq =>
    have hab := (compare_eq_iff a b .eq h).mp rfl
    exact compare_of_eq (eq_trans_within hns ha' ha hb heq' hab) hself
  | lt =>
    exact less_iff.mp (less_of_eq_of_less hns hwithin htrans ha' ha hb heq' (less_iff.mpr h))
  | gt =>
    -- the other way round `b` comes before `a`, and so before its equal
    have hba : Less b a := less_iff.mpr (compare_swap hns a b ha hb _ h)
    have hba' := less_of_less_of_eq hns hwithin htrans hb ha ha' hba heq
    exact compare_swap hns b a' hb ha' _ (less_iff.mp hba')

theorem compare_congr_left (heq : a.eq a' = true) (o : Option Ordering) :
    a.compare b = .ok o ↔ a'.compare b = .ok o :=
  ⟨compare_of_eq_left hns ha ha' hb heq,
    compare_of_eq_left hns ha' ha hb (eq_symm_within hns ha ha' heq)⟩

end Congruence

/-! ### Values without floats -/

/-- A well-formed value without a float in it. -/
structure Discrete (v : Value) : Prop where
  wellFormed : v.WellFormed
  floatFree : v.FloatFree

/-- Several such values are ordered among each other. -/
theorem exists_ordered_of_discrete (vs : List Value) (h : ∀ v ∈ vs, v.Discrete) :
    ∃ ns, Ordered ns ∧ ∀ v ∈ vs, v.Within ns :=
  ⟨numbersAll vs, ordered_of_floatFree fun v hv => (h v hv).floatFree,
    within_numbersAll fun v hv => (h v hv).wellFormed⟩

section Laws

variable {a a' b c : Value}

theorem Discrete.exists_answer (ha : a.Discrete) (hb : b.Discrete) {o : Option Ordering}
    (h : a.compare b = .ok o) :
    ∃ c, o = some c ∧ (c = .eq ↔ a.eq b = true) ∧ b.compare a = .ok (some c.swap) := by
  obtain ⟨ns, hns, hwithin⟩ := exists_ordered_of_discrete [a, b] (by simp [ha, hb])
  have han := hwithin a (by simp)
  have hbn := hwithin b (by simp)
  obtain ⟨c, rfl⟩ := exists_compare hns a b han hbn o h
  exact ⟨c, rfl, compare_eq_iff a b c h, compare_swap hns a b han hbn _ h⟩

theorem Discrete.le_trans (ha : a.Discrete) (hb : b.Discrete) (hc : c.Discrete)
    (hab : Le a b) (hbc : Le b c) : Le a c := by
  obtain ⟨ns, hns, hwithin⟩ := exists_ordered_of_discrete [a, b, c] (by simp [ha, hb, hc])
  exact Value.le_trans hns (hwithin a (by simp)) (hwithin b (by simp)) (hwithin c (by simp)) hab hbc

theorem Discrete.compare_congr (ha : a.Discrete) (ha' : a'.Discrete) (hb : b.Discrete)
    (heq : a.eq a' = true) (o : Option Ordering) : a.compare b = .ok o ↔ a'.compare b = .ok o := by
  obtain ⟨ns, hns, hwithin⟩ := exists_ordered_of_discrete [a, a', b] (by simp [ha, ha', hb])
  exact compare_congr_left hns (hwithin a (by simp)) (hwithin a' (by simp)) (hwithin b (by simp))
    heq o

end Laws

/-- **The order of values without floats is one.**  Where it answers, it says which of `<`, `==`
    and `>` holds, and the opposite the other way round; `<=` is transitive, also in that the
    ends can be compared; equal values are compared alike, or neither of them can be compared. -/
theorem order_laws :
    (∀ a b : Value, a.Discrete → b.Discrete → ∀ o, a.compare b = .ok o →
      ∃ c, o = some c ∧ (c = .eq ↔ a.eq b = true) ∧ b.compare a = .ok (some c.swap)) ∧
    (∀ a b c : Value, a.Discrete → b.Discrete → c.Discrete →
      Operators.compare .le a b = .ok true → Operators.compare .le b c = .ok true →
        Operators.compare .le a c = .ok true ∧ ∃ o, a.compare c = .ok (some o) ∧ o.isLE = true) ∧
    ∀ a a' b : Value, a.Discrete → a'.Discrete → b.Discrete → a.eq a' = true →
      (∃ c, a.compare b = .ok (some c) ∧ a'.compare b = .ok (some c)) ∨
        (∃ e, a.compare b = .error e) ∧ ∃ e, a'.compare b = .error e := by
  refine ⟨fun a b ha hb o => ha.exists_answer hb, fun a b c ha hb hc hab hbc => ?_,
    fun a a' b ha ha' hb heq => ?_⟩
  · have hle := ha.le_trans hb hc (compare_le_iff.mp hab) (compare_le_iff.mp hbc)
    exact ⟨compare_le_iff.mpr hle, hle⟩
  · have hcongr := ha.compare_congr ha' hb heq
    cases h : a.compare b with
    | ok o =>
      obtain ⟨c, rfl, -⟩ := ha.exists_answer hb h
      exact .inl ⟨c, rfl, (hcongr _).mp h⟩
    | error e =>
      refine .inr ⟨⟨e, rfl⟩, ?_⟩
      cases h' : a'.compare b with
      | ok o => cases h.symm.trans ((hcongr o).mpr h')
      | error e' => exact ⟨e', rfl⟩

/-- Lists that differ behind a set in another order and a bool in place of an integer. -/
theorem order_laws_nested :
    let a : Value := .list [.set [.int 1, .int 2], .bool true, .str "x"]
    let a' : Value := .list [.set [.int 2, .int 1], .int 1, .str "x"]
    let b : Value := .list [.set [.int 2, .int 1], .bool true, .str "y"]
    let c : Value := .list [.set [.int 1, .int 2], .int 2]
    b.compare a = .ok (some .gt) ∧ Operators.compare .le a c = .ok true ∧
      a'.compare b = .ok (some .lt) := by
  intro a a' b c
  have hset : (∀ v ∈ [Value.int 1, .int 2], v.isHashable = true) ∧
      ∀ v ∈ [Value.int 2, .int 1], v.isHashable = true := by simp [isHashable]
  have hleft : (set [.int 1, .int 2]).WellFormed := .set ⟨hset.1, by decide⟩
  have hright : (set [.int 2, .int 1]).WellFormed := .set ⟨hset.2, by decide⟩
  have ha : a.Discrete := by
    refine ⟨.list ?_, by simp [a, FloatFree, numbers, numbersAll]⟩
    simpa using ⟨hleft, WellFormed.bool true, WellFormed.str "x"⟩
  have ha' : a'.Discrete := by
    refine ⟨.list ?_, by simp [a', FloatFree, numbers, numbersAll]⟩
    simpa using ⟨hright, WellFormed.int 1, WellFormed.str "x"⟩
  have hb : b.Discrete := by
    refine ⟨.list ?_, by simp [b, FloatFree, numbers, numbersAll]⟩
    simpa using ⟨hright, WellFormed.bool true, WellFormed.str "y"⟩
  have hc : c.Discrete := by
    refine ⟨.list ?_, by simp [c, FloatFree, numbers, numbersAll]⟩
    simpa using ⟨hleft, WellFormed.int 2⟩
  have hab : a.compare b = .ok (some .lt) := by rfl
  have hbc : b.compare c = .ok (some .lt) := by rfl
  obtain ⟨hanswers, htrans, hcongr⟩ := order_laws
  obtain ⟨_, hcase, -, hswap⟩ := hanswers a b ha hb _ hab
  cases hcase
  have hle := htrans a b c ha hb hc (compare_le_iff.mpr ⟨_, hab, rfl⟩)
    (compare_le_iff.mpr ⟨_, hbc, rfl⟩)
  refine ⟨hswap, hle.1, ?_⟩
  rcases hcongr a a' b ha ha' hb (by rfl) with ⟨_, hcase, h⟩ | ⟨⟨e, he⟩, -⟩
  · cases hab.symm.trans hcase
    exact h
  · cases hab.symm.trans he

end Value

end SafeExpr
