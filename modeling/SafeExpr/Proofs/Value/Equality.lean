/-
  SafeExpr/Proofs/Value/Equality.lean
  ===================================
  **When equality of values is an equivalence.**

  An integer and a float are compared as floats, so two different integers may both be equal
  to one float.  Where no float does that among the numbers of the values (`Unambiguous`),
  equality is symmetric and transitive; it is reflexive wherever there is no NaN.

  `Alike` is one step of the comparison: what `==` asks of the parts of two values.  A set or
  a dict is compared in one direction only, by its length and the search for each element.
  That this is symmetric takes a count: no two elements of the one find the same element of
  the other, since they would be equal to each other.
-/
import Mathlib.Data.List.Forall2
import SafeExpr.Proofs.Number.Exact
import SafeExpr.Proofs.Value.WellFormed

namespace SafeExpr

/-! ### Numbers -/

theorem Double.eq_iff {x y : Double} :
    x.eq y = true ↔ x.isNaN = false ∧ y.isNaN = false ∧ x.key = y.key := by
  simp [Double.eq, Bool.and_eq_true, and_assoc]

namespace Number

def isNaN : Number → Bool
  | int _ => false
  | float x => x.isNaN

theorem eq_int_iff {m n : Int64} : (int m).eq (int n) = true ↔ m = n := by
  rw [Number.eq, beq_iff_eq]

/-- No float is equal to two different integers. -/
def Unambiguous (ns : List Number) : Prop :=
  ∀ m n x, int m ∈ ns → int n ∈ ns → float x ∈ ns →
    (int m).eq (float x) = true → (int n).eq (float x) = true → m = n

theorem eq_trans_of_double {x y z : Double} (hxy : x.eq y = true) (hyz : y.eq z = true) :
    x.eq z = true := by
  rw [Double.eq_iff] at hxy hyz ⊢
  exact ⟨hxy.1, hyz.2.1, hxy.2.2.trans hyz.2.2⟩

/-- Only two integers around a float need that the float is not equal to both. -/
theorem Unambiguous.eq_trans {ns : List Number} (hns : Unambiguous ns) {x y z : Number}
    (hx : x ∈ ns) (hy : y ∈ ns) (hz : z ∈ ns) (hxy : x.eq y = true) (hyz : y.eq z = true) :
    x.eq z = true := by
  cases x with
  | int a =>
    cases y with
    | int b =>
      rw [eq_int_iff.mp hxy]
      exact hyz
    | float y =>
      cases z with
      | int c =>
        rw [Value.number_eq_comm] at hyz
        exact eq_int_iff.mpr (hns a c y hx hz hy hxy hyz)
      | float z => exact eq_trans_of_double (x := (int a).toDouble) (y := y) hxy hyz
  | float x =>
    cases y with
    | int b =>
      cases z with
      | int c =>
        rw [← eq_int_iff.mp hyz]
        exact hxy
      | float z => exact eq_trans_of_double (y := (int b).toDouble) hxy hyz
    | float y =>
      cases z with
      | int c => exact eq_trans_of_double (y := y) (z := (int c).toDouble) hxy hyz
      | float z => exact eq_trans_of_double (y := y) hxy hyz

/-- Integers up to `2^53` are told apart by their doubles. -/
theorem unambiguous_of_small {ns : List Number}
    (h : ∀ n, int n ∈ ns → n.toInt.natAbs ≤ 2 ^ 53) : Unambiguous ns := by
  intro m n x hm hn _ hmx hnx
  have hkey := (Double.eq_iff.mp hmx).2.2.trans (Double.eq_iff.mp hnx).2.2.symm
  exact Int64.toInt_inj.mp (Double.ofInt_key_inj (h m hm) (h n hn) hkey)

end Number

open Number (Unambiguous)

/-! ### Searching in one direction -/

section Search

variable {α β : Type} {R : α → β → Prop}

/-- Where as many elements as there are find one each, and no two of them the same one, all
    are found. -/
theorem found_of_length (xs : List α) : ∀ ys : List β, xs.length = ys.length →
    (∀ x ∈ xs, ∃ y ∈ ys, R x y) → xs.Pairwise (fun x x' => ∀ y ∈ ys, R x y → ¬ R x' y) →
      ∀ y ∈ ys, ∃ x ∈ xs, R x y := by
  induction xs with
  | nil =>
    intro ys hlength _ _ y hy
    rw [List.length_eq_zero_iff.mp hlength.symm] at hy
    cases hy
  | cons x xs ih =>
    intro ys hlength hfind hdiffer y hy
    obtain ⟨hx, hdiffer⟩ := List.pairwise_cons.mp hdiffer
    obtain ⟨⟨z, hz, hxz⟩, hfind⟩ := List.forall_mem_cons.mp hfind
    -- what the first element finds is of no use to the others
    obtain ⟨before, after, rfl⟩ := List.append_of_mem hz
    have hrest : ∀ x' ∈ xs, ∃ y ∈ before ++ after, R x' y := by
      intro x' hx'
      obtain ⟨y, hy, hR⟩ := hfind x' hx'
      refine ⟨y, ?_, hR⟩
      rcases List.mem_append.mp hy with hy | hy
      · exact List.mem_append_left _ hy
      · rcases List.mem_cons.mp hy with rfl | hy
        · exact absurd hR (hx x' hx' y hz hxz)
        · exact List.mem_append_right _ hy
    have hcount : xs.length = (before ++ after).length := by
      simp only [List.length_cons, List.length_append] at hlength ⊢
      omega
    have hfewer : xs.Pairwise fun x x' => ∀ y ∈ before ++ after, R x y → ¬ R x' y := by
      refine hdiffer.imp fun hne y hy => hne y ?_
      simp only [List.mem_append, List.mem_cons] at hy ⊢
      tauto
    have hcases : y = z ∨ y ∈ before ++ after := by
      simp only [List.mem_append, List.mem_cons] at hy ⊢
      tauto
    rcases hcases with rfl | hy
    · exact ⟨x, List.mem_cons_self, hxz⟩
    · obtain ⟨x', hx', hR⟩ := ih (before ++ after) hcount hrest hfewer y hy
      exact ⟨x', List.mem_cons_of_mem x hx', hR⟩

end Search

namespace Value

/-! ### One step of the comparison -/

theorem eqAll_iff {xs ys : List Value} :
    eqAll xs ys = true ↔ List.Forall₂ (fun x y => x.eq y = true) xs ys := by
  induction xs generalizing ys with
  | nil => cases ys <;> simp [eqAll]
  | cons x xs ih => cases ys <;> simp [eqAll, ih]

theorem allIn_iff {xs ys : List Value} :
    allIn xs ys = true ↔ ∀ x ∈ xs, ∃ y ∈ ys, x.eq y = true := by
  induction xs with
  | nil => simp [allIn]
  | cons x xs ih => simp [allIn, ih]

theorem allEntriesIn_iff {es fs : List (Value × Value)} :
    allEntriesIn es fs = true ↔
      ∀ e ∈ es, ∃ f ∈ fs, e.1.eq f.1 = true ∧ e.2.eq f.2 = true := by
  induction es with
  | nil => simp [allEntriesIn]
  | cons e es ih => simp [allEntriesIn, ih]

inductive Alike : Value → Value → Prop
  | none : Alike none none
  | str (s : String) : Alike (str s) (str s)
  | list {xs ys : List Value} (h : List.Forall₂ (fun x y => x.eq y = true) xs ys) :
    Alike (list xs) (list ys)
  | tuple {xs ys : List Value} (h : List.Forall₂ (fun x y => x.eq y = true) xs ys) :
    Alike (tuple xs) (tuple ys)
  | set {xs ys : List Value} (hlength : xs.length = ys.length)
    (h : ∀ x ∈ xs, ∃ y ∈ ys, x.eq y = true) : Alike (set xs) (set ys)
  | dict {es fs : List (Value × Value)} (hlength : es.length = fs.length)
    (h : ∀ e ∈ es, ∃ f ∈ fs, e.1.eq f.1 = true ∧ e.2.eq f.2 = true) : Alike (dict es) (dict fs)
  | number {a b : Value} {x y : Number} (ha : a.asNumber = some x) (hb : b.asNumber = some y)
    (h : x.eq y = true) : Alike a b

theorem eqNumber_iff {a b : Value} : a.eqNumber b = true ↔
    ∃ x y, a.asNumber = some x ∧ b.asNumber = some y ∧ x.eq y = true := by
  unfold eqNumber
  cases a.asNumber with
  | none => simp
  | some x => cases b.asNumber <;> simp

theorem eq_iff_alike {a b : Value} : a.eq b = true ↔ Alike a b := by
  constructor
  · intro h
    unfold eq at h
    split at h
    · exact .none
    · rw [beq_iff_eq] at h
      subst h
      exact .str _
    · exact .list (eqAll_iff.mp h)
    · exact .tuple (eqAll_iff.mp h)
    · rw [Bool.and_eq_true, beq_iff_eq] at h
      exact .set h.1 (allIn_iff.mp h.2)
    · rw [Bool.and_eq_true, beq_iff_eq] at h
      exact .dict h.1 (allEntriesIn_iff.mp h.2)
    · obtain ⟨x, y, hx, hy, hxy⟩ := eqNumber_iff.mp h
      exact .number hx hy hxy
  · intro h
    cases h with
    | none => rfl
    | str s => simp [eq]
    | list h => exact eqAll_iff.mpr h
    | tuple h => exact eqAll_iff.mpr h
    | set hlength h => simp [eq, hlength, allIn_iff.mpr h]
    | dict hlength h => simp [eq, hlength, allEntriesIn_iff.mpr h]
    | number ha hb h =>
      have hnumber := eqNumber_iff.mpr ⟨_, _, ha, hb, h⟩
      cases a with
      | bool | int | float => cases b <;> exact hnumber
      | _ => cases ha

/-! ### The numbers of a value -/

mutual

/-- All numbers in a value, at every depth. -/
def numbers : Value → List Number
  | none | str _ => []
  | bool b => [.int (if b then 1 else 0)]
  | int n => [.int n]
  | float x => [.float x]
  | list items | tuple items | set items => numbersAll items
  | dict entries => numbersEntries entries

def numbersAll : List Value → List Number
  | [] => []
  | v :: rest => v.numbers ++ numbersAll rest

def numbersEntries : List (Value × Value) → List Number
  | [] => []
  | (k, v) :: rest => k.numbers ++ (v.numbers ++ numbersEntries rest)

end

/-- No NaN in a value, at any depth. -/
def NaNFree (v : Value) : Prop := ∀ x ∈ v.numbers, x.isNaN = false

theorem mem_numbers_of_asNumber {v : Value} {x : Number} (h : v.asNumber = some x) :
    x ∈ v.numbers := by
  cases v <;> cases h <;> exact List.mem_singleton_self _

/-- The values directly in a value. -/
def parts : Value → List Value
  | list items | tuple items | set items => items
  | dict entries => entries.flatMap fun e => [e.1, e.2]
  | _ => []

theorem numbers_subset_of_mem {v : Value} {vs : List Value} (h : v ∈ vs) :
    v.numbers ⊆ numbersAll vs := by
  induction vs with
  | nil => cases h
  | cons w vs ih =>
    rw [numbersAll]
    rcases List.mem_cons.mp h with rfl | h
    · exact List.subset_append_left _ _
    · exact List.subset_append_of_subset_right _ (ih h)

theorem numbersEntries_eq (es : List (Value × Value)) :
    numbersEntries es = numbersAll (es.flatMap fun e => [e.1, e.2]) := by
  induction es with
  | nil => rfl
  | cons e es ih =>
    rw [numbersEntries, ih, List.flatMap_cons, List.cons_append, List.cons_append,
      List.nil_append, numbersAll, numbersAll]

theorem numbers_subset_of_part {p v : Value} (h : p ∈ v.parts) : p.numbers ⊆ v.numbers := by
  cases v with
  | list items | tuple items | set items => exact numbers_subset_of_mem h
  | dict es =>
    rw [numbers, numbersEntries_eq]
    exact numbers_subset_of_mem h
  | _ => cases h

theorem size_part_lt {p v : Value} (h : p ∈ v.parts) : sizeOf p < sizeOf v := by
  cases v with
  | list items | tuple items | set items =>
    have hitem : p ∈ items := h
    have := List.sizeOf_lt_of_mem hitem
    simp
    omega
  | dict es =>
    obtain ⟨⟨k, w⟩, he, hp⟩ := List.mem_flatMap.mp h
    have := List.sizeOf_lt_of_mem he
    simp only [List.mem_cons, List.not_mem_nil, or_false] at hp
    rcases hp with rfl | rfl <;> simp at this ⊢ <;> omega
  | _ => cases h

theorem mem_parts_of_entry {e : Value × Value} {es : List (Value × Value)} (h : e ∈ es) :
    e.1 ∈ (dict es).parts ∧ e.2 ∈ (dict es).parts :=
  ⟨List.mem_flatMap.mpr ⟨e, h, by simp⟩, List.mem_flatMap.mpr ⟨e, h, by simp⟩⟩

theorem WellFormed.part {p v : Value} (h : v.WellFormed) (hp : p ∈ v.parts) : p.WellFormed := by
  cases h with
  | list h | tuple h => exact h p hp
  | set h => exact .of_hashable p (h.hashable p hp)
  | dict hkeys hvalues =>
    obtain ⟨e, he, hp⟩ := List.mem_flatMap.mp hp
    simp only [List.mem_cons, List.not_mem_nil, or_false] at hp
    rcases hp with rfl | rfl
    · exact .of_hashable e.1 (hkeys.hashable e.1 (List.mem_map_of_mem he))
    · exact hvalues e he
  | _ => cases hp

/-! ### From the parts to the whole -/

section Lists

variable {α : Type} {R : α → α → Prop} {xs ys zs : List α}

theorem forall₂_symm_of_mem (h : List.Forall₂ R xs ys)
    (hR : ∀ x ∈ xs, ∀ y ∈ ys, R x y → R y x) : List.Forall₂ R ys xs := by
  induction h with
  | nil => exact .nil
  | cons hxy _ ih =>
    refine .cons (hR _ List.mem_cons_self _ List.mem_cons_self hxy) (ih ?_)
    intro x hx y hy
    exact hR x (List.mem_cons_of_mem _ hx) y (List.mem_cons_of_mem _ hy)

theorem forall₂_trans_of_mem (h : List.Forall₂ R xs ys) (h' : List.Forall₂ R ys zs)
    (hR : ∀ x ∈ xs, ∀ y ∈ ys, ∀ z ∈ zs, R x y → R y z → R x z) : List.Forall₂ R xs zs := by
  induction h generalizing zs with
  | nil =>
    cases h'
    exact .nil
  | cons hxy _ ih =>
    cases h' with
    | cons hyz hrest =>
      refine .cons (hR _ List.mem_cons_self _ List.mem_cons_self _ List.mem_cons_self hxy hyz)
        (ih hrest ?_)
      intro x hx y hy z hz
      exact hR x (List.mem_cons_of_mem _ hx) y (List.mem_cons_of_mem _ hy) z
        (List.mem_cons_of_mem _ hz)

end Lists

section Steps

variable {a b c : Value}

theorem Alike.refl (hparts : ∀ p ∈ a.parts, p.eq p = true) (hnan : a.NaNFree) : Alike a a := by
  cases a with
  | none => exact .none
  | bool b => exact .number rfl rfl (Number.eq_int_iff.mpr rfl)
  | int n => exact .number rfl rfl (Number.eq_int_iff.mpr rfl)
  | float x =>
    have hx : x.isNaN = false := hnan (.float x) (List.mem_singleton_self _)
    exact .number rfl rfl (Double.eq_iff.mpr ⟨hx, hx, rfl⟩)
  | str s => exact .str s
  | list xs => exact .list (List.forall₂_same.mpr hparts)
  | tuple xs => exact .tuple (List.forall₂_same.mpr hparts)
  | set xs => exact .set rfl fun x hx => ⟨x, hx, hparts x hx⟩
  | dict es =>
    refine .dict rfl fun e he => ⟨e, he, ?_⟩
    obtain ⟨hkey, hvalue⟩ := mem_parts_of_entry he
    exact ⟨hparts _ hkey, hparts _ hvalue⟩

variable {ns : List Number} (hns : Unambiguous ns)
include hns

theorem Alike.trans (hab : Alike a b) (hbc : Alike b c) (ha : a.numbers ⊆ ns)
    (hb : b.numbers ⊆ ns) (hc : c.numbers ⊆ ns)
    (hparts : ∀ x ∈ a.parts, ∀ y ∈ b.parts, ∀ z ∈ c.parts,
      x.eq y = true → y.eq z = true → x.eq z = true) : Alike a c := by
  cases hab with
  | none => exact hbc
  | str s => exact hbc
  | list hxs =>
    cases hbc with
    | list hys => exact .list (forall₂_trans_of_mem hxs hys hparts)
    | number hy => cases hy
  | tuple hxs =>
    cases hbc with
    | tuple hys => exact .tuple (forall₂_trans_of_mem hxs hys hparts)
    | number hy => cases hy
  | set hlength hxs =>
    cases hbc with
    | set hlength' hys =>
      refine .set (hlength.trans hlength') fun x hx => ?_
      obtain ⟨y, hy, hxy⟩ := hxs x hx
      obtain ⟨z, hz, hyz⟩ := hys y hy
      exact ⟨z, hz, hparts x hx y hy z hz hxy hyz⟩
    | number hy => cases hy
  | dict hlength hes =>
    cases hbc with
    | dict hlength' hfs =>
      refine .dict (hlength.trans hlength') fun e he => ?_
      obtain ⟨f, hf, hkey, hvalue⟩ := hes e he
      obtain ⟨g, hg, hkey', hvalue'⟩ := hfs f hf
      obtain ⟨he, he'⟩ := mem_parts_of_entry he
      obtain ⟨hf, hf'⟩ := mem_parts_of_entry hf
      obtain ⟨hk, hv⟩ := mem_parts_of_entry hg
      exact ⟨g, hg, hparts _ he _ hf _ hk hkey hkey', hparts _ he' _ hf' _ hv hvalue hvalue'⟩
    | number hy => cases hy
  | number hx hy hxy =>
    cases hbc with
    | number hy' hz hyz =>
      cases hy.symm.trans hy'
      exact .number hx hz (hns.eq_trans (ha (mem_numbers_of_asNumber hx))
        (hb (mem_numbers_of_asNumber hy)) (hc (mem_numbers_of_asNumber hz)) hxy hyz)
    | _ => cases hy

/-- **Equality is transitive where it is unambiguous.** -/
theorem eq_trans_of_unambiguous (a b c : Value) (ha : a.numbers ⊆ ns) (hb : b.numbers ⊆ ns)
    (hc : c.numbers ⊆ ns) (hab : a.eq b = true) (hbc : b.eq c = true) : a.eq c = true := by
  rw [eq_iff_alike] at hab hbc ⊢
  refine hab.trans hns hbc ha hb hc fun x hx y hy z hz => ?_
  have := size_part_lt hx
  exact eq_trans_of_unambiguous x y z (List.Subset.trans (numbers_subset_of_part hx) ha)
    (List.Subset.trans (numbers_subset_of_part hy) hb) (List.Subset.trans (numbers_subset_of_part hz) hc)
termination_by sizeOf a

/-- Two of several distinct values are not equal to the same hashable value. -/
theorem Distinct.differ_from {vs : List Value} (h : Distinct vs)
    (hvs : ∀ v ∈ vs, v.numbers ⊆ ns) :
    vs.Pairwise fun v v' => ∀ w : Value, w.isHashable = true → w.numbers ⊆ ns →
      v.eq w = true → ¬ v'.eq w = true := by
  refine h.differ.imp_of_mem ?_
  intro v v' hv hv' hdiffer w hw hwns hvw hv'w
  rw [eq_comm_of_hashable v' w (h.hashable v' hv') hw] at hv'w
  have := eq_trans_of_unambiguous hns v w v' (hvs v hv) hwns (hvs v' hv') hvw hv'w
  rw [hdiffer.1] at this
  cases this

theorem Alike.symm (hab : Alike a b) (ha : a.WellFormed) (hb : b.WellFormed)
    (hans : a.numbers ⊆ ns) (hbns : b.numbers ⊆ ns)
    (hparts : ∀ x ∈ a.parts, ∀ y ∈ b.parts, x.eq y = true → y.eq x = true) : Alike b a := by
  cases hab with
  | none => exact .none
  | str s => exact .str s
  | list h => exact .list (forall₂_symm_of_mem h hparts)
  | tuple h => exact .tuple (forall₂_symm_of_mem h hparts)
  | number hx hy hxy =>
    rw [number_eq_comm] at hxy
    exact .number hy hx hxy
  | @set xs ys hlength h =>
    cases ha with | set hxs =>
    cases hb with | set hys =>
    have hdiffer := hxs.differ_from hns fun x hx =>
      List.Subset.trans (numbers_subset_of_mem hx) hans
    refine .set hlength.symm fun y hy => ?_
    obtain ⟨x, hx, hxy⟩ := found_of_length xs ys hlength h (hdiffer.imp fun hne y hy =>
      hne y (hys.hashable y hy) (List.Subset.trans (numbers_subset_of_mem hy) hbns)) y hy
    exact ⟨x, hx, hparts x hx y hy hxy⟩
  | @dict es fs hlength h =>
    cases ha with | dict hes _ =>
    cases hb with | dict hfs _ =>
    have hkeys : ∀ {gs : List (Value × Value)} {k : Value}, (Value.dict gs).numbers ⊆ ns →
        k ∈ gs.map Prod.fst → k.numbers ⊆ ns := by
      intro gs k hgs hk
      obtain ⟨g, hg, rfl⟩ := List.mem_map.mp hk
      exact List.Subset.trans (numbers_subset_of_part (mem_parts_of_entry hg).1) hgs
    have hdiffer := List.pairwise_map.mp (hes.differ_from hns fun k hk => hkeys hans hk)
    refine .dict hlength.symm fun f hf => ?_
    obtain ⟨e, he, hkey, hvalue⟩ := found_of_length es fs hlength h (hdiffer.imp
      fun hne f hf hef hef' =>
        have hmem := List.mem_map_of_mem hf
        hne f.1 (hfs.hashable _ hmem) (hkeys hbns hmem) hef.1 hef'.1) f hf
    obtain ⟨he₁, he₂⟩ := mem_parts_of_entry he
    obtain ⟨hf₁, hf₂⟩ := mem_parts_of_entry hf
    exact ⟨e, he, hparts _ he₁ _ hf₁ hkey, hparts _ he₂ _ hf₂ hvalue⟩

end Steps

/-- **A value without a NaN equals itself.** -/
theorem eq_refl_of_nanFree (a : Value) (h : a.NaNFree) : a.eq a = true := by
  rw [eq_iff_alike]
  refine .refl (fun p hp => ?_) h
  have := size_part_lt hp
  exact eq_refl_of_nanFree p fun x hx => h x (numbers_subset_of_part hp hx)
termination_by sizeOf a

/-- **Equality is symmetric where it is unambiguous.** -/
theorem eq_symm_of_unambiguous {ns : List Number} (hns : Unambiguous ns) (a b : Value)
    (ha : a.WellFormed) (hb : b.WellFormed) (hans : a.numbers ⊆ ns) (hbns : b.numbers ⊆ ns)
    (hab : a.eq b = true) : b.eq a = true := by
  rw [eq_iff_alike] at hab ⊢
  refine hab.symm hns ha hb hans hbns fun x hx y hy => ?_
  have := size_part_lt hx
  exact eq_symm_of_unambiguous hns x y (ha.part hx) (hb.part hy)
    (List.Subset.trans (numbers_subset_of_part hx) hans) (List.Subset.trans (numbers_subset_of_part hy) hbns)
termination_by sizeOf a

/-- **Equality is an equivalence** between well-formed values without a NaN, as long as no
    float in them is equal to two different integers in them. -/
theorem eq_equivalence :
    (∀ a : Value, a.NaNFree → a.eq a = true) ∧
    (∀ a b : Value, a.WellFormed → b.WellFormed → Unambiguous (a.numbers ++ b.numbers) →
      a.eq b = true → b.eq a = true) ∧
    ∀ a b c : Value, Unambiguous (a.numbers ++ (b.numbers ++ c.numbers)) →
      a.eq b = true → b.eq c = true → a.eq c = true := by
  refine ⟨eq_refl_of_nanFree, ?_, ?_⟩
  · intro a b ha hb hns hab
    exact eq_symm_of_unambiguous hns a b ha hb (List.subset_append_left _ _)
      (List.subset_append_right _ _) hab
  · intro a b c hns hab hbc
    refine eq_trans_of_unambiguous hns a b c (List.subset_append_left _ _) ?_ ?_ hab hbc
    · exact List.subset_append_of_subset_right _ (List.subset_append_left _ _)
    · exact List.subset_append_of_subset_right _ (List.subset_append_right _ _)

/-- Sets with an integer for a float and in another order. -/
theorem eq_equivalence_sets :
    let a : Value := .set [.int 2, .float (.ofInt 3)]
    let b : Value := .set [.int 3, .float (.ofInt 2)]
    let c : Value := .set [.float (.ofInt 2), .float (.ofInt 3)]
    a.eq a = true ∧ b.eq a = true ∧ a.eq c = true := by
  intro a b c
  have hsmall : ∀ n : Int64, Number.int n ∈ a.numbers ++ (b.numbers ++ c.numbers) →
      n.toInt.natAbs ≤ 2 ^ 53 := by
    intro n hn
    have hn : n = 2 ∨ n = 3 := by simpa [a, b, c, numbers, numbersAll] using hn
    rcases hn with rfl | rfl
    · decide
    · decide
  have hfree : a.NaNFree := by
    unfold NaNFree
    decide +kernel
  have ha : a.WellFormed := .set ⟨by simp [isHashable], by decide +kernel⟩
  have hb : b.WellFormed := .set ⟨by simp [isHashable], by decide +kernel⟩
  obtain ⟨hrefl, hsymm, htrans⟩ := eq_equivalence
  refine ⟨hrefl a hfree, hsymm a b ha hb ?_ (by decide +kernel), ?_⟩
  · refine Number.unambiguous_of_small fun n hn => hsmall n ?_
    rw [← List.append_assoc]
    exact List.mem_append_left _ hn
  · exact htrans a b c (Number.unambiguous_of_small hsmall) (by decide +kernel) (by decide +kernel)

/-- `2^53` and `2^53 + 1` have the same double, which is equal to both of them; a set of the
    two equals a set that holds this double and something else. -/
theorem eq_not_equivalence :
    let a : Value := .int 9007199254740993
    let b : Value := .float (.ofInt 9007199254740992)
    let c : Value := .int 9007199254740992
    let s : Value := .set [a, c]
    let t : Value := .set [b, .int 5]
    (∀ v ∈ [a, b, c, s, t], v.WellFormed ∧ v.NaNFree) ∧
      (a.eq b = true ∧ b.eq c = true ∧ a.eq c = false) ∧
      s.eq t = true ∧ t.eq s = false := by
  intro a b c s t
  have hfree : ∀ v ∈ [a, b, c, s, t], v.NaNFree := by
    unfold NaNFree
    decide +kernel
  have hwellFormed : ∀ v ∈ [a, b, c, s, t], v.WellFormed := by
    simp only [List.forall_mem_cons]
    refine ⟨.int _, .float _, .int _, .set ⟨?_, ?_⟩, .set ⟨?_, ?_⟩, List.forall_mem_nil _⟩
    · simp [a, c, isHashable]
    · decide +kernel
    · simp [b, isHashable]
    · decide +kernel
  refine ⟨fun v hv => ⟨hwellFormed v hv, hfree v hv⟩, ⟨?_, ?_, ?_⟩, ?_, ?_⟩
  all_goals decide +kernel

end Value

end SafeExpr
