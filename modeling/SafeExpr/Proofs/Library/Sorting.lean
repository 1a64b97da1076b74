/-
  SafeExpr/Proofs/Library/Sorting.lean
  ====================================
  **`sorted`, `min` and `max` agree.**

  The comparison that `sorted` uses is that of a preorder on well-formed items, as long as
  there is no NaN and no float equal to two different integers among them.  So sorting fails
  just if two of the items cannot be compared; if it does not, its result is in order, and
  items that are equal stand as they stood.  The least of the items, and among its equals the
  first, is what comes out in front; it is also what remains when the items are gone through
  once and replaced by those strictly before, as `min` and `max` do.

  With floats the comparison need not be one of an order: `sortOrder_preorder` says when it
  is, and the example behind it how it fails otherwise.
-/
import SafeExpr.Library.Builtins
import SafeExpr.Proofs.Value.Order
import SafeExpr.Proofs.Value.Sorted

namespace SafeExpr

open Number (Ordered)
open Value (Orderable Le)

namespace Builtins

/-! ### The order of sorting -/

/-- The first item may stand in front of the second. -/
def InOrder (reverse : Bool) (x y : Value) : Prop := if reverse then Le y x else Le x y

/-- How an item compares with one that it is strictly before. -/
def direction (reverse : Bool) : Ordering := if reverse then .gt else .lt

theorem sortsBefore_eq_ok_iff {reverse : Bool} {x y : Value} {b : Bool} :
    sortsBefore reverse x y = .ok b ↔
      ∃ o, x.compare y = .ok o ∧ b = decide (o = some (direction reverse)) := by
  unfold sortsBefore direction
  cases x.compare y with
  | error e => simp [Except.map]
  | ok o =>
    simp only [Except.map, Except.ok.injEq, exists_eq_left']
    exact eq_comm

theorem comparable_iff {reverse : Bool} {x y : Value} :
    Sort.Comparable (sortsBefore reverse) x y ↔ Orderable x y ∧ Orderable y x := by
  have hone : ∀ u v : Value, (∃ b, sortsBefore reverse u v = .ok b) ↔ Orderable u v := by
    intro u v
    constructor
    · rintro ⟨b, hb⟩
      obtain ⟨o, ho, -⟩ := sortsBefore_eq_ok_iff.mp hb
      exact ⟨o, ho⟩
    · rintro ⟨o, ho⟩
      exact ⟨_, sortsBefore_eq_ok_iff.mpr ⟨o, ho, rfl⟩⟩
  rw [Sort.Comparable, hone, hone]

section Laws

variable {ns : List Number} (hns : Ordered ns) {reverse : Bool} {x y z : Value}
include hns

theorem inOrder_iff (hx : x.Within ns) (hy : y.Within ns) :
    InOrder reverse x y ↔ ∃ c, y.compare x = .ok (some c) ∧ c ≠ direction reverse := by
  cases reverse with
  | true =>
    constructor
    · rintro ⟨c, hc, hle⟩
      exact ⟨c, hc, Ordering.isLE_iff_ne_gt.mp hle⟩
    · rintro ⟨c, hc, hne⟩
      exact ⟨c, hc, Ordering.isLE_iff_ne_gt.mpr hne⟩
  | false =>
    constructor
    · rintro ⟨c, hc, hle⟩
      refine ⟨c.swap, Value.compare_swap hns x y hx hy _ hc, ?_⟩
      cases c <;> simp [direction] at hle ⊢
    · rintro ⟨c, hc, hne⟩
      refine ⟨c.swap, Value.compare_swap hns y x hy hx _ hc, ?_⟩
      cases c <;> simp [direction] at hne ⊢

theorem precedes_iff (hx : x.Within ns) (hy : y.Within ns) :
    Sort.Precedes (sortsBefore reverse) x y ↔ InOrder reverse x y := by
  rw [Sort.Precedes, sortsBefore_eq_ok_iff, inOrder_iff hns hx hy]
  constructor
  · rintro ⟨o, ho, hb⟩
    obtain ⟨c, rfl⟩ := Value.exists_compare hns y x hy hx o ho
    exact ⟨c, ho, fun h => by simp [h] at hb⟩
  · rintro ⟨c, hc, hne⟩
    exact ⟨some c, hc, by simp [hne]⟩

theorem orderable_of_inOrder (hx : x.Within ns) (hy : y.Within ns)
    (h : InOrder reverse x y) : Orderable x y ∧ Orderable y x := by
  obtain ⟨c, hc, -⟩ := (inOrder_iff hns hx hy).mp h
  exact ⟨Value.Orderable.symm hns hy hx ⟨_, hc⟩, ⟨_, hc⟩⟩

theorem inOrder_trans (hx : x.Within ns) (hy : y.Within ns) (hz : z.Within ns)
    (hxy : InOrder reverse x y) (hyz : InOrder reverse y z) : InOrder reverse x z := by
  cases reverse with
  | true => exact Value.le_trans hns hz hy hx hyz hxy
  | false => exact Value.le_trans hns hx hy hz hxy hyz

/-- Items that may both stand in front of the other are equal. -/
theorem eq_of_inOrder (hx : x.Within ns) (hy : y.Within ns)
    (hxy : InOrder reverse x y) (hyx : InOrder reverse y x) : x.eq y = true := by
  obtain ⟨hle, hle'⟩ : Le x y ∧ Le y x := by
    cases reverse with
    | true => exact ⟨hyx, hxy⟩
    | false => exact ⟨hxy, hyx⟩
  by_contra hne
  exact Value.not_le_of_less hns hx hy ⟨hne, hle⟩ hle'

/-- Equal items that can be compared at all may stand either way. -/
theorem inOrder_of_eq (hx : x.Within ns) (hy : y.Within ns) (heq : x.eq y = true)
    (h : Orderable x z) : InOrder reverse x y := by
  have hxy := Value.compare_of_eq heq h
  rw [inOrder_iff hns hx hy]
  refine ⟨.eq, Value.compare_swap hns x y hx hy _ hxy, ?_⟩
  cases reverse <;> decide

/-- Where a comparison is strict, the item comes first. -/
theorem inOrder_of_direction (hx : x.Within ns) (hy : y.Within ns)
    (h : x.compare y = .ok (some (direction reverse))) : InOrder reverse x y := by
  rw [inOrder_iff hns hx hy]
  refine ⟨_, Value.compare_swap hns x y hx hy _ h, ?_⟩
  cases reverse <;> decide

/-- **Sorting compares as a preorder does.** -/
theorem sortsBefore_orders (reverse : Bool) :
    Sort.Orders (sortsBefore reverse) (Value.Within ns) where
  precedes_of_less hx hy h := by
    obtain ⟨o, ho, hb⟩ := sortsBefore_eq_ok_iff.mp h
    rw [of_decide_eq_true hb.symm] at ho
    exact (precedes_iff hns hx hy).mpr (inOrder_of_direction hns hx hy ho)
  comparable hx hy h :=
    comparable_iff.mpr (orderable_of_inOrder hns hx hy ((precedes_iff hns hx hy).mp h))
  trans hx hy hz hxy hyz :=
    (precedes_iff hns hx hz).mpr (inOrder_trans hns hx hy hz
      ((precedes_iff hns hx hy).mp hxy) ((precedes_iff hns hy hz).mp hyz))

/-- The items equal to one of them are on one level. -/
theorem level_eq (reverse : Bool) {c : Value} (hc : c.Within ns) :
    Sort.Level (sortsBefore reverse) (Value.Within ns) (fun v => v.eq c) := by
  intro x y hx hy hxc hyc hxy
  have hxy' := (precedes_iff hns hx hy).mp hxy
  have hyx := Value.eq_trans_within hns hy hc hx hyc (Value.eq_symm_within hns hx hc hxc)
  exact (precedes_iff hns hy hx).mpr
    (inOrder_of_eq hns hy hx hyx (orderable_of_inOrder hns hx hy hxy').2)

end Laws

/-! ### Sorted items -/

/-- A list of items put in order, with equal items as they stood. -/
structure SortedFrom (reverse : Bool) (xs ys : List Value) : Prop where
  perm : ys.Perm xs
  ordered : ys.Pairwise (InOrder reverse)
  stable : ∀ v ∈ xs, ys.filter (fun x => x.eq v) = xs.filter fun x => x.eq v

section Items

variable {v : Value} {xs : List Value}

theorem sorted_eq (hitems : v.items = .ok xs) (reverse : Value) :
    sorted v reverse =
      match Sort.sort (sortsBefore reverse.truthy) xs with
      | .ok ys => .ok (.list ys)
      | .error e => .error (.value e) := by
  rw [sorted, Library.itemsArg, hitems]
  rfl

variable (hns : Ordered (Value.numbersAll xs)) (hxs : ∀ x ∈ xs, x.WellFormed)
include hns hxs

/-- Sorting succeeds just if any two of the items can be compared. -/
theorem sort_ok_iff_orderable (reverse : Bool) :
    (∃ ys, Sort.sort (sortsBefore reverse) xs = .ok ys) ↔ xs.Pairwise Orderable := by
  have hwithin := Value.within_numbersAll hxs
  rw [Sort.sort_ok_iff (sortsBefore_orders hns reverse) hwithin]
  constructor
  · exact fun h => h.imp fun hxy => (comparable_iff.mp hxy).1
  · refine fun h => h.imp_of_mem fun hx hy hxy => comparable_iff.mpr ⟨hxy, ?_⟩
    exact Value.Orderable.symm hns (hwithin _ hx) (hwithin _ hy) hxy

theorem sort_sortedFrom {reverse : Bool} {ys : List Value}
    (h : Sort.sort (sortsBefore reverse) xs = .ok ys) : SortedFrom reverse xs ys := by
  have hwithin := Value.within_numbersAll hxs
  have hperm := (Sort.sort_perm _ xs).of_ok h
  obtain ⟨hascending, hstable⟩ :=
    (Sort.sort_arranged (sortsBefore_orders hns reverse) hwithin).of_ok h
  refine ⟨hperm, hascending.imp_of_mem fun hx hy hxy => ?_, fun v hv => ?_⟩
  · exact (precedes_iff hns (hwithin _ (hperm.mem_iff.mp hx))
      (hwithin _ (hperm.mem_iff.mp hy))).mp hxy
  · exact hstable _ (level_eq hns reverse (hwithin v hv))

end Items

/-! ### The first item -/

/-- The item that may stand in front of all others, and among its equals the first. -/
inductive Foremost (reverse : Bool) (m : Value) : List Value → Prop
  | here {xs : List Value} (h : ∀ x ∈ xs, InOrder reverse m x) : Foremost reverse m (m :: xs)
  | there {x : Value} {xs : List Value} (hx : InOrder reverse m x) (hstrict : ¬ InOrder reverse x m)
    (h : Foremost reverse m xs) : Foremost reverse m (x :: xs)

theorem Foremost.mem {reverse : Bool} {m : Value} {xs : List Value} (h : Foremost reverse m xs) :
    m ∈ xs := by
  induction h with
  | here => exact List.mem_cons_self
  | there _ _ _ ih => exact List.mem_cons_of_mem _ ih

/-- An item is the only one of its kind. -/
theorem Foremost.unique {reverse : Bool} {m n : Value} {xs : List Value}
    (hm : Foremost reverse m xs) (hn : Foremost reverse n xs) : m = n := by
  induction hm with
  | here hfirst =>
    cases hn with
    | here => rfl
    | there _ hstrict hn => exact absurd (hfirst n hn.mem) hstrict
  | there _ hstrict hm ih =>
    cases hn with
    | here hfirst => exact absurd (hfirst m hm.mem) hstrict
    | there _ _ hn => exact ih hn

theorem Foremost.of_split {reverse : Bool} {m : Value} {before after : List Value}
    (hbefore : ∀ x ∈ before, InOrder reverse m x ∧ ¬ InOrder reverse x m)
    (hafter : ∀ x ∈ after, InOrder reverse m x) : Foremost reverse m (before ++ m :: after) := by
  induction before with
  | nil => exact .here hafter
  | cons x before ih =>
    obtain ⟨hx, hbefore⟩ := List.forall_mem_cons.mp hbefore
    exact .there hx.1 hx.2 (ih hbefore)

section First

variable {ns : List Number} (hns : Ordered ns) {reverse : Bool}
include hns

/-- What comes out in front is the foremost item. -/
theorem SortedFrom.foremost {xs ys : List Value} {m : Value} (hxs : ∀ x ∈ xs, x.Within ns)
    (h : SortedFrom reverse xs (m :: ys)) : Foremost reverse m xs := by
  have hmem : m ∈ xs := h.perm.mem_iff.mp List.mem_cons_self
  have hm := hxs m hmem
  have hself : m.eq m = true :=
    Value.eq_refl_of_nanFree m fun x hx => hns.nanFree x (hm.numbers hx)
  have hstable := h.stable m hmem
  rw [List.filter_cons_of_pos (by simpa using hself)] at hstable
  obtain ⟨before, after, rfl, hbefore, -⟩ := List.filter_eq_cons_iff.mp hstable.symm
  have hrest : ys.Perm (before ++ after) := (h.perm.trans List.perm_middle).cons_inv
  have hfirst : ∀ x ∈ before ++ after, InOrder reverse m x := fun x hx =>
    (List.pairwise_cons.mp h.ordered).1 x (hrest.mem_iff.mpr hx)
  refine .of_split (fun x hx => ?_) fun x hx => hfirst x (List.mem_append_right _ hx)
  have hmx := hfirst x (List.mem_append_left _ hx)
  exact ⟨hmx, fun hxm =>
    hbefore x hx (eq_of_inOrder hns (hxs x (List.mem_append_left _ hx)) hm hxm hmx)⟩

/-- **What is left when each item gives way to one strictly before it is the foremost.** -/
theorem best_foremost {champion : Value} {rest : List Value}
    (hitems : ∀ x ∈ champion :: rest, x.Within ns)
    (h : (champion :: rest).Pairwise Orderable) :
    ∃ m, best (direction reverse) champion rest = .ok m ∧
      Foremost reverse m (champion :: rest) := by
  induction rest generalizing champion with
  | nil => exact ⟨champion, rfl, .here (List.forall_mem_nil _)⟩
  | cons v rest ih =>
    obtain ⟨hchampion, hv, hrest⟩ := by simpa only [List.forall_mem_cons] using hitems
    obtain ⟨hfirst, hpair⟩ := List.pairwise_cons.mp h
    obtain ⟨o, ho⟩ := Value.Orderable.symm hns hchampion hv (hfirst v List.mem_cons_self)
    unfold best
    rw [ho]
    dsimp only
    split
    · next hbetter =>
      subst hbetter
      obtain ⟨m, hbest, hm⟩ := ih (List.forall_mem_cons.mpr ⟨hv, hrest⟩) hpair
      have hmv : m = v ∨ InOrder reverse m v := by
        cases hm with
        | here => exact .inl rfl
        | there hx => exact .inr hx
      have hmw : m.Within ns := (List.forall_mem_cons.mpr ⟨hv, hrest⟩) m hm.mem
      have hstrict : ¬ InOrder reverse champion v := by
        rw [inOrder_iff hns hchampion hv, ho]
        simp
      have hvc := inOrder_of_direction hns hv hchampion ho
      refine ⟨m, hbest, .there ?_ (fun hcm => hstrict ?_) hm⟩
      · rcases hmv with rfl | hmv
        · exact hvc
        · exact inOrder_trans hns hmw hv hchampion hmv hvc
      · rcases hmv with rfl | hmv
        · exact hcm
        · exact inOrder_trans hns hchampion hmw hv hcm hmv
    · next hkept =>
      have hothers : ∀ x ∈ champion :: rest, x.Within ns :=
        List.forall_mem_cons.mpr ⟨hchampion, hrest⟩
      obtain ⟨m, hbest, hm⟩ := ih hothers (h.sublist ((List.sublist_cons_self v rest).cons_cons _))
      have hmw : m.Within ns := hothers m hm.mem
      have hcv : InOrder reverse champion v := by
        obtain ⟨c, rfl⟩ := Value.exists_compare hns v champion hv hchampion o ho
        exact (inOrder_iff hns hchampion hv).mpr ⟨c, ho, fun hc => hkept (congrArg some hc)⟩
      refine ⟨m, hbest, ?_⟩
      cases hm with
      | here hm => exact .here (List.forall_mem_cons.mpr ⟨hcv, hm⟩)
      | there hmc hstrict hm =>
        refine .there hmc hstrict (.there (inOrder_trans hns hmw hchampion hv hmc hcv) ?_ hm)
        exact fun hvm => hstrict (inOrder_trans hns hchampion hv hmw hcv hvm)

end First

/-! ### `sorted`, `min` and `max` -/

section Agreement

variable {v : Value} {xs : List Value} (hitems : v.items = .ok xs)
include hitems

theorem sorted_sortedFrom (hns : Ordered (Value.numbersAll xs)) (hxs : ∀ x ∈ xs, x.WellFormed)
    {reverse r : Value} (h : sorted v reverse = .ok r) :
    ∃ ys, r = .list ys ∧ SortedFrom reverse.truthy xs ys := by
  rw [sorted_eq hitems] at h
  split at h
  · next ys hys =>
    cases h
    exact ⟨ys, rfl, sort_sortedFrom hns hxs hys⟩
  · cases h

theorem sorted_ok_iff (hns : Ordered (Value.numbersAll xs)) (hxs : ∀ x ∈ xs, x.WellFormed)
    (reverse : Value) : (∃ r, sorted v reverse = .ok r) ↔ xs.Pairwise Orderable := by
  rw [sorted_eq hitems, ← sort_ok_iff_orderable hns hxs reverse.truthy]
  cases Sort.sort (sortsBefore reverse.truthy) xs <;> simp

omit hitems in
theorem extremum_eq {x : Value} {rest : List Value} (hitems : v.items = .ok (x :: rest))
    (function : String) (wanted : Ordering) :
    extremum function wanted [v] =
      match best wanted x rest with
      | .ok m => .ok m
      | .error e => .error (.value e) := by
  simp only [extremum, Library.itemsArg, hitems]
  rfl

/-- **`min` and `max` give what comes out in front of the sorted items.** -/
theorem extremum_eq_head (hns : Ordered (Value.numbersAll xs)) (hxs : ∀ x ∈ xs, x.WellFormed)
    (hne : xs ≠ []) {reverse r : Value} (h : sorted v reverse = .ok r) (function : String) :
    ∃ first rest, r = .list (first :: rest) ∧
      extremum function (direction reverse.truthy) [v] = .ok first := by
  have hwithin := Value.within_numbersAll hxs
  have hpair := (sorted_ok_iff hitems hns hxs reverse).mp ⟨r, h⟩
  obtain ⟨ys, rfl, hys⟩ := sorted_sortedFrom hitems hns hxs h
  cases ys with
  | nil => exact absurd hys.perm.nil_eq.symm hne
  | cons first ys =>
    cases xs with
    | nil => exact absurd rfl hne
    | cons x rest =>
      obtain ⟨m, hbest, hm⟩ : ∃ m, best (direction reverse.truthy) x rest = .ok m ∧
          Foremost reverse.truthy m (x :: rest) := best_foremost hns hwithin hpair
      cases hm.unique (hys.foremost hns hwithin)
      refine ⟨first, ys, rfl, ?_⟩
      rw [extremum_eq hitems, hbest]

end Agreement

/-- Whichever of two items comes first, they can be compared. -/
theorem pairwise_orderable_iff {ns : List Number} {xs : List Value} (hns : Ordered ns)
    (hxs : ∀ x ∈ xs, x.Within ns) :
    xs.Pairwise Orderable ↔
      ∀ (i j : Nat) (hi : i < xs.length) (hj : j < xs.length), i ≠ j → Orderable xs[i] xs[j] := by
  rw [List.pairwise_iff_getElem]
  constructor
  · intro h i j hi hj hne
    rcases Nat.lt_or_gt_of_ne hne with hij | hji
    · exact h i j hi hj hij
    · exact Value.Orderable.symm hns (hxs _ (List.getElem_mem hj)) (hxs _ (List.getElem_mem hi))
        (h j i hj hi hji)
  · exact fun h i j hi hj hij => h i j hi hj (Nat.ne_of_lt hij)

/-- What sorting makes of a comparison: two items that it cannot tell are equal to it. -/
def sortOrder (reverse : Bool) (x y : Value) : Ordering :=
  match x.compare y with
  | .ok o => if reverse then (o.getD .eq).swap else o.getD .eq
  | .error _ => .eq

/-- An item is moved in front of another one just if `sortOrder` says so. -/
theorem sortsBefore_of_orderable {x y : Value} (h : Orderable x y) (reverse : Bool) :
    sortsBefore reverse x y = .ok (sortOrder reverse x y == .lt) := by
  obtain ⟨o, ho⟩ := h
  rw [sortsBefore_eq_ok_iff]
  refine ⟨o, ho, ?_⟩
  simp only [sortOrder, ho]
  cases reverse <;> cases o with
  | none => rfl
  | some c => cases c <;> rfl

/-- **Between items that can be compared, without a NaN and without a float equal to two
different integers, `sortOrder` is a preorder.** -/
theorem sortOrder_preorder {xs : List Value} (hns : Ordered (Value.numbersAll xs))
    (hxs : ∀ x ∈ xs, x.WellFormed) (h : ∀ x ∈ xs, ∀ y ∈ xs, Orderable x y) (reverse : Bool) :
    (∀ x ∈ xs, ∀ y ∈ xs, sortOrder reverse y x = (sortOrder reverse x y).swap) ∧
    ∀ x ∈ xs, ∀ y ∈ xs, ∀ z ∈ xs, (sortOrder reverse x y).isLE = true →
      (sortOrder reverse y z).isLE = true → (sortOrder reverse x z).isLE = true := by
  have hwithin := Value.within_numbersAll hxs
  have hle : ∀ x ∈ xs, ∀ y ∈ xs, (sortOrder reverse x y).isLE = true ↔ InOrder reverse x y := by
    intro x hx y hy
    obtain ⟨o, ho⟩ := h x hx y hy
    obtain ⟨c, rfl⟩ := Value.exists_compare hns x y (hwithin x hx) (hwithin y hy) o ho
    have hswap := Value.compare_swap hns x y (hwithin x hx) (hwithin y hy) _ ho
    rw [inOrder_iff hns (hwithin x hx) (hwithin y hy), hswap]
    simp only [sortOrder, ho]
    cases reverse <;> cases c <;> simp [direction]
  constructor
  · intro x hx y hy
    obtain ⟨o, ho⟩ := h x hx y hy
    have hswap := Value.compare_swap hns x y (hwithin x hx) (hwithin y hy) o ho
    simp only [sortOrder, ho, hswap]
    cases reverse <;> cases o <;> simp
  · intro x hx y hy z hz hxy hyz
    exact (hle x hx z hz).mpr (inOrder_trans hns (hwithin x hx) (hwithin y hy) (hwithin z hz)
      ((hle x hx y hy).mp hxy) ((hle y hy z hz).mp hyz))

/-- A NaN is equal to everything, and a large float to integers that are not equal. -/
example :
    let large : Value := .float (.ofInt 9007199254740992)
    (sortOrder false (.int 2) (.float .nan) = .eq ∧ sortOrder false (.float .nan) (.int 1) = .eq ∧
      sortOrder false (.int 2) (.int 1) = .gt) ∧
    sortOrder false (.int 9007199254740993) large = .eq ∧
      sortOrder false large (.int 9007199254740992) = .eq ∧
      sortOrder false (.int 9007199254740993) (.int 9007199254740992) = .gt := by
  decide +kernel

end Builtins

end SafeExpr
