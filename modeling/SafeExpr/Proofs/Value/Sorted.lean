/-
  SafeExpr/Proofs/Value/Sorted.lean
  =================================
  **Sorting sorts, and keeps equal items as they stand.**

  The comparison may fail.  `Orders` says that it is the comparison of a preorder wherever
  it does not; that `x` may stand in front of `y`, and `y` in front of `z`, then makes `x`
  and `z` comparable too.  So a sort succeeds if no two items are incomparable, and only
  then: in a sorted list each item has been compared with its neighbour, and by transitivity
  with all others.

  Stability is said of the items that belong to one level of the order, which are those
  equal to a given one: sorting leaves them as they were, all of them and in their order.
-/
import SafeExpr.Proofs.Value.Sort

namespace SafeExpr.Sort

open List (Perm)
open Except (Ensures Satisfies)

variable {α ε : Type}

/-! ### Comparisons that are those of an order -/

section Definitions

variable (less : α → α → Except ε Bool)

/-- The first item may stand in front of the second, which is not strictly before it. -/
def Precedes (x y : α) : Prop := less y x = .ok false

/-- Two items can be compared, whichever comes first. -/
def Comparable (x y : α) : Prop := (∃ b, less x y = .ok b) ∧ ∃ b, less y x = .ok b

/-- Between the items of a kind the comparison is that of a preorder, where it does not fail. -/
structure Orders (K : α → Prop) : Prop where
  precedes_of_less : ∀ {x y}, K x → K y → less x y = .ok true → Precedes less x y
  comparable : ∀ {x y}, K x → K y → Precedes less x y → Comparable less x y
  trans : ∀ {x y z}, K x → K y → K z → Precedes less x y → Precedes less y z →
    Precedes less x z

/-- Items none of which has to stand in front of another. -/
def Level (K : α → Prop) (p : α → Bool) : Prop :=
  ∀ x y, K x → K y → p x = true → p y = true → Precedes less x y → Precedes less y x

/-- The first item has to stand in front of the second. -/
def Before (x y : α) : Prop := Precedes less x y ∧ ¬ Precedes less y x

/-- A list in order. -/
abbrev Ascending (xs : List α) : Prop := xs.Pairwise (Precedes less)

/-- A list in order from the last item to the first. -/
abbrev Descending (xs : List α) : Prop := xs.Pairwise fun x y => Precedes less y x

end Definitions

variable {less : α → α → Except ε Bool}

theorem Comparable.symm {x y : α} (h : Comparable less x y) : Comparable less y x := ⟨h.2, h.1⟩

theorem pairwise_comparable_of_perm {xs ys : List α} (h : xs.Perm ys)
    (hxs : xs.Pairwise (Comparable less)) : ys.Pairwise (Comparable less) :=
  (h.pairwise_iff Comparable.symm).mp hxs

/-! ### Comparable items are sorted without a failure -/

section Success

theorem insertDown_ok {x : α} {ys : List α} (h : ∀ y ∈ ys, Comparable less x y) :
    ∃ zs, insertDown less x ys = .ok zs := by
  induction ys with
  | nil => exact ⟨[x], rfl⟩
  | cons y ys ih =>
    obtain ⟨hy, hys⟩ := List.forall_mem_cons.mp h
    obtain ⟨⟨b, hb⟩, -⟩ := hy
    obtain ⟨zs, hzs⟩ := ih hys
    unfold insertDown
    rw [hb, hzs]
    cases b with
    | true => exact ⟨y :: zs, rfl⟩
    | false => exact ⟨x :: y :: ys, rfl⟩

theorem insertAll_ok {sorted xs : List α} (h : (xs ++ sorted).Pairwise (Comparable less)) :
    ∃ zs, insertAll less sorted xs = .ok zs := by
  induction xs generalizing sorted with
  | nil => exact ⟨sorted.reverse, rfl⟩
  | cons x xs ih =>
    rw [List.cons_append, List.pairwise_cons] at h
    obtain ⟨zs, hzs⟩ := insertDown_ok fun y hy => h.1 y (List.mem_append_right xs hy)
    have hperm : zs.Perm (x :: sorted) := (insertDown_perm less x sorted).of_ok hzs
    have hall : (x :: (xs ++ sorted)).Pairwise (Comparable less) := List.pairwise_cons.mpr h
    unfold insertAll
    rw [hzs]
    exact ih (pairwise_comparable_of_perm
      (List.perm_middle.symm.trans (hperm.symm.append_left xs)) hall)

theorem takeRun_ok (falling : Bool) {last : α} {xs : List α} (run : List α)
    (h : (last :: xs).Pairwise (Comparable less)) :
    ∃ r, takeRun less falling last run xs = .ok r := by
  induction xs generalizing last run with
  | nil => exact ⟨(run, []), rfl⟩
  | cons x xs ih =>
    obtain ⟨hlast, hxs⟩ := List.pairwise_cons.mp h
    obtain ⟨-, b, hb⟩ := hlast x List.mem_cons_self
    unfold takeRun
    rw [hb]
    dsimp only
    split
    · exact ih (x :: run) hxs
    · exact ⟨(run, x :: xs), rfl⟩

theorem takeRun_suffix (falling : Bool) (last : α) (run xs : List α) :
    (takeRun less falling last run xs).Ensures fun r =>
      ∃ taken, xs = taken ++ r.2 ∧ r.1 = taken.reverse ++ run := by
  induction xs generalizing last run with
  | nil => exact ⟨[], rfl, rfl⟩
  | cons x xs ih =>
    unfold takeRun
    split
    · split
      · refine (ih x (x :: run)).imp ?_
        rintro r ⟨taken, hxs, hrun⟩
        exact ⟨x :: taken, by rw [hxs, List.cons_append], by rw [hrun]; simp⟩
      · exact ⟨[], rfl, rfl⟩
    · trivial

theorem runs_ok (found : List (List α)) (fuel : Nat) {xs : List α}
    (h : xs.Pairwise (Comparable less)) : ∃ r, runs less found fuel xs = .ok r := by
  induction fuel generalizing found xs with
  | zero => exact ⟨found.reverse, by rw [runs]⟩
  | succ fuel ih =>
    rcases xs with - | ⟨x, - | ⟨y, rest⟩⟩
    · exact ⟨found.reverse, by rw [runs]; simp⟩
    · exact ⟨([x] :: found).reverse, by rw [runs]; simp⟩
    · obtain ⟨hx, hrest⟩ := List.pairwise_cons.mp h
      obtain ⟨-, falling, hfalling⟩ := hx y List.mem_cons_self
      obtain ⟨⟨run, left⟩, hrun⟩ := takeRun_ok falling [y, x] hrest
      obtain ⟨taken, htaken, -⟩ := (takeRun_suffix falling y [y, x] rest).of_ok hrun
      rw [runs, hfalling]
      dsimp only
      rw [hrun]
      refine ih _ ((List.pairwise_cons.mp hrest).2.sublist ?_)
      rw [htaken]
      exact List.sublist_append_right _ _

theorem mergeOnto_ok (merged : List α) (fuel : Nat) {xs ys : List α}
    (h : ∀ x ∈ xs, ∀ y ∈ ys, Comparable less x y) :
    ∃ zs, mergeOnto less merged fuel xs ys = .ok zs := by
  induction fuel generalizing merged xs ys with
  | zero =>
    unfold mergeOnto
    split
    · exact ⟨_, rfl⟩
    · exact ⟨_, rfl⟩
    · exact ⟨_, rfl⟩
    · contradiction
  | succ fuel ih =>
    cases xs with
    | nil => exact ⟨merged.reverse ++ ys, by rw [mergeOnto]⟩
    | cons x xs =>
      cases ys with
      | nil => exact ⟨merged.reverse ++ x :: xs, by simp only [mergeOnto]⟩
      | cons y ys =>
        obtain ⟨-, b, hb⟩ := h x List.mem_cons_self y List.mem_cons_self
        unfold mergeOnto
        rw [hb]
        cases b with
        | true => exact ih _ fun x hx y hy => h x hx y (List.mem_cons_of_mem _ hy)
        | false => exact ih _ fun x hx y hy => h x (List.mem_cons_of_mem _ hx) y hy

theorem mergePairs_ok (merged : List (List α)) {lists : List (List α)}
    (h : lists.flatten.Pairwise (Comparable less)) :
    ∃ r, mergePairs less merged lists = .ok r := by
  fun_induction mergePairs less merged lists with
  | case1 merged xs ys rest zs hzs ih =>
    simp only [List.flatten_cons, List.pairwise_append] at h
    exact ih h.2.1.2.1
  | case2 merged xs ys rest e he =>
    simp only [List.flatten_cons, List.pairwise_append] at h
    obtain ⟨zs, hzs⟩ := mergeOnto_ok [] (xs.length + ys.length) fun x hx y hy =>
      h.2.2 x hx y (List.mem_append_left _ hy)
    rw [merge, hzs] at he
    cases he
  | case3 merged xs => exact ⟨_, rfl⟩
  | case4 merged => exact ⟨_, rfl⟩

theorem mergeAll_ok (fuel : Nat) {lists : List (List α)}
    (h : lists.flatten.Pairwise (Comparable less)) : ∃ zs, mergeAll less fuel lists = .ok zs := by
  fun_induction mergeAll less fuel lists with
  | case1 lists => exact ⟨_, rfl⟩
  | case2 => exact ⟨_, rfl⟩
  | case3 fuel xs => exact ⟨_, rfl⟩
  | case4 fuel lists _ _ next hnext ih =>
    exact ih (pairwise_comparable_of_perm ((mergePairs_perm less [] lists).of_ok hnext).symm h)
  | case5 fuel lists _ _ e he =>
    obtain ⟨r, hr⟩ := mergePairs_ok [] h
    rw [hr] at he
    cases he

/-- **Items that can be compared pairwise are sorted.** -/
theorem sort_ok {items : List α} (h : items.Pairwise (Comparable less)) :
    ∃ zs, sort less items = .ok zs := by
  unfold sort
  split
  · exact insertAll_ok (by rwa [List.append_nil])
  · obtain ⟨found, hfound⟩ := runs_ok [] items.length h
    rw [hfound]
    have hperm := (runs_perm less [] items.length items (Nat.le_refl _)).of_ok hfound
    rw [List.flatten_nil, List.append_nil] at hperm
    exact mergeAll_ok _ (pairwise_comparable_of_perm hperm.symm h)

end Success

/-! ### What is sorted is in order -/

section Order

variable {K : α → Prop} (hless : Orders less K) {p : α → Bool} (hp : Level less K p)

include hless in
theorem Orders.before {x y : α} (hx : K x) (hy : K y) (h : less x y = .ok true) :
    Before less x y := by
  refine ⟨hless.precedes_of_less hx hy h, fun hyx => ?_⟩
  rw [Precedes, h] at hyx
  cases hyx

include hless in
theorem Orders.before_of_before_of_precedes {x y z : α} (hx : K x) (hy : K y) (hz : K z)
    (hxy : Before less x y) (hyz : Precedes less y z) : Before less x z :=
  ⟨hless.trans hx hy hz hxy.1 hyz, fun hzx => hxy.2 (hless.trans hy hz hx hyz hzx)⟩

include hp in
/-- Of two items in one level none has to stand in front. -/
theorem Level.not_before {x y : α} (hx : K x) (hy : K y) (hpx : p x = true) (hpy : p y = true) :
    ¬ Before less x y := fun h => h.2 (hp x y hx hy hpx hpy h.1)

include hp in
/-- Behind an item of a level that has to stand in front of all others there is none of it. -/
theorem Level.filter_eq_nil {x : α} {ys : List α} (hx : K x) (hys : ∀ y ∈ ys, K y)
    (hpx : p x = true) (h : ∀ y ∈ ys, Before less x y) : ys.filter p = [] := by
  rw [List.filter_eq_nil_iff]
  intro y hy hpy
  exact hp.not_before hx (hys y hy) hpx hpy (h y hy)

include hp in
/-- A level has at most one item in a list each of which has to stand in front of the next,
    so the list may be reversed. -/
theorem Level.filter_reverse {xs : List α} (hxs : ∀ x ∈ xs, K x)
    (h : xs.Pairwise (Before less)) : xs.reverse.filter p = xs.filter p := by
  induction xs with
  | nil => rfl
  | cons x xs ih =>
    obtain ⟨hx, hxs⟩ := List.forall_mem_cons.mp hxs
    obtain ⟨hbefore, hrest⟩ := List.pairwise_cons.mp h
    rw [List.reverse_cons, List.filter_append, ih hxs hrest]
    by_cases hpx : p x = true
    · rw [List.filter_cons_of_pos hpx, List.filter_cons_of_pos hpx,
        hp.filter_eq_nil hx hxs hpx hbefore]
      rfl
    · rw [List.filter_cons_of_neg hpx, List.filter_cons_of_neg hpx]
      simp

/-! #### Insertion -/

include hless in
theorem insertDown_descending {x : α} {ys : List α} (hx : K x) (hys : ∀ y ∈ ys, K y)
    (h : Descending less ys) : (insertDown less x ys).Ensures (Descending less) := by
  induction ys with
  | nil => exact List.pairwise_singleton _ _
  | cons y ys ih =>
    obtain ⟨hy, hrest⟩ := List.pairwise_cons.mp h
    obtain ⟨hKy, hKys⟩ := List.forall_mem_cons.mp hys
    unfold insertDown
    split
    · next hxy =>
      cases hzs : insertDown less x ys with
      | error e => trivial
      | ok zs =>
        have hdescending := (ih hKys hrest).of_ok hzs
        have hperm := (insertDown_perm less x ys).of_ok hzs
        refine List.pairwise_cons.mpr ⟨fun z hz => ?_, hdescending⟩
        rcases List.mem_cons.mp (hperm.mem_iff.mp hz) with rfl | hz
        · exact hless.precedes_of_less hx hKy hxy
        · exact hy z hz
    · next hxy =>
      refine List.pairwise_cons.mpr ⟨fun z hz => ?_, h⟩
      rcases List.mem_cons.mp hz with rfl | hz
      · exact hxy
      · exact hless.trans (hKys z hz) hKy hx (hy z hz) hxy
    · trivial

include hless hp in
/-- An item is not moved past one of its level. -/
theorem insertDown_filter {x : α} {ys : List α} (hx : K x) (hys : ∀ y ∈ ys, K y) :
    (insertDown less x ys).Ensures fun zs => zs.filter p = (x :: ys).filter p := by
  induction ys with
  | nil => exact rfl
  | cons y ys ih =>
    obtain ⟨hy, hys⟩ := List.forall_mem_cons.mp hys
    unfold insertDown
    split
    · next hxy =>
      refine (ih hys).map fun zs hzs => ?_
      rw [List.filter_cons, hzs]
      by_cases hpx : p x = true
      · have hpy : ¬ p y = true := fun hpy =>
          hp.not_before hx hy hpx hpy (hless.before hx hy hxy)
        simp [hpx, hpy]
      · simp [hpx, List.filter_cons]
    · rfl
    · trivial

include hless in
theorem insertAll_ascending {sorted xs : List α} (hsorted : ∀ y ∈ sorted, K y)
    (hxs : ∀ x ∈ xs, K x) (h : Descending less sorted) :
    (insertAll less sorted xs).Ensures (Ascending less) := by
  induction xs generalizing sorted with
  | nil => exact List.pairwise_reverse.mpr h
  | cons x xs ih =>
    obtain ⟨hx, hxs⟩ := List.forall_mem_cons.mp hxs
    unfold insertAll
    split
    · next zs hzs =>
      have hperm := (insertDown_perm less x sorted).of_ok hzs
      refine ih (fun z hz => ?_) hxs ((insertDown_descending hless hx hsorted h).of_ok hzs)
      rcases List.mem_cons.mp (hperm.mem_iff.mp hz) with rfl | hz
      · exact hx
      · exact hsorted z hz
    · trivial

include hless hp in
theorem insertAll_filter {sorted xs : List α} (hsorted : ∀ y ∈ sorted, K y)
    (hxs : ∀ x ∈ xs, K x) : (insertAll less sorted xs).Ensures fun zs =>
      zs.filter p = sorted.reverse.filter p ++ xs.filter p := by
  induction xs generalizing sorted with
  | nil => exact (List.append_nil _).symm
  | cons x xs ih =>
    obtain ⟨hx, hxs⟩ := List.forall_mem_cons.mp hxs
    unfold insertAll
    split
    · next zs hzs =>
      have hperm := (insertDown_perm less x sorted).of_ok hzs
      have hfilter := (insertDown_filter hless hp hx hsorted).of_ok hzs
      have hzsK : ∀ z ∈ zs, K z := by
        intro z hz
        rcases List.mem_cons.mp (hperm.mem_iff.mp hz) with rfl | hz
        · exact hx
        · exact hsorted z hz
      refine (ih hzsK hxs).imp fun r hr => ?_
      rw [hr, List.filter_reverse, hfilter, ← List.filter_reverse, List.reverse_cons,
        List.filter_append, List.append_assoc, ← List.filter_append, List.singleton_append]
    · trivial

/-! #### Runs -/

/-- How an item of a run, which is read backwards, stands to those after it: a falling run
    is in order from its last item on, the others are in order from their first. -/
def RunOrder (less : α → α → Except ε Bool) (falling : Bool) (x y : α) : Prop :=
  if falling then Before less x y else Precedes less y x

include hless in
theorem RunOrder.extend {falling : Bool} {x last y : α} (hx : K x) (hlast : K last) (hy : K y)
    (hfirst : less x last = .ok falling) (h : RunOrder less falling last y) :
    RunOrder less falling x y := by
  cases falling with
  | true => exact hless.before_of_before_of_precedes hx hlast hy (hless.before hx hlast hfirst) h.1
  | false => exact hless.trans hy hlast hx h hfirst

include hless in
theorem runOrder_of_less {falling : Bool} {x y : α} (hx : K x) (hy : K y)
    (h : less x y = .ok falling) : RunOrder less falling x y := by
  cases falling with
  | true => exact hless.before hx hy h
  | false => exact h

include hless in
theorem takeRun_pairwise {falling : Bool} {last : α} {run xs : List α}
    (hrun : ∀ r ∈ last :: run, K r) (hxs : ∀ x ∈ xs, K x)
    (h : (last :: run).Pairwise (RunOrder less falling)) :
    (takeRun less falling last (last :: run) xs).Ensures fun r =>
      r.1.Pairwise (RunOrder less falling) := by
  induction xs generalizing last run with
  | nil => exact h
  | cons x xs ih =>
    obtain ⟨hx, hxs⟩ := List.forall_mem_cons.mp hxs
    have hlast := hrun last List.mem_cons_self
    unfold takeRun
    split
    · next b hb =>
      split
      · next hsame =>
        subst hsame
        refine ih (List.forall_mem_cons.mpr ⟨hx, hrun⟩) hxs (List.pairwise_cons.mpr ⟨?_, h⟩)
        intro r hr
        rcases List.mem_cons.mp hr with rfl | hr'
        · exact runOrder_of_less hless hx hlast hb
        · exact .extend hless hx hlast (hrun r hr) hb ((List.pairwise_cons.mp h).1 r hr')
      · exact h
    · trivial

include hless in
/-- The first run of a list is in order, and leaves every level as it was. -/
theorem firstRun_arranged {falling : Bool} {x y : α} {rest run left : List α}
    (hxs : ∀ z ∈ x :: y :: rest, K z) (hfirst : less y x = .ok falling)
    (hrun : takeRun less falling y [y, x] rest = .ok (run, left)) :
    Ascending less (if falling then run else run.reverse) ∧
      ∀ p, Level less K p → (if falling then run else run.reverse).filter p ++ left.filter p =
        (x :: y :: rest).filter p := by
  obtain ⟨hx, hys⟩ := List.forall_mem_cons.mp hxs
  obtain ⟨hy, hrest⟩ := List.forall_mem_cons.mp hys
  obtain ⟨taken, hsplit, hreverse⟩ := (takeRun_suffix falling y [y, x] rest).of_ok hrun
  have hpair : ∀ z ∈ [y, x], K z := by
    intro z hz
    simp only [List.mem_cons, List.not_mem_nil, or_false] at hz
    rcases hz with rfl | rfl
    · exact hy
    · exact hx
  have horder := (takeRun_pairwise hless hpair hrest
    (List.pairwise_pair.mpr (runOrder_of_less hless hy hx hfirst))).of_ok hrun
  have hforward : run.reverse ++ left = x :: y :: rest := by
    have hrest' : rest = taken ++ left := hsplit
    have hrun' : run = taken.reverse ++ [y, x] := hreverse
    rw [hrun', hrest']
    simp
  have hrunK : ∀ z ∈ run, K z := by
    intro z hz
    refine hxs z ?_
    rw [← hforward]
    exact List.mem_append_left _ (List.mem_reverse.mpr hz)
  have hlevel : ∀ p, run.reverse.filter p ++ left.filter p = (x :: y :: rest).filter p := by
    intro p
    rw [← List.filter_append, hforward]
  cases falling with
  | true =>
    refine ⟨horder.imp fun h => h.1, fun p hp => ?_⟩
    have hreversed := hp.filter_reverse hrunK horder
    rw [if_pos rfl, ← hreversed]
    exact hlevel p
  | false => exact ⟨List.pairwise_reverse.mpr horder, fun p _ => hlevel p⟩

include hless in
theorem runs_arranged (found : List (List α)) (fuel : Nat) {xs : List α}
    (hfuel : xs.length ≤ fuel) (hxs : ∀ x ∈ xs, K x) (hfound : ∀ l ∈ found, Ascending less l) :
    (runs less found fuel xs).Ensures fun r => (∀ l ∈ r, Ascending less l) ∧
      ∀ p, Level less K p → r.flatten.filter p = found.reverse.flatten.filter p ++ xs.filter p := by
  induction fuel generalizing found xs with
  | zero =>
    rw [List.length_eq_zero_iff.mp (Nat.le_zero.mp hfuel), runs]
    exact ⟨fun l hl => hfound l (List.mem_reverse.mp hl), fun p _ => by simp⟩
  | succ fuel ih =>
    rcases xs with - | ⟨x, - | ⟨y, rest⟩⟩
    · rw [runs]
      · exact ⟨fun l hl => hfound l (List.mem_reverse.mp hl), fun p _ => by simp⟩
      · simp
    · rw [runs]
      · refine ⟨fun l hl => ?_, fun p _ => by simp [List.filter_append]⟩
        rcases List.mem_cons.mp (List.mem_reverse.mp hl) with rfl | hl
        · exact List.pairwise_singleton _ _
        · exact hfound l hl
      · simp
    · rw [runs]
      split
      · next falling hfirst =>
        split
        · next run left hrun =>
          obtain ⟨hascending, hlevel⟩ := firstRun_arranged hless hxs hfirst hrun
          obtain ⟨taken, hsplit, -⟩ := (takeRun_suffix falling y [y, x] rest).of_ok hrun
          have hsplit' : rest = taken ++ left := hsplit
          have hleft : ∀ z ∈ left, K z := by
            intro z hz
            refine hxs z (List.mem_cons_of_mem _ (List.mem_cons_of_mem _ ?_))
            rw [hsplit']
            exact List.mem_append_right _ hz
          have hlength : left.length ≤ fuel := by
            rw [hsplit'] at hfuel
            simp only [List.length_cons, List.length_append] at hfuel
            omega
          refine (ih _ hlength hleft (List.forall_mem_cons.mpr ⟨hascending, hfound⟩)).imp ?_
          rintro r ⟨hr, hstable⟩
          refine ⟨hr, fun p hp => ?_⟩
          rw [hstable p hp, ← hlevel p hp]
          simp [List.filter_append]
        · trivial
      · trivial

/-! #### Merging -/

include hless in
/-- An item behind some others may go in front of another list behind them. -/
theorem Ascending.insert {ms ws zs : List α} {z w : α} (hzK : K z) (hws : ∀ x ∈ w :: ws, K x)
    (hz : Ascending less (ms ++ z :: zs)) (hw : Ascending less (ms ++ w :: ws))
    (hzw : Precedes less z w) : Ascending less (ms ++ z :: w :: ws) := by
  obtain ⟨hms, -, hmz⟩ := List.pairwise_append.mp hz
  obtain ⟨-, hwws, hmw⟩ := List.pairwise_append.mp hw
  refine List.pairwise_append.mpr ⟨hms, List.pairwise_cons.mpr ⟨?_, hwws⟩, ?_⟩
  · intro x hx
    rcases List.mem_cons.mp hx with rfl | hx'
    · exact hzw
    · exact hless.trans hzK (hws w List.mem_cons_self) (hws x hx) hzw
        ((List.pairwise_cons.mp hwws).1 x hx')
  · intro m hm x hx
    rcases List.mem_cons.mp hx with rfl | hx
    · exact hmz m hm _ List.mem_cons_self
    · exact hmw m hm x hx

include hless in
/-- What has been merged is in order, and in front of what is left of both lists. -/
theorem mergeOnto_ascending (fuel : Nat) {merged xs ys : List α} (hxs : ∀ x ∈ xs, K x)
    (hys : ∀ y ∈ ys, K y) (hfuel : xs.length + ys.length ≤ fuel)
    (hleft : Ascending less (merged.reverse ++ xs))
    (hright : Ascending less (merged.reverse ++ ys)) :
    (mergeOnto less merged fuel xs ys).Ensures (Ascending less) := by
  induction fuel generalizing merged xs ys with
  | zero =>
    have hnil : xs = [] := List.length_eq_zero_iff.mp (by omega)
    rw [hnil, mergeOnto]
    exact hright
  | succ fuel ih =>
    cases xs with
    | nil =>
      rw [mergeOnto]
      exact hright
    | cons x xs =>
      cases ys with
      | nil =>
        simp only [mergeOnto]
        exact hleft
      | cons y ys =>
        obtain ⟨hx, hxs'⟩ := List.forall_mem_cons.mp hxs
        obtain ⟨hy, hys'⟩ := List.forall_mem_cons.mp hys
        have happend : ∀ (z : α) (zs : List α),
            (z :: merged).reverse ++ zs = merged.reverse ++ z :: zs := by simp
        simp only [List.length_cons] at hfuel
        unfold mergeOnto
        split
        · next hyx =>
          refine ih hxs hys' (by simp; omega) ?_ ?_
          · rw [happend]
            exact .insert hless hy hxs hright hleft (hless.precedes_of_less hy hx hyx)
          · rw [happend]
            exact hright
        · next hyx =>
          refine ih hxs' hys (by simp; omega) ?_ ?_
          · rw [happend]
            exact hleft
          · rw [happend]
            exact .insert hless hx hys hleft hright hyx
        · trivial

include hless hp in
theorem mergeOnto_filter (fuel : Nat) {merged xs ys : List α} (hxs : ∀ x ∈ xs, K x)
    (hys : ∀ y ∈ ys, K y) (hascending : Ascending less xs) :
    (mergeOnto less merged fuel xs ys).Ensures fun zs =>
      zs.filter p = merged.reverse.filter p ++ (xs.filter p ++ ys.filter p) := by
  induction fuel generalizing merged xs ys with
  | zero =>
    unfold mergeOnto
    split
    · simp [List.filter_append]
    · simp [List.filter_append]
    · simp [List.filter_append]
    · contradiction
  | succ fuel ih =>
    cases xs with
    | nil =>
      rw [mergeOnto]
      simp [List.filter_append]
    | cons x xs =>
      cases ys with
      | nil =>
        simp only [mergeOnto]
        simp [List.filter_append]
      | cons y ys =>
        obtain ⟨hx, hxs'⟩ := List.forall_mem_cons.mp hxs
        obtain ⟨hy, hys'⟩ := List.forall_mem_cons.mp hys
        obtain ⟨hfirst, hrest⟩ := List.pairwise_cons.mp hascending
        unfold mergeOnto
        split
        · next hyx =>
          refine (ih hxs hys' hascending).imp fun zs hzs => ?_
          rw [hzs, List.reverse_cons, List.filter_append, List.append_assoc]
          by_cases hpy : p y = true
          · -- nothing of its level is among the items that the second one overtakes
            have hbefore : ∀ z ∈ x :: xs, Before less y z := by
              intro z hz
              have hyx' := hless.before hy hx hyx
              rcases List.mem_cons.mp hz with rfl | hz'
              · exact hyx'
              · exact hless.before_of_before_of_precedes hy hx (hxs z hz) hyx' (hfirst z hz')
            rw [hp.filter_eq_nil hy hxs hpy hbefore, List.filter_cons_of_pos hpy]
            simp [hpy]
          · simp [hpy]
        · refine (ih hxs' hys hrest).imp fun zs hzs => ?_
          rw [hzs, List.reverse_cons, List.filter_append, List.append_assoc]
          simp only [List.filter_cons, List.filter_nil]
          split <;> simp
        · trivial

include hless in
theorem merge_arranged {xs ys : List α} (hxs : ∀ x ∈ xs, K x) (hys : ∀ y ∈ ys, K y)
    (hleft : Ascending less xs) (hright : Ascending less ys) :
    (merge less xs ys).Ensures fun zs => Ascending less zs ∧
      ∀ p, Level less K p → zs.filter p = xs.filter p ++ ys.filter p := by
  cases hzs : merge less xs ys with
  | error e => trivial
  | ok zs =>
    have hascending : (merge less xs ys).Ensures (Ascending less) :=
      mergeOnto_ascending hless _ hxs hys (Nat.le_refl _) hleft hright
    refine ⟨hascending.of_ok hzs, fun p hp => ?_⟩
    simpa using (mergeOnto_filter hless hp _ hxs hys hleft).of_ok hzs

include hless in
theorem mergePairs_arranged {merged lists : List (List α)}
    (hmerged : ∀ l ∈ merged, Ascending less l) (hlists : ∀ l ∈ lists, Ascending less l)
    (hK : ∀ l ∈ lists, ∀ x ∈ l, K x) :
    (mergePairs less merged lists).Ensures fun r => (∀ l ∈ r, Ascending less l) ∧
      ∀ p, Level less K p →
        r.flatten.filter p = merged.reverse.flatten.filter p ++ lists.flatten.filter p := by
  fun_induction mergePairs less merged lists with
  | case1 merged xs ys rest zs hzs ih =>
    obtain ⟨hxs, hlists⟩ := List.forall_mem_cons.mp hlists
    obtain ⟨hys, hrest⟩ := List.forall_mem_cons.mp hlists
    obtain ⟨hKxs, hK⟩ := List.forall_mem_cons.mp hK
    obtain ⟨hKys, hKrest⟩ := List.forall_mem_cons.mp hK
    obtain ⟨hascending, hstable⟩ := (merge_arranged hless hKxs hKys hxs hys).of_ok hzs
    refine (ih (List.forall_mem_cons.mpr ⟨hascending, hmerged⟩) hrest hKrest).imp ?_
    rintro r ⟨hr, hfilter⟩
    refine ⟨hr, fun p hp => ?_⟩
    rw [hfilter p hp]
    simp [List.filter_append, hstable p hp]
  | case2 => trivial
  | case3 merged xs =>
    refine ⟨fun l hl => ?_, fun p _ => by simp [List.filter_append]⟩
    rcases List.mem_cons.mp (List.mem_reverse.mp hl) with rfl | hl
    · exact hlists _ List.mem_cons_self
    · exact hmerged l hl
  | case4 merged => exact ⟨fun l hl => hmerged l (List.mem_reverse.mp hl), fun p _ => by simp⟩

theorem length_mergePairs (merged lists : List (List α)) :
    (mergePairs less merged lists).Ensures fun r =>
      r.length = merged.length + (lists.length + 1) / 2 := by
  fun_induction mergePairs less merged lists with
  | case1 merged xs ys rest zs hzs ih =>
    refine ih.imp fun r hr => ?_
    simp only [List.length_cons] at hr ⊢
    omega
  | case2 => trivial
  | case3 merged xs => simp
  | case4 merged => simp

include hless in
theorem mergeAll_arranged (fuel : Nat) {lists : List (List α)} (hfuel : lists.length ≤ fuel)
    (hlists : ∀ l ∈ lists, Ascending less l) (hK : ∀ l ∈ lists, ∀ x ∈ l, K x) :
    (mergeAll less fuel lists).Ensures fun zs => Ascending less zs ∧
      ∀ p, Level less K p → zs.filter p = lists.flatten.filter p := by
  fun_induction mergeAll less fuel lists with
  | case1 lists =>
    rw [List.length_eq_zero_iff.mp (Nat.le_zero.mp hfuel)]
    exact ⟨.nil, fun p _ => rfl⟩
  | case2 => exact ⟨.nil, fun p _ => rfl⟩
  | case3 fuel xs =>
    exact ⟨hlists xs List.mem_cons_self, fun p _ => by simp⟩
  | case4 fuel lists hnil hone next hnext ih =>
    obtain ⟨hascending, hstable⟩ := (mergePairs_arranged hless (List.forall_mem_nil _) hlists
      hK).of_ok hnext
    have hlength := (length_mergePairs [] lists).of_ok hnext
    have hperm := (mergePairs_perm less [] lists).of_ok hnext
    have hnextK : ∀ l ∈ next, ∀ x ∈ l, K x := by
      intro l hl x hx
      have hmem := hperm.mem_iff.mp (List.mem_flatten.mpr ⟨l, hl, hx⟩)
      simp only [List.flatten_nil, List.nil_append, List.mem_flatten] at hmem
      obtain ⟨l', hl', hx'⟩ := hmem
      exact hK l' hl' x hx'
    have hfewer : next.length ≤ fuel := by
      rcases lists with - | ⟨xs, - | ⟨ys, rest⟩⟩
      · exact absurd rfl hnil
      · exact absurd rfl (hone xs)
      · simp only [List.length_cons, List.length_nil] at hlength hfuel
        omega
    refine (ih hfewer hascending hnextK).imp ?_
    rintro zs ⟨hzs, hfilter⟩
    refine ⟨hzs, fun p hp => ?_⟩
    rw [hfilter p hp, hstable p hp]
    simp
  | case5 => trivial

include hless in
/-- **What is sorted is in order, and every level is as it was.** -/
theorem sort_arranged {items : List α} (hitems : ∀ x ∈ items, K x) :
    (sort less items).Ensures fun zs => Ascending less zs ∧
      ∀ p, Level less K p → zs.filter p = items.filter p := by
  unfold sort
  split
  · cases hzs : insertAll less [] items with
    | error e => trivial
    | ok zs =>
      refine ⟨(insertAll_ascending hless (List.forall_mem_nil _) hitems .nil).of_ok hzs,
        fun p hp => ?_⟩
      simpa using (insertAll_filter hless hp (List.forall_mem_nil _) hitems).of_ok hzs
  · split
    · next found hfound =>
      obtain ⟨hascending, hstable⟩ := (runs_arranged hless [] items.length (Nat.le_refl _) hitems
        (List.forall_mem_nil _)).of_ok hfound
      have hperm := (runs_perm less [] items.length items (Nat.le_refl _)).of_ok hfound
      have hfoundK : ∀ l ∈ found, ∀ x ∈ l, K x := by
        intro l hl x hx
        have hmem := hperm.mem_iff.mp (List.mem_flatten.mpr ⟨l, hl, hx⟩)
        exact hitems x (by simpa using hmem)
      refine (mergeAll_arranged hless _ (Nat.le_refl _) hascending hfoundK).imp ?_
      rintro zs ⟨hzs, hfilter⟩
      refine ⟨hzs, fun p hp => ?_⟩
      rw [hfilter p hp, hstable p hp]
      simp
    · trivial

include hless in
/-- **A sort succeeds just if its items can be compared pairwise.** -/
theorem sort_ok_iff {items : List α} (hitems : ∀ x ∈ items, K x) :
    (∃ zs, sort less items = .ok zs) ↔ items.Pairwise (Comparable less) := by
  constructor
  · rintro ⟨zs, hzs⟩
    have hperm := (sort_perm less items).of_ok hzs
    have hascending := ((sort_arranged hless hitems).of_ok hzs).1
    refine pairwise_comparable_of_perm hperm (hascending.imp_of_mem ?_)
    intro x y hx hy hxy
    exact hless.comparable (hitems x (hperm.mem_iff.mp hx)) (hitems y (hperm.mem_iff.mp hy)) hxy
  · exact sort_ok

end Order

end SafeExpr.Sort
