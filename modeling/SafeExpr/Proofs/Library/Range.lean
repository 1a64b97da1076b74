/-
  SafeExpr/Proofs/Library/Range.lean
  ==================================
  **What `range` goes through.**

  A range has the integers `start + k * step` for `k = 0, 1, …`, as long as they come strictly
  before `stop`.  How many there are is not counted but divided, rounding up, on exact integers;
  `lt_rangeLength_iff` says that this is their number for either sign of the step.  Each of them
  lies between `start` and `stop`, so none is too large for 64 bits, whatever the step.
-/
import Mathlib.Data.Set.Card
import SafeExpr.Library.Builtins

namespace SafeExpr

namespace Builtins

/-! ### The number of steps -/

/-- `x` comes strictly before `stop` on a way that goes on by `step`. -/
def ComesBefore (step x stop : Int) : Prop := if 0 < step then x < stop else stop < x

/-- The numbers of steps from `start` after which `stop` is not reached yet. -/
def stepsBefore (start stop step : Int) : Set Nat :=
  {k | ComesBefore step (start + (k : Int) * step) stop}

section Steps

variable {start stop step : Int}

/-- Dividing with rounding up: the steps that fit strictly into a distance. -/
theorem lt_ediv_up_iff {d s k : Int} (hs : 0 < s) : k < (d + s - 1) / s ↔ k * s < d := by
  rw [Int.lt_iff_add_one_le, Int.le_ediv_iff_mul_le hs, Int.add_mul, Int.one_mul]
  omega

/-- **The length of a range is the number of its steps before `stop`.** -/
theorem lt_rangeLength_iff (hstep : step ≠ 0) (k : Nat) :
    k < rangeLength start stop step ↔ ComesBefore step (start + (k : Int) * step) stop := by
  unfold rangeLength ComesBefore
  split
  · next hpos =>
    rw [Int.lt_toNat, lt_ediv_up_iff hpos]
    omega
  · next hneg =>
    have hopposite : start - stop - step - 1 = start - stop + -step - 1 := by omega
    rw [Int.lt_toNat, hopposite, lt_ediv_up_iff (by omega), Int.mul_neg]
    omega

theorem stepsBefore_eq (hstep : step ≠ 0) :
    stepsBefore start stop step = Set.Iio (rangeLength start stop step) := by
  ext k
  exact (lt_rangeLength_iff hstep k).symm

theorem ncard_stepsBefore (hstep : step ≠ 0) :
    (stepsBefore start stop step).ncard = rangeLength start stop step := by
  rw [stepsBefore_eq hstep, ← Finset.coe_range, Set.ncard_coe_finset, Finset.card_range]

/-- On the way to `stop` nothing is passed that is not between `start` and `stop`. -/
theorem between_of_comesBefore {k : Nat}
    (h : ComesBefore step (start + (k : Int) * step) stop) :
    min start stop ≤ start + (k : Int) * step ∧ start + (k : Int) * step ≤ max start stop := by
  have hk : (0 : Int) ≤ k := Int.natCast_nonneg k
  unfold ComesBefore at h
  split at h
  · next hpos =>
    have hforward : 0 ≤ (k : Int) * step := Int.mul_nonneg hk (Int.le_of_lt hpos)
    omega
  · next hneg =>
    have hbackward : (k : Int) * step ≤ 0 := Int.mul_nonpos_of_nonneg_of_nonpos hk (by omega)
    omega

end Steps

/-! ### The items -/

/-- The integers of a range, in their order. -/
def rangeIntegers (start stop step : Int64) : List Int64 :=
  (List.range (rangeLength start.toInt stop.toInt step.toInt)).map fun (k : Nat) =>
    Int64.ofInt (start.toInt + (k : Int) * step.toInt)

section Items

variable {start stop step : Int64}

theorem length_rangeIntegers :
    (rangeIntegers start stop step).length =
      rangeLength start.toInt stop.toInt step.toInt := by
  rw [rangeIntegers, List.length_map, List.length_range]

theorem toInt_ne_zero (hstep : step ≠ 0) : step.toInt ≠ 0 :=
  fun h => hstep (Int64.toInt_inj.mp h)

/-- **No integer of a range is cut off.** -/
theorem toInt_rangeIntegers (hstep : step ≠ 0) {k : Nat}
    (hk : k < (rangeIntegers start stop step).length) :
    (rangeIntegers start stop step)[k].toInt = start.toInt + (k : Int) * step.toInt := by
  have hbefore := hk
  rw [length_rangeIntegers, lt_rangeLength_iff (toInt_ne_zero hstep)] at hbefore
  obtain ⟨hlow, hhigh⟩ := between_of_comesBefore hbefore
  have hstart := start.le_toInt
  have hstop := stop.le_toInt
  have hstart' := start.toInt_lt
  have hstop' := stop.toInt_lt
  simp only [rangeIntegers, List.getElem_map, List.getElem_range]
  exact Int64.toInt_ofInt_of_le (by omega) (by omega)

theorem rangeItems_eq_list (hstep : step ≠ 0)
    (hfits : rangeLength start.toInt stop.toInt step.toInt ≤ maxSequenceLength) :
    rangeItems start.toInt stop.toInt step.toInt =
      .ok (.list ((rangeIntegers start stop step).map Value.int)) := by
  rw [rangeItems, if_neg (toInt_ne_zero hstep)]
  dsimp only
  rw [if_neg (Nat.not_lt.mpr hfits), rangeIntegers, List.map_map]
  rfl

theorem rangeItems_eq_error (hstep : step ≠ 0)
    (hlong : maxSequenceLength < rangeLength start.toInt stop.toInt step.toInt) :
    rangeItems start.toInt stop.toInt step.toInt = .error .rangeTooLong := by
  rw [rangeItems, if_neg (toInt_ne_zero hstep)]
  exact if_pos hlong

end Items

end Builtins

/-! ### Calls -/

/-- The values, passed by position, are bound to the parameters, and this is the answer. -/
def NativeFunction.Answers (f : NativeFunction) (ps : List Value)
    (answer : Except BackendError Value) : Prop :=
  ∃ args, f.signature.bind ps [] [] = .ok args ∧ f.run args = answer

theorem NativeFunction.answers_iff {f : NativeFunction} {ps : List Value} (args : List Value)
    {answer : Except BackendError Value} (hargs : f.signature.bind ps [] [] = .ok args) :
    f.Answers ps answer ↔ f.run args = answer := by
  rw [Answers, hargs]
  simp

/-- There is one answer. -/
theorem NativeFunction.Answers.unique {f : NativeFunction} {ps : List Value}
    {answer answer' : Except BackendError Value} (h : f.Answers ps answer)
    (h' : f.Answers ps answer') : answer = answer' := by
  obtain ⟨args, hargs, rfl⟩ := h
  exact (NativeFunction.answers_iff args hargs).mp h'

namespace Builtins

/-- Functions of one name are one function. -/
theorem builtins_name_inj {f g : NativeFunction} (hf : f ∈ builtins) (hg : g ∈ builtins)
    (h : f.name = g.name) : f = g := by
  have hnames : (builtins.map NativeFunction.name).Nodup := by decide
  exact List.inj_on_of_nodup_map hnames hf hg h

/-- The function, as the library has it. -/
def rangeFunction : NativeFunction :=
  Library.native "range"
    { params := [⟨"start", .required⟩, ⟨"stop", .optional⟩, ⟨"step", .optional⟩]
      positionalOnly := 3 }
    (ternary "range" range)

theorem rangeFunction_mem : rangeFunction ∈ builtins := by
  simp [builtins, rangeFunction]

theorem run_rangeFunction (first stop step : Value) :
    rangeFunction.run [first, stop, step] =
      (range first stop step).mapError fun fault => { message := fault.message } := by
  simp only [rangeFunction, Library.native, ternary]
  cases range first stop step <;> rfl

/-- **`range` is exact.**  If at most `maxSequenceLength` steps from `start` end strictly before
`stop`, the answer lists what is reached by each of them; if there are more, it is the error of a
range that is too long.  An omitted `step` is one, and an omitted `start` is zero. -/
theorem range_exact {f : NativeFunction} (hf : f ∈ builtins) (hname : f.name = "range")
    {start stop step : Int64} (hstep : step ≠ 0) :
    (stepsBefore start.toInt stop.toInt step.toInt).Finite ∧
    ((stepsBefore start.toInt stop.toInt step.toInt).ncard ≤ maxSequenceLength →
      ∃ ns : List Int64,
        f.Answers [.int start, .int stop, .int step] (.ok (.list (ns.map Value.int))) ∧
        ns.length = (stepsBefore start.toInt stop.toInt step.toInt).ncard ∧
        ∀ (k : Nat) (hk : k < ns.length), ns[k].toInt = start.toInt + (k : Int) * step.toInt) ∧
    (maxSequenceLength < (stepsBefore start.toInt stop.toInt step.toInt).ncard →
      f.Answers [.int start, .int stop, .int step]
        (.error { message := Fault.rangeTooLong.message })) ∧
    (∀ answer, f.Answers [.int start, .int stop] answer ↔
      f.Answers [.int start, .int stop, .int 1] answer) ∧
    ∀ answer, f.Answers [.int stop] answer ↔
      f.Answers [.int 0, .int stop, .int 1] answer := by
  cases builtins_name_inj hf rangeFunction_mem hname
  have hne := toInt_ne_zero hstep
  have hthree : ∀ {a b c : Int64} {answer}, rangeFunction.Answers [.int a, .int b, .int c] answer ↔
      (rangeItems a.toInt b.toInt c.toInt).mapError (fun fault => { message := fault.message }) =
        answer := by
    intro a b c answer
    rw [NativeFunction.answers_iff [.int a, .int b, .int c] rfl, run_rangeFunction]
    rfl
  rw [ncard_stepsBefore hne]
  refine ⟨?_, fun hfits => ?_, fun hlong => ?_, fun answer => ?_, fun answer => ?_⟩
  · rw [stepsBefore_eq hne, ← Finset.coe_range]
    exact Finset.finite_toSet _
  · refine ⟨rangeIntegers start stop step, ?_, length_rangeIntegers, fun k hk =>
      toInt_rangeIntegers hstep hk⟩
    rw [hthree, rangeItems_eq_list hstep hfits]
    rfl
  · rw [hthree, rangeItems_eq_error hstep hlong]
    rfl
  · rw [NativeFunction.answers_iff [.int start, .int stop, .none] rfl,
      run_rangeFunction, hthree]
    rfl
  · rw [NativeFunction.answers_iff [.int stop, .none, .none] rfl,
      run_rangeFunction, hthree]
    rfl

/-- The widest range, in steps that overshoot `stop` as soon as they can, and one too long. -/
theorem range_exact_widest :
    let start : Int64 := -9223372036854775808
    let stop : Int64 := 9223372036854775807
    rangeFunction.Answers [.int start, .int stop, .int stop]
        (.ok (.list [.int start, .int (-1), .int 9223372036854775806])) ∧
      rangeFunction.Answers [.int stop]
        (.error { message := "range() result exceeds the maximum sequence length of 1048576" }) := by
  intro start stop
  have hthree : (stepsBefore start.toInt stop.toInt stop.toInt).ncard = 3 := by
    rw [ncard_stepsBefore (by decide)]
    decide
  have hmany : maxSequenceLength < (stepsBefore 0 stop.toInt 1).ncard := by
    rw [ncard_stepsBefore (by decide)]
    decide
  have hstop : stop ≠ 0 := by decide
  obtain ⟨-, hfits, -⟩ :=
    @range_exact _ rangeFunction_mem rfl start stop stop hstop
  obtain ⟨-, -, hlong, -, hone⟩ :=
    @range_exact _ rangeFunction_mem rfl 0 stop 1 (by decide)
  refine ⟨?_, (hone _).mpr (hlong hmany)⟩
  obtain ⟨ns, hanswer, hlength, hvalues⟩ := hfits (by rw [hthree]; decide)
  obtain ⟨a, b, c, rfl⟩ := List.length_eq_three.mp (hlength.trans hthree)
  have ha : a = start := Int64.toInt_inj.mp ((hvalues 0 (by simp)).trans (by decide))
  have hb : b = -1 := Int64.toInt_inj.mp ((hvalues 1 (by simp)).trans (by decide))
  have hc : c = 9223372036854775806 :=
    Int64.toInt_inj.mp ((hvalues 2 (by simp)).trans (by decide))
  rw [ha, hb, hc] at hanswer
  exact hanswer

end Builtins

end SafeExpr
