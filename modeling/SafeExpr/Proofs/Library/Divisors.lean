/-
  SafeExpr/Proofs/Library/Divisors.lean
  =====================================
  **What `gcd` finds.**

  `euclid` replaces two numbers by the second and the remainder, which leaves their common
  divisors as they are (`dvd_euclid_iff`), until one number is left; the next argument is then
  joined to that one.  What comes out has exactly the common divisors of all arguments as its
  divisors (`dvd_commonDivisor_iff`), and that makes it the greatest of them.

  It is found from absolute values, and only one of these is too large for an integer: that of
  the smallest one.  So the only divisor that cannot be answered with is `2^63`.
-/
import SafeExpr.Library.Math
import SafeExpr.Proofs.Library.Range

namespace SafeExpr

namespace MathModule

/-! ### Euclid's algorithm -/

/-- **A step of the algorithm keeps the common divisors,** and so does the whole of it. -/
theorem dvd_euclid_iff (d a b : Nat) : d ∣ euclid a b ↔ d ∣ a ∧ d ∣ b := by
  induction a, b using euclid.induct with
  | case1 a =>
    rw [euclid, if_pos rfl]
    simp
  | case2 a b hb ih =>
    rw [euclid, if_neg hb, ih, and_comm]
    exact and_congr_left fun hd => Nat.dvd_mod_iff hd

/-- What is found among some integers, going on from `found`. -/
def commonDivisor (found : Nat) (ns : List Int64) : Nat :=
  ns.foldl (fun g n => euclid g n.toInt.natAbs) found

/-- **What is found so far has the divisors that all numbers so far have in common.** -/
theorem dvd_commonDivisor_iff (d found : Nat) (ns : List Int64) :
    d ∣ commonDivisor found ns ↔ d ∣ found ∧ ∀ n ∈ ns, d ∣ n.toInt.natAbs := by
  induction ns generalizing found with
  | nil => simp [commonDivisor]
  | cons n ns ih =>
    have hnext : commonDivisor found (n :: ns) = commonDivisor (euclid found n.toInt.natAbs) ns :=
      rfl
    rw [hnext, ih, dvd_euclid_iff, and_assoc, List.forall_mem_cons]

theorem gcdFrom_map_int (found : Nat) (ns : List Int64) :
    gcdFrom found (ns.map .int) = Library.exact "gcd" (commonDivisor found ns) := by
  induction ns generalizing found with
  | nil => rfl
  | cons n ns ih => exact ih (euclid found n.toInt.natAbs)

/-! ### The greatest common divisor -/

/-- The number divides all of the integers, and every common divisor of them divides it. -/
structure IsGreatestDivisor (ns : List Int64) (g : Nat) : Prop where
  divides : ∀ n ∈ ns, (g : Int) ∣ n.toInt
  greatest : ∀ d : Int, (∀ n ∈ ns, d ∣ n.toInt) → d ∣ g

section Found

variable {ns : List Int64} {g k : Nat}

theorem IsGreatestDivisor.unique (hg : IsGreatestDivisor ns g) (hk : IsGreatestDivisor ns k) :
    k = g :=
  Nat.dvd_antisymm (Int.natCast_dvd_natCast.mp (hg.greatest k hk.divides))
    (Int.natCast_dvd_natCast.mp (hk.greatest g hg.divides))

theorem commonDivisor_isGreatest (ns : List Int64) :
    IsGreatestDivisor ns (commonDivisor 0 ns) where
  divides n hn := by
    have hself := (dvd_commonDivisor_iff (commonDivisor 0 ns) 0 ns).mp (Nat.dvd_refl _)
    exact Int.natCast_dvd.mpr (hself.2 n hn)
  greatest d hd := by
    rw [Int.dvd_natCast, dvd_commonDivisor_iff]
    exact ⟨Nat.dvd_zero _, fun n hn => Int.natAbs_dvd_natAbs.mpr (hd n hn)⟩

/-- Zero is the greatest common divisor of zeros only. -/
theorem IsGreatestDivisor.eq_zero_iff (h : IsGreatestDivisor ns g) :
    g = 0 ↔ ∀ n ∈ ns, n = 0 := by
  constructor
  · rintro rfl n hn
    exact Int64.toInt_inj.mp (Int.zero_dvd.mp (h.divides n hn))
  · intro hzero
    have hall : ∀ n ∈ ns, (0 : Int) ∣ n.toInt := by
      intro n hn
      rw [hzero n hn]
      exact Int.dvd_refl 0
    exact Int.natCast_eq_zero.mp (Int.zero_dvd.mp (h.greatest 0 hall))

theorem IsGreatestDivisor.le (h : IsGreatestDivisor ns g) : g ≤ 2 ^ 63 := by
  by_cases hzero : g = 0
  · rw [hzero]
    exact Nat.zero_le _
  · rw [h.eq_zero_iff] at hzero
    push Not at hzero
    obtain ⟨n, hn, hne⟩ := hzero
    have hpos : 0 < n.toInt.natAbs := by
      rw [Int.natAbs_pos]
      exact fun h0 => hne (Int64.toInt_inj.mp h0)
    have hle := Nat.le_of_dvd hpos (Int.natCast_dvd.mp (h.divides n hn))
    exact Nat.le_trans hle (natAbs_toInt_le n)

/-- Below `2^63` there is an integer for it. -/
theorem fitInt64_natCast (hg : g ≤ 2 ^ 63) :
    (g ≠ 2 ^ 63 → ∃ m : Int64, m.toInt = g ∧ fitInt64 g = some m) ∧
      (fitInt64 g = none ↔ g = 2 ^ 63) := by
  have hrange : Int64.minValue.toInt ≤ (g : Int) ∧ (g : Int) ≤ Int64.maxValue.toInt ↔ g ≠ 2 ^ 63 := by
    rw [Int64.toInt_minValue, Int64.toInt_maxValue]
    omega
  constructor
  · intro hne
    cases h : fitInt64 g with
    | none => exact absurd (hrange.mpr hne) (fitInt64_eq_none_iff.mp h)
    | some m => exact ⟨m, fitInt64_eq_some_iff.mp h, rfl⟩
  · rw [fitInt64_eq_none_iff, hrange, not_not]

end Found

/-! ### Calls -/

/-- Functions of one name are one function. -/
theorem functions_name_inj {f g : NativeFunction} (hf : f ∈ functions) (hg : g ∈ functions)
    (h : f.name = g.name) : f = g := by
  have hnames : (functions.map NativeFunction.name).Nodup := by decide
  exact List.inj_on_of_nodup_map hnames hf hg h

/-- The function, as the library has it. -/
def gcdFunction : NativeFunction := Library.native "gcd" .anyNumber (gcdFrom 0)

theorem gcdFunction_mem : gcdFunction ∈ functions := by
  simp [functions, gcdFunction]

/-- A function that takes any number of arguments gets those that are passed. -/
theorem bind_anyNumber (args : List Value) :
    Signature.anyNumber.bind args [] [] = .ok args := by
  simp [Signature.bind, Signature.anyNumber, Signature.placePositional, Signature.placeKeywords,
    Signature.completeSlots]
  rfl

theorem gcdFunction_answers_iff (ns : List Int64) (answer : Except BackendError Value) :
    gcdFunction.Answers (ns.map .int) answer ↔
      (Library.exact "gcd" (commonDivisor 0 ns)).mapError (fun fault => { message := fault.message }) =
        answer := by
  rw [NativeFunction.answers_iff (ns.map .int) (bind_anyNumber _), ← gcdFrom_map_int]
  simp only [gcdFunction, Library.native]
  cases gcdFrom 0 (ns.map .int) <;> rfl

/-- **`gcd` finds the greatest common divisor** of any integers, and answers with it unless it is
    `2^63`: then, and only then, it reports the overflow. -/
theorem gcd_exact {f : NativeFunction} (hf : f ∈ functions) (hname : f.name = "gcd")
    (ns : List Int64) :
    ∃ g : Nat, (∀ k, IsGreatestDivisor ns k ↔ k = g) ∧ (g = 0 ↔ ∀ n ∈ ns, n = 0) ∧
      (g ≠ 2 ^ 63 → ∃ m : Int64, m.toInt = g ∧ f.Answers (ns.map .int) (.ok (.int m))) ∧
      (f.Answers (ns.map .int) (.error { message := "gcd(): integer overflow" }) ↔ g = 2 ^ 63) := by
  cases functions_name_inj hf gcdFunction_mem hname
  have hgreatest := commonDivisor_isGreatest ns
  obtain ⟨hfits, hoverflow⟩ := fitInt64_natCast hgreatest.le
  refine ⟨commonDivisor 0 ns, fun k => ⟨hgreatest.unique, fun h => h ▸ hgreatest⟩,
    hgreatest.eq_zero_iff, fun hne => ?_, ?_⟩
  · obtain ⟨m, hm, hfit⟩ := hfits hne
    refine ⟨m, hm, (gcdFunction_answers_iff ns _).mpr ?_⟩
    rw [Library.exact, hfit]
    rfl
  · rw [gcdFunction_answers_iff, ← hoverflow, Library.exact]
    cases fitInt64 (commonDivisor 0 ns) with
    | none => exact iff_of_true rfl rfl
    | some m => exact iff_of_false nofun nofun

/-- The sign of an argument and zeros do not matter; of the smallest integer alone there is no
    divisor to answer with. -/
theorem gcd_exact_edges :
    gcdFunction.Answers [.int 12, .int (-18), .int 0] (.ok (.int 6)) ∧
      gcdFunction.Answers [.int Int64.minValue, .int 0]
        (.error { message := "gcd(): integer overflow" }) := by
  have hsix : IsGreatestDivisor [12, -18, 0] 6 := by
    have hdivides : ∀ n ∈ [(12 : Int64), -18, 0], ((6 : Nat) : Int) ∣ n.toInt := by
      simp only [List.forall_mem_cons]
      exact ⟨⟨2, by decide⟩, ⟨-3, by decide⟩, ⟨0, by decide⟩, List.forall_mem_nil _⟩
    refine ⟨hdivides, fun d hd => ?_⟩
    have htwelve : d ∣ (12 : Int) := hd 12 (by simp)
    have heighteen : d ∣ (-18 : Int) := hd (-18) (by simp)
    have hsum : ((6 : Nat) : Int) = 12 * -1 + -18 * -1 := by decide
    rw [hsum]
    exact Int.dvd_add (Dvd.dvd.mul_right htwelve _) (Dvd.dvd.mul_right heighteen _)
  have hlarge : IsGreatestDivisor [Int64.minValue, 0] (2 ^ 63) := by
    have hdivides : ∀ n ∈ [Int64.minValue, 0], ((2 ^ 63 : Nat) : Int) ∣ n.toInt := by
      simp only [List.forall_mem_cons]
      exact ⟨⟨-1, by decide⟩, ⟨0, by decide⟩, List.forall_mem_nil _⟩
    refine ⟨hdivides, fun d hd => ?_⟩
    have hleast : d ∣ Int64.minValue.toInt := hd _ (by simp)
    rw [Int64.toInt_minValue] at hleast
    exact Int.dvd_neg.mp hleast
  obtain ⟨g, hg, -, hanswers, -⟩ := gcd_exact gcdFunction_mem rfl [12, -18, 0]
  obtain ⟨g', hg', -, -, hoverflow⟩ := gcd_exact gcdFunction_mem rfl [Int64.minValue, 0]
  refine ⟨?_, hoverflow.mpr ((hg' _).mp hlarge).symm⟩
  cases (hg 6).mp hsix
  obtain ⟨m, hm, hanswer⟩ := hanswers (by decide)
  have hm : m = 6 := Int64.toInt_inj.mp (hm.trans (by decide))
  rw [hm] at hanswer
  exact hanswer

end MathModule

end SafeExpr
