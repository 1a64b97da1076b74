/-
  SafeExpr/Proofs/Grammar/Fuel.lean
  =================================
  **How much fuel reading takes.**

  Patterns nest only so deep before a character is read.  A `Ranking` of a grammar gives a
  bound on that for every rule: `rank` is the bound for a pattern, and it only adds up over
  the parts of a sequence as long as no part in front of them `eats` a character.  With
  enough fuel for the rank, and for a fixed number of units for each character,
  `run_ne_outOfFuel` says that a run comes to an outcome.
-/
import SafeExpr.Proofs.Grammar.Reading

namespace SafeExpr

/-! ### Measures of patterns -/

namespace Pattern

variable {R : Type} (eatsRule : R → Bool) (rankRule : R → Nat)

/-- Does the pattern take at least one character wherever it matches? -/
def eats : Pattern R → Bool
  | .text cs => !cs.isEmpty
  | .char _ => true
  | .rule r => eatsRule r
  | .seq p q => p.eats || q.eats
  | .choice p q => p.eats && q.eats
  | .optional _ | .many _ | .unless _ | .endOfText => false

/-- How deep patterns nest before a character is read. -/
def rank : Pattern R → Nat
  | .text _ | .char _ | .endOfText => 1
  | .rule r => rankRule r
  | .seq p q => 1 + max p.rank (if p.eats eatsRule then 0 else q.rank)
  | .choice p q => 1 + max p.rank q.rank
  | .optional p | .many p | .unless p => 1 + p.rank

/-- Are all ranks in the pattern within the bound, and does all that is repeated eat? -/
def fits (bound : Nat) : Pattern R → Bool
  | .text _ | .char _ | .endOfText => true
  | .rule _ => true
  | .seq p q => p.fits bound && q.fits bound && q.rank eatsRule rankRule ≤ bound
  | .choice p q => p.fits bound && q.fits bound
  | .optional p | .unless p => p.fits bound
  | .many p => p.eats eatsRule && p.fits bound

end Pattern

namespace Grammar

open Outcome (matched failed)

variable {R : Type}

/-- The units of fuel that go with each character. -/
def unitsPerChar : Nat := 256

/-- Bounds on the nesting of the rules of a grammar. -/
structure Ranking (g : Grammar R) where
  eats : R → Bool
  rank : R → Nat
  eats_pattern (r : R) : eats r = true → (g.pattern r).eats eats = true
  rank_pattern (r : R) : (g.pattern r).rank eats rank < rank r
  fits_pattern (r : R) : (g.pattern r).fits eats rank unitsPerChar = true
  skip_le (c : Cursor) : (g.skipBlanks c).rest.length ≤ c.rest.length

variable {g : Grammar R}

theorem Ranking.rank_pos (ranking : Ranking g) (p : Pattern R) :
    0 < p.rank ranking.eats ranking.rank := by
  cases p with
  | rule r => exact Nat.zero_lt_of_lt (ranking.rank_pattern r)
  | _ =>
    simp only [Pattern.rank]
    omega

/-! ### What a match leaves to be read -/

theorem gap_le (ranking : Ranking g) (b : Bool) (c : Cursor) :
    (g.gap b c).rest.length ≤ c.rest.length := by
  unfold gap
  split
  · exact Nat.le_refl _
  · exact ranking.skip_le c

theorem take?_length {cs : List Char} {c d : Cursor} (h : c.take? cs = some d) :
    c.rest.length = cs.length + d.rest.length := by
  unfold Cursor.take? at h
  split at h
  · next hprefix =>
    cases h
    have := (List.isPrefixOf_iff_prefix.mp hprefix).length_le
    rw [List.length_drop]
    omega
  · cases h

theorem char?_length {accepts : Char → Bool} {c d : Cursor} (h : c.char? accepts = some d) :
    c.rest.length = 1 + d.rest.length := by
  unfold Cursor.char? at h
  split at h
  · next x rest hrest =>
    split at h
    · cases h
      rw [hrest, List.length_cons, Nat.add_comm]
    · cases h
  · cases h

/-- Is the goal sure to take a character? -/
def Goal.eats (ranking : Ranking g) : Goal R → Bool
  | .one p => p.eats ranking.eats
  | .more _ => false

/-- **A match leaves no more than there was, and less where the goal eats.** -/
theorem length_of_reads (ranking : Ranking g) {b : Bool} {goal : Goal R} {c : Cursor}
    {o : Outcome R} (h : Reads g b goal c o) :
    ∀ d ts, o = matched d ts → d.rest.length ≤ c.rest.length ∧
      (goal.eats ranking = true → d.rest.length < c.rest.length) := by
  induction h with
  | textFails | charFails | endOfTextFails | seqFails | seqFailsLater | ruleFails
  | unlessFails => exact nofun
  | text h =>
    rintro d ts ⟨⟩
    have hlength := take?_length h
    refine ⟨by omega, fun heats => ?_⟩
    have := List.length_pos_iff.mpr (by simpa [Goal.eats, Pattern.eats] using heats)
    omega
  | char h =>
    rintro d ts ⟨⟩
    have := char?_length h
    exact ⟨by omega, fun _ => by omega⟩
  | endOfText | optionalSkips | «unless» | manySkips | moreEnds =>
    rintro d ts ⟨⟩
    exact ⟨Nat.le_refl _, nofun⟩
  | optional hp ih =>
    rintro d ts ⟨⟩
    exact ⟨(ih _ _ rfl).1, nofun⟩
  | @seq b p q c d e ts us hp hq ihp ihq =>
    rintro _ _ ⟨⟩
    obtain ⟨hfirst, heatsFirst⟩ := ihp _ _ rfl
    obtain ⟨hsecond, heatsSecond⟩ := ihq _ _ rfl
    have := gap_le ranking b d
    refine ⟨by omega, fun heats => ?_⟩
    simp only [Goal.eats, Pattern.eats, Bool.or_eq_true] at heats
    rcases heats with heats | heats
    · have := heatsFirst heats
      omega
    · have := heatsSecond heats
      omega
  | choice hp ih =>
    rintro d ts ⟨⟩
    obtain ⟨hle, hlt⟩ := ih _ _ rfl
    refine ⟨hle, fun heats => hlt ?_⟩
    simp only [Goal.eats, Pattern.eats, Bool.and_eq_true] at heats
    exact heats.1
  | choiceLater hp hq ihp ihq =>
    intro d ts ho
    obtain ⟨hle, hlt⟩ := ihq d ts ho
    refine ⟨hle, fun heats => hlt ?_⟩
    simp only [Goal.eats, Pattern.eats, Bool.and_eq_true] at heats
    exact heats.2
  | many hp hmore ihp ihmore =>
    rintro _ _ ⟨⟩
    have hfirst := (ihp _ _ rfl).1
    have hsecond := (ihmore _ _ rfl).1
    exact ⟨by omega, nofun⟩
  | @more b p c d e ts us hp hmore ihp ihmore =>
    rintro _ _ ⟨⟩
    have hfirst := (ihp _ _ rfl).1
    have hsecond := (ihmore _ _ rfl).1
    have := gap_le ranking b c
    exact ⟨by omega, nofun⟩
  | @rule b r c d ts h ih =>
    rintro _ _ ⟨⟩
    obtain ⟨hle, hlt⟩ := ih _ _ rfl
    exact ⟨hle, fun heats => hlt (ranking.eats_pattern r heats)⟩

/-! ### Fuel that suffices -/

/-- A run with this fuel comes to an outcome, if the fuel covers the characters that are
    left and the rank of the pattern. -/
def RunsSettle (ranking : Ranking g) (fuel : Nat) : Prop :=
  ∀ b p c t, p.fits ranking.eats ranking.rank unitsPerChar = true →
    unitsPerChar * c.rest.length + p.rank ranking.eats ranking.rank ≤ fuel →
      (g.run fuel b p c t).1 ≠ .outOfFuel

def RunsAgainSettle (ranking : Ranking g) (fuel : Nat) : Prop :=
  ∀ b p found c t, p.fits ranking.eats ranking.rank unitsPerChar = true →
    p.eats ranking.eats = true →
      unitsPerChar * c.rest.length + p.rank ranking.eats ranking.rank < fuel →
        (g.runAgain fuel b p found c t).1 ≠ .outOfFuel

/-- A match within a run leaves no more than there was, and less where the pattern eats. -/
theorem length_of_run (ranking : Ranking g) {fuel : Nat} {b : Bool} {p : Pattern R}
    {c d : Cursor} {t t' : Trail R} {ts : List (Tree R)}
    (h : g.run fuel b p c t = (matched d ts, t')) :
    d.rest.length ≤ c.rest.length ∧
      (p.eats ranking.eats = true → d.rest.length < c.rest.length) := by
  have hreads : Reads g b (.one p) c (matched d ts) :=
    (runsRead_all g fuel).1 b p c t _ _ h nofun
  exact length_of_reads ranking hreads d ts rfl

section Step

variable {ranking : Ranking g} {fuel : Nat} {b : Bool} {p q : Pattern R} {c : Cursor}
  {t : Trail R}

variable (ih : RunsSettle ranking fuel)
include ih

theorem RunsSettle.seq
    (hfits : (Pattern.seq p q).fits ranking.eats ranking.rank unitsPerChar = true)
    (hfuel : unitsPerChar * c.rest.length + (Pattern.seq p q).rank ranking.eats ranking.rank ≤
      fuel + 1) : (g.run (fuel + 1) b (.seq p q) c t).1 ≠ .outOfFuel := by
  simp only [Pattern.fits, Bool.and_eq_true, decide_eq_true_eq] at hfits
  obtain ⟨⟨hp, hq⟩, hrank⟩ := hfits
  simp only [Pattern.rank] at hfuel
  have hfirst := ih b p c t hp (by omega)
  simp only [run]
  rcases hrun : g.run fuel b p c t with ⟨o, u⟩
  rw [hrun] at hfirst
  cases o with
  | failed =>
    intro h
    cases h
  | outOfFuel => exact absurd rfl hfirst
  | matched d ts =>
    obtain ⟨hle, hlt⟩ := length_of_run ranking hrun
    have hgap := gap_le ranking b d
    have hsecond : (g.run fuel b q (g.gap b d) u).1 ≠ .outOfFuel := by
      apply ih b q _ u hq
      unfold unitsPerChar at *
      by_cases heats : p.eats ranking.eats = true
      · have := hlt heats
        rw [if_pos heats] at hfuel
        omega
      · rw [if_neg heats] at hfuel
        omega
    dsimp only
    rcases hrun' : g.run fuel b q (g.gap b d) u with ⟨o, u'⟩
    rw [hrun'] at hsecond
    cases o with
    | matched e us =>
      intro h
      cases h
    | failed =>
      intro h
      cases h
    | outOfFuel => exact absurd rfl hsecond

theorem RunsSettle.choice
    (hfits : (Pattern.choice p q).fits ranking.eats ranking.rank unitsPerChar = true)
    (hfuel : unitsPerChar * c.rest.length +
      (Pattern.choice p q).rank ranking.eats ranking.rank ≤ fuel + 1) :
    (g.run (fuel + 1) b (.choice p q) c t).1 ≠ .outOfFuel := by
  simp only [Pattern.fits, Bool.and_eq_true] at hfits
  simp only [Pattern.rank] at hfuel
  have hfirst := ih b p c t hfits.1 (by omega)
  simp only [run]
  rcases hrun : g.run fuel b p c t with ⟨o, u⟩
  rw [hrun] at hfirst
  cases o with
  | matched d ts =>
    intro h
    cases h
  | failed => exact ih b q c u hfits.2 (by omega)
  | outOfFuel => exact absurd rfl hfirst

theorem RunsSettle.optional
    (hfits : (Pattern.optional p).fits ranking.eats ranking.rank unitsPerChar = true)
    (hfuel : unitsPerChar * c.rest.length +
      (Pattern.optional p).rank ranking.eats ranking.rank ≤ fuel + 1) :
    (g.run (fuel + 1) b (.optional p) c t).1 ≠ .outOfFuel := by
  simp only [Pattern.rank] at hfuel
  have hfirst := ih b p c t hfits (by omega)
  simp only [run]
  rcases hrun : g.run fuel b p c t with ⟨o, u⟩
  rw [hrun] at hfirst
  cases o with
  | matched d ts =>
    intro h
    cases h
  | failed =>
    intro h
    cases h
  | outOfFuel => exact absurd rfl hfirst

theorem RunsSettle.unless
    (hfits : (Pattern.unless p).fits ranking.eats ranking.rank unitsPerChar = true)
    (hfuel : unitsPerChar * c.rest.length +
      (Pattern.unless p).rank ranking.eats ranking.rank ≤ fuel + 1) :
    (g.run (fuel + 1) b (.unless p) c t).1 ≠ .outOfFuel := by
  simp only [Pattern.rank] at hfuel
  have hfirst := ih b p c t hfits (by omega)
  simp only [run]
  rcases hrun : g.run fuel b p c t with ⟨o, u⟩
  rw [hrun] at hfirst
  cases o with
  | matched d ts =>
    intro h
    cases h
  | failed =>
    intro h
    cases h
  | outOfFuel => exact absurd rfl hfirst

theorem RunsSettle.many (ihAgain : RunsAgainSettle ranking fuel)
    (hfits : (Pattern.many p).fits ranking.eats ranking.rank unitsPerChar = true)
    (hfuel : unitsPerChar * c.rest.length +
      (Pattern.many p).rank ranking.eats ranking.rank ≤ fuel + 1) :
    (g.run (fuel + 1) b (.many p) c t).1 ≠ .outOfFuel := by
  simp only [Pattern.fits, Bool.and_eq_true] at hfits
  simp only [Pattern.rank] at hfuel
  obtain ⟨heats, hfits⟩ := hfits
  have hfirst := ih b p c t hfits (by omega)
  simp only [run]
  rcases hrun : g.run fuel b p c t with ⟨o, u⟩
  rw [hrun] at hfirst
  cases o with
  | matched d ts =>
    have := (length_of_run ranking hrun).2 heats
    unfold unitsPerChar at hfuel
    exact ihAgain b p _ d u hfits heats (by unfold unitsPerChar; omega)
  | failed =>
    intro h
    cases h
  | outOfFuel => exact absurd rfl hfirst

theorem RunsSettle.rule {r : R}
    (hfuel : unitsPerChar * c.rest.length +
      (Pattern.rule r).rank ranking.eats ranking.rank ≤ fuel + 1) :
    (g.run (fuel + 1) b (.rule r) c t).1 ≠ .outOfFuel := by
  have hrank := ranking.rank_pattern r
  simp only [Pattern.rank] at hfuel
  have hinner := ih (b || g.isToken r) (g.pattern r) c t (ranking.fits_pattern r) (by omega)
  simp only [run]
  rcases hrun : g.run fuel (b || g.isToken r) (g.pattern r) c t with ⟨o, u⟩
  rw [hrun] at hinner
  cases o with
  | matched d ts =>
    dsimp only
    split
    · intro h
      cases h
    · split
      all_goals
        intro h
        cases h
  | failed =>
    intro h
    cases h
  | outOfFuel => exact absurd rfl hinner

theorem RunsSettle.again (ihAgain : RunsAgainSettle ranking fuel) {found : List (Tree R)}
    (hfits : p.fits ranking.eats ranking.rank unitsPerChar = true)
    (heats : p.eats ranking.eats = true)
    (hfuel : unitsPerChar * c.rest.length + p.rank ranking.eats ranking.rank < fuel + 1) :
    (g.runAgain (fuel + 1) b p found c t).1 ≠ .outOfFuel := by
  have hgap := gap_le ranking b c
  have hfirst : (g.run fuel b p (g.gap b c) t).1 ≠ .outOfFuel := by
    apply ih b p _ t hfits
    unfold unitsPerChar at *
    omega
  simp only [runAgain]
  rcases hrun : g.run fuel b p (g.gap b c) t with ⟨o, u⟩
  rw [hrun] at hfirst
  cases o with
  | matched d ts =>
    have := (length_of_run ranking hrun).2 heats
    apply ihAgain b p _ d u hfits heats
    unfold unitsPerChar at *
    omega
  | failed =>
    intro h
    cases h
  | outOfFuel => exact absurd rfl hfirst

end Step

theorem runsSettle_succ {ranking : Ranking g} {fuel : Nat} (ih : RunsSettle ranking fuel)
    (ihAgain : RunsAgainSettle ranking fuel) : RunsSettle ranking (fuel + 1) := by
  intro b p c t hfits hfuel
  cases p with
  | text cs | char accepts =>
    simp only [run]
    split
    all_goals
      intro h
      cases h
  | endOfText =>
    simp only [run]
    split
    all_goals
      intro h
      cases h
  | rule r => exact ih.rule hfuel
  | seq p q => exact ih.seq hfits hfuel
  | choice p q => exact ih.choice hfits hfuel
  | optional p => exact ih.optional hfits hfuel
  | many p => exact ih.many ihAgain hfits hfuel
  | «unless» p => exact ih.unless hfits hfuel

theorem runsSettle_all (ranking : Ranking g) (fuel : Nat) :
    RunsSettle ranking fuel ∧ RunsAgainSettle ranking fuel := by
  induction fuel with
  | zero =>
    constructor
    · intro b p c t _ hfuel
      have := ranking.rank_pos p
      omega
    · intro b p found c t _ _ hfuel
      omega
  | succ fuel ih =>
    obtain ⟨ih, ihAgain⟩ := ih
    refine ⟨runsSettle_succ ih ihAgain, ?_⟩
    intro b p found c t hfits heats hfuel
    exact ih.again ihAgain hfits heats hfuel

/-- **A run with fuel for its characters and its rank comes to an outcome.** -/
theorem run_ne_outOfFuel (ranking : Ranking g) {fuel : Nat} {b : Bool} {p : Pattern R}
    {c : Cursor} {t : Trail R}
    (hfits : p.fits ranking.eats ranking.rank unitsPerChar = true)
    (hfuel : unitsPerChar * c.rest.length + p.rank ranking.eats ranking.rank ≤ fuel) :
    (g.run fuel b p c t).1 ≠ .outOfFuel :=
  (runsSettle_all ranking fuel).1 b p c t hfits hfuel

end Grammar

end SafeExpr
