/-
  SafeExpr/Proofs/Grammar/Reading.lean
  ====================================
  **What a pattern reads, without fuel and trail.**

  `Reads g inToken goal c o` says that a goal, a pattern or further repetitions of one, has
  the outcome `o` at the place `c`.  There is one rule for each way in which `Grammar.run`
  comes to an outcome.  The relation is deterministic (`Reads.deterministic`), and `run`
  computes it whenever its fuel suffices (`reads_of_run`).
-/
import SafeExpr.Grammar.Pattern

namespace SafeExpr.Grammar

variable {R : Type}

/-! ### Without fuel -/

section NoFuel

variable (g : Grammar R) (b : Bool) (p : Pattern R) (c : Cursor) (t : Trail R)

theorem run_zero : g.run 0 b p c t = (.outOfFuel, t) := by rw [run]

theorem runAgain_zero (found : List (Tree R)) :
    g.runAgain 0 b p found c t = (.outOfFuel, t) := by rw [runAgain]

end NoFuel

/-! ### What is read -/

/-- What is to be read: a pattern, or a pattern any number of further times. -/
inductive Goal (R : Type) where
  | one (p : Pattern R)
  | more (p : Pattern R)

/-- The nodes that a rule leaves where it matches from `c` to `d`. -/
def leaves (g : Grammar R) (inToken : Bool) (r : R) (c d : Cursor) (trees : List (Tree R)) :
    List (Tree R) :=
  if inToken then []
  else if g.isToken r then [.leaf r ⟨c.pos, d.pos⟩ (c.upTo d)]
  else [.node r ⟨c.pos, d.pos⟩ trees]

open Outcome (matched failed)

inductive Reads (g : Grammar R) : Bool → Goal R → Cursor → Outcome R → Prop
  | text {b cs c d} (h : c.take? cs = some d) : Reads g b (.one (.text cs)) c (matched d [])
  | textFails {b cs c} (h : c.take? cs = none) : Reads g b (.one (.text cs)) c failed
  | char {b accepts c d} (h : c.char? accepts = some d) :
    Reads g b (.one (.char accepts)) c (matched d [])
  | charFails {b accepts c} (h : c.char? accepts = none) :
    Reads g b (.one (.char accepts)) c failed
  | endOfText {b c} (h : c.rest.isEmpty = true) : Reads g b (.one .endOfText) c (matched c [])
  | endOfTextFails {b c} (h : c.rest.isEmpty = false) : Reads g b (.one .endOfText) c failed
  | optional {b p c d ts} (h : Reads g b (.one p) c (matched d ts)) :
    Reads g b (.one (.optional p)) c (matched d ts)
  | optionalSkips {b p c} (h : Reads g b (.one p) c failed) :
    Reads g b (.one (.optional p)) c (matched c [])
  | unless {b p c} (h : Reads g b (.one p) c failed) :
    Reads g b (.one (.unless p)) c (matched c [])
  | unlessFails {b p c d ts} (h : Reads g b (.one p) c (matched d ts)) :
    Reads g b (.one (.unless p)) c failed
  | seq {b p q c d e ts us} (hp : Reads g b (.one p) c (matched d ts))
    (hq : Reads g b (.one q) (g.gap b d) (matched e us)) :
    Reads g b (.one (.seq p q)) c (matched e (ts ++ us))
  | seqFails {b p q c} (hp : Reads g b (.one p) c failed) : Reads g b (.one (.seq p q)) c failed
  | seqFailsLater {b p q c d ts} (hp : Reads g b (.one p) c (matched d ts))
    (hq : Reads g b (.one q) (g.gap b d) failed) : Reads g b (.one (.seq p q)) c failed
  | choice {b p q c d ts} (hp : Reads g b (.one p) c (matched d ts)) :
    Reads g b (.one (.choice p q)) c (matched d ts)
  | choiceLater {b p q c o} (hp : Reads g b (.one p) c failed) (hq : Reads g b (.one q) c o) :
    Reads g b (.one (.choice p q)) c o
  | many {b p c d e ts us} (hp : Reads g b (.one p) c (matched d ts))
    (hmore : Reads g b (.more p) d (matched e us)) :
    Reads g b (.one (.many p)) c (matched e (ts ++ us))
  | manySkips {b p c} (hp : Reads g b (.one p) c failed) :
    Reads g b (.one (.many p)) c (matched c [])
  | more {b p c d e ts us} (hp : Reads g b (.one p) (g.gap b c) (matched d ts))
    (hmore : Reads g b (.more p) d (matched e us)) :
    Reads g b (.more p) c (matched e (ts ++ us))
  | moreEnds {b p c} (hp : Reads g b (.one p) (g.gap b c) failed) :
    Reads g b (.more p) c (matched c [])
  | rule {b r c d ts} (h : Reads g (b || g.isToken r) (.one (g.pattern r)) c (matched d ts)) :
    Reads g b (.one (.rule r)) c (matched d (g.leaves b r c d ts))
  | ruleFails {b r c} (h : Reads g (b || g.isToken r) (.one (g.pattern r)) c failed) :
    Reads g b (.one (.rule r)) c failed

variable {g : Grammar R}

/-! ### One outcome -/

/-- **A goal has at most one outcome.** -/
theorem Reads.deterministic {b : Bool} {goal : Goal R} {c : Cursor} {o o' : Outcome R}
    (h : Reads g b goal c o) (h' : Reads g b goal c o') : o = o' := by
  induction h generalizing o' with
  | text h =>
    cases h' with
    | text h' =>
      rw [h] at h'
      cases h'
      rfl
    | textFails h' =>
      rw [h] at h'
      cases h'
  | textFails h =>
    cases h' with
    | text h' =>
      rw [h] at h'
      cases h'
    | textFails h' => rfl
  | char h =>
    cases h' with
    | char h' =>
      rw [h] at h'
      cases h'
      rfl
    | charFails h' =>
      rw [h] at h'
      cases h'
  | charFails h =>
    cases h' with
    | char h' =>
      rw [h] at h'
      cases h'
    | charFails h' => rfl
  | endOfText h =>
    cases h' with
    | endOfText h' => rfl
    | endOfTextFails h' =>
      rw [h] at h'
      cases h'
  | endOfTextFails h =>
    cases h' with
    | endOfText h' =>
      rw [h] at h'
      cases h'
    | endOfTextFails h' => rfl
  | optional hp ih | optionalSkips hp ih | «unless» hp ih | unlessFails hp ih
  | rule hp ih | ruleFails hp ih =>
    cases h' with
    | _ hp' => cases ih hp' <;> rfl
  | seq hp hq ihp ihq =>
    cases h' with
    | seq hp' hq' =>
      cases ihp hp'
      cases ihq hq'
      rfl
    | seqFails hp' => cases ihp hp'
    | seqFailsLater hp' hq' =>
      cases ihp hp'
      cases ihq hq'
  | seqFails hp ihp =>
    cases h' with
    | seq hp' hq' | seqFailsLater hp' hq' => cases ihp hp'
    | seqFails hp' => rfl
  | seqFailsLater hp hq ihp ihq =>
    cases h' with
    | seq hp' hq' =>
      cases ihp hp'
      cases ihq hq'
    | seqFails hp' | seqFailsLater hp' hq' => rfl
  | choice hp ihp =>
    cases h' with
    | choice hp' => exact ihp hp'
    | choiceLater hp' hq' => cases ihp hp'
  | choiceLater hp hq ihp ihq =>
    cases h' with
    | choice hp' => cases ihp hp'
    | choiceLater hp' hq' => exact ihq hq'
  | many hp hmore ihp ihmore =>
    cases h' with
    | many hp' hmore' =>
      cases ihp hp'
      cases ihmore hmore'
      rfl
    | manySkips hp' => cases ihp hp'
  | manySkips hp ihp =>
    cases h' with
    | many hp' hmore' => cases ihp hp'
    | manySkips hp' => rfl
  | more hp hmore ihp ihmore =>
    cases h' with
    | more hp' hmore' =>
      cases ihp hp'
      cases ihmore hmore'
      rfl
    | moreEnds hp' => cases ihp hp'
  | moreEnds hp ihp =>
    cases h' with
    | more hp' hmore' => cases ihp hp'
    | moreEnds hp' => rfl

/-- One part, the blanks behind it, and the other part. -/
theorem Reads.andThen {b : Bool} {p q : Pattern R} {c d d' e : Cursor} {ts us : List (Tree R)}
    (hp : Reads g b (.one p) c (matched d ts)) (hgap : g.gap b d = d')
    (hq : Reads g b (.one q) d' (matched e us)) :
    Reads g b (.one (p ++ q)) c (matched e (ts ++ us)) := .seq hp (hgap ▸ hq)

theorem Reads.andThenFails {b : Bool} {p q : Pattern R} {c d d' : Cursor} {ts : List (Tree R)}
    (hp : Reads g b (.one p) c (matched d ts)) (hgap : g.gap b d = d')
    (hq : Reads g b (.one q) d' failed) : Reads g b (.one (p ++ q)) c failed :=
  .seqFailsLater hp (hgap ▸ hq)

theorem Reads.of_unless {b : Bool} {p : Pattern R} {c d : Cursor} {ts : List (Tree R)}
    (h : Reads g b (.one (.unless p)) c (matched d ts)) :
    d = c ∧ ts = [] ∧ Reads g b (.one p) c failed := by
  cases h with
  | «unless» h => exact ⟨rfl, rfl, h⟩

theorem Reads.of_rule {b : Bool} {r : R} {c d : Cursor} {us : List (Tree R)}
    (h : Reads g b (.one (.rule r)) c (matched d us)) :
    ∃ ts, us = g.leaves b r c d ts ∧
      Reads g (b || g.isToken r) (.one (g.pattern r)) c (matched d ts) := by
  generalize ho : matched d us = o at h
  cases h with
  | rule h =>
    cases ho
    exact ⟨_, rfl, h⟩
  | ruleFails => cases ho

/-- Without blanks in front, the first time is like every other. -/
theorem many_of_more {b : Bool} {p : Pattern R} {c d : Cursor} {ts : List (Tree R)}
    (hgap : g.gap b c = c) (h : Reads g b (.more p) c (matched d ts)) :
    Reads g b (.one (.many p)) c (matched d ts) := by
  cases h with
  | more hp hmore => exact .many (hgap ▸ hp) hmore
  | moreEnds hp => exact .manySkips (hgap ▸ hp)

/-- Inside of a token no nodes are left. -/
theorem trees_eq_nil_of_reads {goal : Goal R} {c : Cursor} {o : Outcome R} {b : Bool}
    (h : Reads g b goal c o) : ∀ d ts, o = matched d ts → b = true → ts = [] := by
  induction h with
  | textFails | charFails | endOfTextFails | seqFails | seqFailsLater | ruleFails
  | unlessFails =>
    intro d ts ho
    cases ho
  | text | char | endOfText | optionalSkips | «unless» | manySkips | moreEnds =>
    rintro d ts ⟨⟩ -
    rfl
  | optional _ ih | choice _ ih | choiceLater _ _ _ ih => exact ih
  | seq _ _ ihp ihq | many _ _ ihp ihq | more _ _ ihp ihq =>
    rintro d ts ⟨⟩ hb
    rw [ihp _ _ rfl hb, ihq _ _ rfl hb, List.nil_append]
  | rule =>
    rintro d ts ⟨⟩ rfl
    rfl

/-! ### Runs with fuel -/

/-- Every run with this fuel that comes to an outcome reads it. -/
def RunsRead (g : Grammar R) (fuel : Nat) : Prop :=
  ∀ b p c t o t', g.run fuel b p c t = (o, t') → o ≠ .outOfFuel → Reads g b (.one p) c o

/-- The same for further repetitions, which put what they find behind what was found. -/
def RunsReadMore (g : Grammar R) (fuel : Nat) : Prop :=
  ∀ b p found c t o t', g.runAgain fuel b p found c t = (o, t') → o ≠ .outOfFuel →
    ∃ e us, o = matched e (found.reverse ++ us) ∧ Reads g b (.more p) c (matched e us)

section Step

variable {fuel : Nat} {b : Bool} {p q : Pattern R} {c : Cursor} {t t' : Trail R}
  {o : Outcome R} (ih : RunsRead g fuel)
include ih

theorem RunsRead.seq (h : g.run (fuel + 1) b (.seq p q) c t = (o, t')) (ho : o ≠ .outOfFuel) :
    Reads g b (.one (.seq p q)) c o := by
  simp only [run] at h
  rcases hp : g.run fuel b p c t with ⟨op, tp⟩
  rw [hp] at h
  cases op with
  | matched d ts =>
    have hfirst := ih b p c t _ _ hp nofun
    dsimp only at h
    rcases hq : g.run fuel b q (g.gap b d) tp with ⟨oq, tq⟩
    rw [hq] at h
    cases oq with
    | matched e us =>
      cases h
      exact .seq hfirst (ih b q _ tp _ _ hq nofun)
    | failed =>
      cases h
      exact .seqFailsLater hfirst (ih b q _ tp _ _ hq nofun)
    | outOfFuel =>
      cases h
      exact absurd rfl ho
  | failed =>
    cases h
    exact .seqFails (ih b p c t _ _ hp nofun)
  | outOfFuel =>
    cases h
    exact absurd rfl ho

theorem RunsRead.choice (h : g.run (fuel + 1) b (.choice p q) c t = (o, t'))
    (ho : o ≠ .outOfFuel) : Reads g b (.one (.choice p q)) c o := by
  simp only [run] at h
  rcases hp : g.run fuel b p c t with ⟨op, tp⟩
  rw [hp] at h
  cases op with
  | matched d ts =>
    cases h
    exact .choice (ih b p c t _ _ hp nofun)
  | failed => exact .choiceLater (ih b p c t _ _ hp nofun) (ih b q c tp o t' h ho)
  | outOfFuel =>
    cases h
    exact absurd rfl ho

theorem RunsRead.optional (h : g.run (fuel + 1) b (.optional p) c t = (o, t'))
    (ho : o ≠ .outOfFuel) : Reads g b (.one (.optional p)) c o := by
  simp only [run] at h
  rcases hp : g.run fuel b p c t with ⟨op, tp⟩
  rw [hp] at h
  cases op with
  | matched d ts =>
    cases h
    exact .optional (ih b p c t _ _ hp nofun)
  | failed =>
    cases h
    exact .optionalSkips (ih b p c t _ _ hp nofun)
  | outOfFuel =>
    cases h
    exact absurd rfl ho

theorem RunsRead.unless (h : g.run (fuel + 1) b (.unless p) c t = (o, t'))
    (ho : o ≠ .outOfFuel) : Reads g b (.one (.unless p)) c o := by
  simp only [run] at h
  rcases hp : g.run fuel b p c t with ⟨op, tp⟩
  rw [hp] at h
  cases op with
  | matched d ts =>
    cases h
    exact .unlessFails (ih b p c t _ _ hp nofun)
  | failed =>
    cases h
    exact .unless (ih b p c t _ _ hp nofun)
  | outOfFuel =>
    cases h
    exact absurd rfl ho

theorem RunsRead.many (ihMore : RunsReadMore g fuel)
    (h : g.run (fuel + 1) b (.many p) c t = (o, t')) (ho : o ≠ .outOfFuel) :
    Reads g b (.one (.many p)) c o := by
  simp only [run] at h
  rcases hp : g.run fuel b p c t with ⟨op, tp⟩
  rw [hp] at h
  cases op with
  | matched d ts =>
    obtain ⟨e, us, rfl, hmore⟩ := ihMore b p _ d tp o t' h ho
    rw [List.reverse_reverse]
    exact .many (ih b p c t _ _ hp nofun) hmore
  | failed =>
    cases h
    exact .manySkips (ih b p c t _ _ hp nofun)
  | outOfFuel =>
    cases h
    exact absurd rfl ho

theorem RunsRead.rule {r : R} (h : g.run (fuel + 1) b (.rule r) c t = (o, t'))
    (ho : o ≠ .outOfFuel) : Reads g b (.one (.rule r)) c o := by
  simp only [run] at h
  rcases hp : g.run fuel (b || g.isToken r) (g.pattern r) c t with ⟨op, tp⟩
  rw [hp] at h
  cases op with
  | matched d ts =>
    have hrule : Reads g b (.one (.rule r)) c (matched d (g.leaves b r c d ts)) :=
      .rule (ih _ _ c t _ _ hp nofun)
    unfold leaves at hrule
    dsimp only at h
    split at h
    · next hb =>
      cases h
      rwa [if_pos hb] at hrule
    · next hb =>
      rw [if_neg hb] at hrule
      split at h
      · next htoken =>
        cases h
        rwa [if_pos htoken] at hrule
      · next htoken =>
        cases h
        rwa [if_neg htoken] at hrule
  | failed =>
    cases h
    exact .ruleFails (ih _ _ c t _ _ hp nofun)
  | outOfFuel =>
    cases h
    exact absurd rfl ho

theorem RunsRead.more (ihMore : RunsReadMore g fuel) {found : List (Tree R)}
    (h : g.runAgain (fuel + 1) b p found c t = (o, t')) (ho : o ≠ .outOfFuel) :
    ∃ e us, o = matched e (found.reverse ++ us) ∧ Reads g b (.more p) c (matched e us) := by
  simp only [runAgain] at h
  rcases hp : g.run fuel b p (g.gap b c) t with ⟨op, tp⟩
  rw [hp] at h
  cases op with
  | matched d ts =>
    obtain ⟨e, us, rfl, hmore⟩ := ihMore b p _ d tp o t' h ho
    refine ⟨e, ts ++ us, ?_, .more (ih b p _ t _ _ hp nofun) hmore⟩
    rw [List.reverseAux_eq, List.reverse_append, List.reverse_reverse, List.append_assoc]
  | failed =>
    cases h
    exact ⟨c, [], by rw [List.append_nil], .moreEnds (ih b p _ t _ _ hp nofun)⟩
  | outOfFuel =>
    cases h
    exact absurd rfl ho

end Step

theorem runsRead_succ {fuel : Nat} (ih : RunsRead g fuel) (ihMore : RunsReadMore g fuel) :
    RunsRead g (fuel + 1) := by
  intro b p c t o t' h ho
  cases p with
  | text cs =>
    simp only [run] at h
    split at h
    · next d hd =>
      cases h
      exact .text hd
    · next hd =>
      cases h
      exact .textFails hd
  | char accepts =>
    simp only [run] at h
    split at h
    · next d hd =>
      cases h
      exact .char hd
    · next hd =>
      cases h
      exact .charFails hd
  | endOfText =>
    simp only [run] at h
    split at h
    · next hend =>
      cases h
      exact .endOfText hend
    · next hend =>
      cases h
      exact .endOfTextFails (Bool.not_eq_true _ ▸ hend)
  | rule r => exact ih.rule h ho
  | seq p q => exact ih.seq h ho
  | choice p q => exact ih.choice h ho
  | optional p => exact ih.optional h ho
  | many p => exact ih.many ihMore h ho
  | «unless» p => exact ih.unless h ho

theorem runsRead_all (g : Grammar R) (fuel : Nat) : RunsRead g fuel ∧ RunsReadMore g fuel := by
  induction fuel with
  | zero =>
    constructor
    · intro b p c t o t' h ho
      cases (run_zero g b p c t).symm.trans h
      exact absurd rfl ho
    · intro b p found c t o t' h ho
      cases (runAgain_zero g b p c t found).symm.trans h
      exact absurd rfl ho
  | succ fuel ih =>
    obtain ⟨ih, ihMore⟩ := ih
    exact ⟨runsRead_succ ih ihMore, fun b p found c t o t' h ho => ih.more ihMore h ho⟩

/-- **A run that comes to an outcome reads it.** -/
theorem reads_of_run {fuel : Nat} {b : Bool} {p : Pattern R} {c : Cursor} {t : Trail R}
    (h : (g.run fuel b p c t).1 ≠ .outOfFuel) :
    Reads g b (.one p) c (g.run fuel b p c t).1 :=
  (runsRead_all g fuel).1 b p c t _ _ rfl h

end SafeExpr.Grammar
