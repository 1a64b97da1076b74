/-
  SafeExpr/Proofs/Grammar/Eats.lean
  =================================
  **Reading a text part by part.**

  `Eats p cs rest Q` says that the pattern `p`, wherever the text `cs` stands, reads it up to
  `rest`, and leaves nodes that satisfy `Q`.  Blanks in front of `rest` count as read: where
  one part stops, the next one begins, and readings are put together as the patterns are.
  `Fails p cs` says that `p` cannot be read there.
-/
import Mathlib.Data.List.Forall2
import SafeExpr.Proofs.Grammar.Operand
import SafeExpr.Proofs.Grammar.Word

namespace SafeExpr.Grammar

open Outcome (matched failed)
open Pattern (lit oneOf)

/-! ### Blanks -/

/-- Nothing is skipped in front of the text. -/
def Solid (cs : List Char) : Prop := ∀ pos, skipLayout pos cs = ⟨pos, cs⟩

theorem solid_nil : Solid [] := fun pos => by simp [skipLayout]

theorem solid_of_begins {as : List Ahead} {cs : List Char} (h : Begins as cs)
    (hsolid : as.all solid = true) : Solid cs :=
  fun pos => skipBlanks_of_solid (c := ⟨pos, cs⟩) h hsolid

theorem solid_cons {c : Char} (h : solid ⟨[c], false⟩ = true) (cs : List Char) :
    Solid (c :: cs) :=
  solid_of_begins (begins_cons (List.mem_singleton_self _) cs) (by simp [h])

theorem Solid.gap_eq {cs : List Char} (h : Solid cs) (b : Bool) (pos : Nat) :
    expression.gap b ⟨pos, cs⟩ = ⟨pos, cs⟩ := by
  unfold gap
  split
  · rfl
  · exact h pos

/-- Behind blanks, the text `rest` goes on with `more`. -/
structure Skips (rest more : List Char) : Prop where
  solid : Solid more
  skip (pos : Nat) : ∃ pos', skipLayout pos rest = ⟨pos', more⟩

theorem Solid.skips {cs : List Char} (h : Solid cs) : Skips cs cs := ⟨h, fun pos => ⟨pos, h pos⟩⟩

theorem Skips.blank {rest more : List Char} (h : Skips rest more) : Skips (' ' :: rest) more where
  solid := h.solid
  skip pos := by
    unfold skipLayout
    exact h.skip (pos + 1)

/-! ### What nodes are left -/

def Nothing (ts : List (Tree Rule)) : Prop := ts = []

/-- The nodes of two parts. -/
def Both (P Q : List (Tree Rule) → Prop) (ts : List (Tree Rule)) : Prop :=
  ∃ us vs, ts = us ++ vs ∧ P us ∧ Q vs

def Single (P : Tree Rule → Prop) (ts : List (Tree Rule)) : Prop := ∃ t, ts = [t] ∧ P t

/-- A node of the rule, with such children. -/
def IsNode (r : Rule) (Q : List (Tree Rule) → Prop) (t : Tree Rule) : Prop :=
  ∃ span us, t = .node r span us ∧ Q us

/-- A token of the rule, with this text. -/
def IsToken (r : Rule) (cs : List Char) (t : Tree Rule) : Prop := ∃ span, t = .leaf r span cs

section Nodes

variable {P Q P' : List (Tree Rule) → Prop} {ts : List (Tree Rule)}

theorem both_nothing_left : Both Nothing Q ts ↔ Q ts := by
  constructor
  · rintro ⟨_, vs, rfl, rfl, hvs⟩
    exact hvs
  · intro h
    exact ⟨[], ts, rfl, rfl, h⟩

theorem both_nothing_right : Both P Nothing ts ↔ P ts := by
  constructor
  · rintro ⟨us, _, rfl, hus, rfl⟩
    rwa [List.append_nil]
  · intro h
    exact ⟨ts, [], (List.append_nil ts).symm, h, rfl⟩

end Nodes

/-! ### Reading and failing -/

def Fails (p : Pattern Rule) (cs : List Char) : Prop :=
  ∀ pos, Reads expression false (.one p) ⟨pos, cs⟩ failed

structure Eats (p : Pattern Rule) (cs rest : List Char) (Q : List (Tree Rule) → Prop) :
    Prop where
  solid : Solid rest
  reads (pos : Nat) : ∃ d ts pos', Reads expression false (.one p) ⟨pos, cs⟩ (matched d ts) ∧
    expression.gap false d = ⟨pos', rest⟩ ∧ Q ts

/-- The same for further repetitions, from any place behind which the text goes on. -/
structure EatsMore (p : Pattern Rule) (cs rest : List Char) (Q : List (Tree Rule) → Prop) :
    Prop where
  solid : Solid rest
  reads {c : Cursor} {pos : Nat} (hc : expression.gap false c = ⟨pos, cs⟩) :
    ∃ d ts pos', Reads expression false (.more p) c (matched d ts) ∧
      expression.gap false d = ⟨pos', rest⟩ ∧ Q ts

section Combine

variable {p q : Pattern Rule} {cs mid rest : List Char} {P Q : List (Tree Rule) → Prop}

theorem Eats.imp (h : Eats p cs rest P) (himp : ∀ ts, P ts → Q ts) : Eats p cs rest Q where
  solid := h.solid
  reads pos := by
    obtain ⟨d, ts, pos', hread, hgap, hts⟩ := h.reads pos
    exact ⟨d, ts, pos', hread, hgap, himp ts hts⟩

theorem EatsMore.imp (h : EatsMore p cs rest P) (himp : ∀ ts, P ts → Q ts) :
    EatsMore p cs rest Q where
  solid := h.solid
  reads hc := by
    obtain ⟨d, ts, pos', hread, hgap, hts⟩ := h.reads hc
    exact ⟨d, ts, pos', hread, hgap, himp ts hts⟩

theorem Eats.seq (hp : Eats p cs mid P) (hq : Eats q mid rest Q) :
    Eats (p ++ q) cs rest (Both P Q) where
  solid := hq.solid
  reads pos := by
    obtain ⟨d, ts, pos₁, hread, hgap, hts⟩ := hp.reads pos
    obtain ⟨e, us, pos', hread', hgap', hus⟩ := hq.reads pos₁
    exact ⟨e, ts ++ us, pos', hread.andThen hgap hread', hgap', ts, us, rfl, hts, hus⟩

/-- A part that leaves no node, and another one. -/
theorem Eats.skipSeq (hp : Eats p cs mid Nothing) (hq : Eats q mid rest Q) :
    Eats (p ++ q) cs rest Q := (hp.seq hq).imp fun _ => both_nothing_left.mp

/-- A part, and another one that leaves no node. -/
theorem Eats.seqSkip (hp : Eats p cs mid P) (hq : Eats q mid rest Nothing) :
    Eats (p ++ q) cs rest P := (hp.seq hq).imp fun _ => both_nothing_right.mp

theorem Eats.choice (h : Eats p cs rest Q) : Eats (p ||| q) cs rest Q where
  solid := h.solid
  reads pos := by
    obtain ⟨d, ts, pos', hread, hgap, hts⟩ := h.reads pos
    exact ⟨d, ts, pos', .choice hread, hgap, hts⟩

theorem Eats.choiceLater (hp : Fails p cs) (h : Eats q cs rest Q) :
    Eats (p ||| q) cs rest Q where
  solid := h.solid
  reads pos := by
    obtain ⟨d, ts, pos', hread, hgap, hts⟩ := h.reads pos
    exact ⟨d, ts, pos', .choiceLater (hp pos) hread, hgap, hts⟩

theorem Eats.optional (h : Eats p cs rest Q) : Eats (.optional p) cs rest Q where
  solid := h.solid
  reads pos := by
    obtain ⟨d, ts, pos', hread, hgap, hts⟩ := h.reads pos
    exact ⟨d, ts, pos', .optional hread, hgap, hts⟩

theorem Fails.optional (h : Fails p cs) (hcs : Solid cs) : Eats (.optional p) cs cs Nothing where
  solid := hcs
  reads pos := ⟨_, [], pos, .optionalSkips (h pos), hcs.gap_eq false pos, rfl⟩

theorem Fails.unless (h : Fails p cs) (hcs : Solid cs) : Eats (.unless p) cs cs Nothing where
  solid := hcs
  reads pos := ⟨_, [], pos, .unless (h pos), hcs.gap_eq false pos, rfl⟩

theorem Fails.more (h : Fails p cs) (hcs : Solid cs) : EatsMore p cs cs Nothing where
  solid := hcs
  reads {c pos} hc := ⟨c, [], pos, .moreEnds (hc ▸ h pos), hc, rfl⟩

theorem EatsMore.cons (h : Eats p cs mid P) (hmore : EatsMore p mid rest Q) :
    EatsMore p cs rest (Both P Q) where
  solid := hmore.solid
  reads {c pos} hc := by
    obtain ⟨d, ts, pos₁, hread, hgap, hts⟩ := h.reads pos
    obtain ⟨e, us, pos', hread', hgap', hus⟩ := hmore.reads hgap
    exact ⟨e, ts ++ us, pos', .more (hc ▸ hread) hread', hgap', ts, us, rfl, hts, hus⟩

theorem EatsMore.many (h : EatsMore p cs rest Q) (hcs : Solid cs) : Eats (.many p) cs rest Q where
  solid := h.solid
  reads pos := by
    have hgap := hcs.gap_eq false pos
    obtain ⟨d, ts, pos', hread, hgap', hts⟩ := h.reads hgap
    exact ⟨d, ts, pos', many_of_more hgap hread, hgap', hts⟩

theorem Fails.many (h : Fails p cs) (hcs : Solid cs) : Eats (.many p) cs cs Nothing :=
  (h.more hcs).many hcs

/-- One time or more. -/
theorem Eats.some (h : Eats p cs mid P) (hmore : EatsMore p mid rest Q) (hmid : Solid mid) :
    Eats (Pattern.some p) cs rest (Both P Q) := h.seq (hmore.many hmid)

theorem Eats.rule (r : Rule) (hr : isSolid r = false) (h : Eats (rulePattern r) cs rest Q) :
    Eats (.rule r) cs rest (Single (IsNode r Q)) where
  solid := h.solid
  reads pos := by
    obtain ⟨d, ts, pos', hread, hgap, hts⟩ := h.reads pos
    have htoken : expression.isToken r = false := hr
    have hrule := Reads.rule (g := expression) (b := false) (r := r)
      (by rw [htoken]; exact hread)
    refine ⟨d, _, pos', hrule, hgap, .node r ⟨pos, d.pos⟩ ts, ?_, _, ts, rfl, hts⟩
    simp [leaves, htoken]

/-- A token, and the blanks behind it. -/
theorem Takes.eats {r : Rule} {behind : List Char} (h : Takes (rulePattern r) cs behind)
    (hr : isSolid r = true) (hskip : Skips behind rest) :
    Eats (.rule r) (cs ++ behind) rest (Single (IsToken r cs)) where
  solid := hskip.solid
  reads pos := by
    obtain ⟨pos', hpos'⟩ := hskip.skip (pos + byteLength cs)
    exact ⟨_, _, pos', h.leaf hr pos, hpos', _, rfl, _, rfl⟩

theorem eats_text {behind : List Char} (h : Skips behind rest) :
    Eats (.text cs) (cs ++ behind) rest Nothing where
  solid := h.solid
  reads pos := by
    obtain ⟨pos', hpos'⟩ := h.skip (pos + byteLength cs)
    exact ⟨_, [], pos', .text (take?_append pos cs behind), hpos', rfl⟩

theorem eats_mark (c : Char) {behind : List Char} (h : Skips behind rest) :
    Eats (.text [c]) (c :: behind) rest Nothing := by
  have htext : Eats (.text [c]) ([c] ++ behind) rest Nothing := eats_text h
  exact htext

/-! ### Failing -/

theorem Fails.seq (h : Fails p cs) : Fails (p ++ q) cs := fun pos => .seqFails (h pos)

theorem Eats.fails (h : Eats p cs mid P) (hq : Fails q mid) : Fails (p ++ q) cs := by
  intro pos
  obtain ⟨d, ts, pos', hread, hgap, -⟩ := h.reads pos
  exact hread.andThenFails hgap (hq pos')

theorem Fails.choice (hp : Fails p cs) (hq : Fails q cs) : Fails (p ||| q) cs :=
  fun pos => .choiceLater (hp pos) (hq pos)

theorem Fails.rule {r : Rule} (h : Fails (rulePattern r) cs) (hr : isSolid r = false) :
    Fails (.rule r) cs := by
  intro pos
  have htoken : expression.isToken r = false := hr
  refine .ruleFails ?_
  rw [htoken]
  exact h pos

theorem fails_text {text : List Char} (h : ¬ text <+: cs) : Fails (.text text) cs :=
  fun pos => .textFails (take?_eq_none h pos)

/-- The first character rules the pattern out. -/
theorem fails_of_begins {as : List Ahead} (hcs : Begins as cs) (hsolid : as.all solid = true)
    (h : expression.decides as p .fails = true) : Fails p cs :=
  fun _ => reads_failed_of_decides h hcs (skipBlanks_of_solid hcs hsolid)

theorem fails_at {c : Char} (hsolid : solid ⟨[c], false⟩ = true)
    (h : expression.decides [⟨[c], false⟩] p .fails = true) (cs : List Char) :
    Fails p (c :: cs) :=
  fails_of_begins (begins_cons (List.mem_singleton_self _) cs) (by simp [hsolid]) h

end Combine

/-! ### One of several rules -/

section Rules

variable {rules : List Rule} {r : Rule} {as : List Ahead} {cs rest : List Char}
  {Q : List (Tree Rule) → Prop}

theorem fails_oneOf (h : ∀ r ∈ rules, Fails (.rule r) cs) :
    Fails (oneOf (rules.map .rule)) cs := by
  induction rules with
  | nil =>
    intro pos
    refine .charFails ?_
    unfold Cursor.char?
    split <;> rfl
  | cons r rules ih =>
    obtain ⟨hr, hrules⟩ := List.forall_mem_cons.mp h
    cases rules with
    | nil => exact hr
    | cons r' rules => exact hr.choice (ih hrules)

/-- The first characters rule out all rules but the exceptions. -/
theorem fails_except (exceptions : List Rule) (hcs : Begins as cs) (hsolid : as.all solid = true)
    (hcheck : rules.all (fun q =>
      exceptions.contains q || expression.decides as (.rule q) .fails) = true)
    (hfail : ∀ q ∈ exceptions, Fails (.rule q) cs) : ∀ q ∈ rules, Fails (.rule q) cs := by
  intro q hq
  have hone := List.all_eq_true.mp hcheck q hq
  rw [Bool.or_eq_true] at hone
  rcases hone with hexception | hdecides
  · exact hfail q (by simpa using hexception)
  · exact fails_of_begins hcs hsolid hdecides

theorem fails_oneOf_except (exceptions : List Rule) (hcs : Begins as cs)
    (hsolid : as.all solid = true)
    (hcheck : rules.all (fun q =>
      exceptions.contains q || expression.decides as (.rule q) .fails) = true)
    (hfail : ∀ q ∈ exceptions, Fails (.rule q) cs) : Fails (oneOf (rules.map .rule)) cs :=
  fails_oneOf (fails_except exceptions hcs hsolid hcheck hfail)

theorem eats_oneOf (hr : r ∈ rules) (hfail : ∀ q ∈ rules.takeWhile (· ≠ r), Fails (.rule q) cs)
    (h : Eats (.rule r) cs rest Q) : Eats (oneOf (rules.map .rule)) cs rest Q where
  solid := h.solid
  reads pos := by
    obtain ⟨d, ts, pos', hread, hgap, hts⟩ := h.reads pos
    exact ⟨d, ts, pos', reads_oneOf hr (fun q hq => hfail q hq pos) hread, hgap, hts⟩

/-- A rule is read if the first characters, or what is shown of the exceptions, rule out those
    in front of it. -/
theorem eats_oneOf_except (exceptions : List Rule) (hr : r ∈ rules) (hcs : Begins as cs)
    (hsolid : as.all solid = true)
    (hcheck : (rules.takeWhile (· ≠ r)).all (fun q =>
      exceptions.contains q || expression.decides as (.rule q) .fails) = true)
    (hfail : ∀ q ∈ exceptions, Fails (.rule q) cs) (h : Eats (.rule r) cs rest Q) :
    Eats (oneOf (rules.map .rule)) cs rest Q :=
  eats_oneOf hr (fails_except exceptions hcs hsolid hcheck hfail) h

end Rules

end SafeExpr.Grammar
