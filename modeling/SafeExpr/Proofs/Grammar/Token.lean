/-
  SafeExpr/Proofs/Grammar/Token.lean
  ==================================
  **Reading tokens.**

  `Takes p cs rest` says that within a token the pattern `p` takes exactly the characters
  `cs` in front of `rest`.  The words that occur in rendered values are read this way, each in
  front of what may follow a value (`followers`).
-/
import SafeExpr.Proofs.Grammar.Lookahead
import SafeExpr.Proofs.Grammar.Source

namespace SafeExpr.Grammar

open Outcome (matched failed)
open Pattern (lit)

/-! ### Cursors -/

theorem take?_append (pos : Nat) (cs rest : List Char) :
    Cursor.take? cs ⟨pos, cs ++ rest⟩ = some ⟨pos + byteLength cs, rest⟩ := by
  rw [Cursor.take?, if_pos (List.isPrefixOf_iff_prefix.mpr (List.prefix_append cs rest)),
    List.drop_left]

theorem char?_cons {accepts : Char → Bool} {c : Char} (h : accepts c = true) (pos : Nat)
    (rest : List Char) :
    Cursor.char? accepts ⟨pos, c :: rest⟩ = some ⟨pos + c.utf8Size, rest⟩ := by
  simp [Cursor.char?, h]

theorem upTo_append (pos : Nat) (cs rest : List Char) :
    Cursor.upTo ⟨pos, cs ++ rest⟩ ⟨pos + byteLength cs, rest⟩ = cs := by
  rw [Cursor.upTo, Nat.add_sub_cancel_left, takeBytes_byteLength]

/-! ### Within a token -/

def Takes (p : Pattern Rule) (cs rest : List Char) : Prop :=
  ∀ pos, Reads expression true (.one p) ⟨pos, cs ++ rest⟩
    (matched ⟨pos + byteLength cs, rest⟩ [])

/-- The same for further repetitions. -/
def TakesMore (p : Pattern Rule) (cs rest : List Char) : Prop :=
  ∀ pos, Reads expression true (.more p) ⟨pos, cs ++ rest⟩
    (matched ⟨pos + byteLength cs, rest⟩ [])

variable {p q : Pattern Rule} {cs ds rest : List Char}

theorem takes_text (cs rest : List Char) : Takes (.text cs) cs rest :=
  fun pos => .text (take?_append pos cs rest)

theorem takes_char {accepts : Char → Bool} {c : Char} (h : accepts c = true)
    (rest : List Char) : Takes (.char accepts) [c] rest := by
  intro pos
  have hread := char?_cons h pos rest
  simpa [byteLength] using Reads.char (g := expression) (b := true) hread

theorem takes_nothing (h : ∀ pos, Reads expression true (.one p) ⟨pos, rest⟩
    (matched ⟨pos, rest⟩ [])) : Takes p [] rest := h

theorem Takes.seq (hp : Takes p cs (ds ++ rest)) (hq : Takes q ds rest) :
    Takes (p ++ q) (cs ++ ds) rest := by
  intro pos
  rw [List.append_assoc, byteLength_append, ← Nat.add_assoc]
  exact .seq (hp pos) (hq (pos + byteLength cs))

theorem TakesMore.ends (h : ∀ pos, Reads expression true (.one p) ⟨pos, rest⟩ failed) :
    TakesMore p [] rest := fun pos => .moreEnds (h pos)

theorem TakesMore.piece (hp : Takes p cs (ds ++ rest)) (hmore : TakesMore p ds rest) :
    TakesMore p (cs ++ ds) rest := by
  intro pos
  rw [List.append_assoc, byteLength_append, ← Nat.add_assoc]
  exact .more (hp pos) (hmore (pos + byteLength cs))

theorem TakesMore.many (h : TakesMore p cs rest) : Takes (.many p) cs rest :=
  fun pos => many_of_more rfl (h pos)

/-- A token leaves one leaf with its text. -/
theorem Takes.leaf {r : Rule} (h : Takes (rulePattern r) cs rest) (hsolid : isSolid r = true)
    (pos : Nat) :
    Reads expression false (.one (.rule r)) ⟨pos, cs ++ rest⟩
      (matched ⟨pos + byteLength cs, rest⟩ [.leaf r ⟨pos, pos + byteLength cs⟩ cs]) := by
  have htoken : expression.isToken r = true := hsolid
  have hrule := Reads.rule (g := expression) (b := false) (r := r) (c := ⟨pos, cs ++ rest⟩)
    (by rw [htoken]; exact h pos)
  simpa [leaves, htoken, upTo_append] using hrule

/-! ### What follows a value -/

/-- The end of the text, a comma, a closing bracket, or the colon behind a key. -/
def followers : List Ahead :=
  .end :: [",", "]", ")", "\x7d", ": "].map .begin

/-- Is the text known to begin with neither a blank, a line continuation nor a comment? -/
def solid (a : Ahead) : Bool :=
  match a.known with
  | [] => a.ends
  | c :: _ => !" \t\r\n\\#".toList.contains c

theorem skipLayout_of_solid {a : Ahead} {cs : List Char} (ha : a.Of cs) (h : solid a = true)
    (pos : Nat) : skipLayout pos cs = ⟨pos, cs⟩ := by
  obtain ⟨more, rfl, hends⟩ := ha
  rcases a with ⟨known, ends⟩
  cases known with
  | nil =>
    rw [hends h]
    rfl
  | cons c known =>
    simp only [solid, Bool.not_eq_true'] at h
    unfold skipLayout
    split
    case h_8 => rfl
    all_goals
      next heq =>
        simp only [List.cons_append, List.cons.injEq] at heq
        rw [heq.1] at h
        exact absurd h (by decide)

theorem skipBlanks_of_solid {as : List Ahead} {c : Cursor} (h : Begins as c.rest)
    (hsolid : as.all solid = true) : expression.skipBlanks c = c := by
  obtain ⟨a, ha, hof⟩ := h
  exact skipLayout_of_solid hof (List.all_eq_true.mp hsolid a ha) c.pos

variable (hrest : Begins followers rest)
include hrest

theorem fails_at_followers (h : expression.decides followers p .fails = true) (b : Bool)
    (pos : Nat) : Reads expression b (.one p) ⟨pos, rest⟩ failed :=
  reads_failed_of_decides h hrest (skipBlanks_of_solid hrest (by decide))

theorem skips_at_followers (h : expression.decides followers p .skips = true) (b : Bool)
    (pos : Nat) : Reads expression b (.one p) ⟨pos, rest⟩ (matched ⟨pos, rest⟩ []) :=
  reads_skip_of_decides h hrest (skipBlanks_of_solid hrest (by decide))

/-! ### Words -/

/-- One of several words, and no more of a word behind it. -/
theorem takes_anyWord {words : List String}
    (h : ∀ rest, Takes (Pattern.oneOf (words.map lit)) cs rest) : Takes (anyWord words) cs rest := by
  have hend : Takes (.unless (.char isWordChar)) [] rest :=
    takes_nothing fun pos => skips_at_followers hrest (by decide) true pos
  have hword := (h ([] ++ rest)).seq hend
  rwa [List.append_nil] at hword

end SafeExpr.Grammar
