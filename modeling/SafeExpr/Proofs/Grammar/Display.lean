/-
  SafeExpr/Proofs/Grammar/Display.lean
  ====================================
  **Reading displays: lists, tuples, dicts and sets.**

  The items of a display are read one after the other, each in front of a comma or of the
  closing bracket.  What is shown of every item (`Yields`) is shown of the whole display:
  `yields_list`, `yields_tuple`, `yields_dict` and `yields_set`.
-/
import Mathlib.Data.List.Forall2
import SafeExpr.Proofs.Grammar.Operand
import SafeExpr.Proofs.Value.Spelling

namespace SafeExpr.Grammar

open Outcome (matched failed)
open Pattern (lit)

/-! ### Around items -/

/-- The closing brackets. -/
def closers : List Ahead := ["]", ")", "\x7d"].map .begin

/-- What may stand behind an item: a comma or a closing bracket. -/
def itemEnds : List Ahead := .begin "," :: closers

theorem ends_continued (texts : List (List Char)) {rest : List Char}
    (h : Begins closers rest) : Begins itemEnds (continued texts ++ rest) := by
  cases texts with
  | nil => exact h.mono (List.subset_cons_self _ _)
  | cons cs texts =>
    have hcomma : (⟨[','], false⟩ : Ahead) ∈ itemEnds := by decide
    exact begins_cons hcomma _

theorem follows_continued (texts : List (List Char)) {rest : List Char}
    (h : Begins closers rest) : Begins followers (continued texts ++ rest) :=
  (ends_continued texts h).mono (by decide)

/-- Between parts, nothing is skipped in front of a solid character. -/
theorem gap_of_solid {as : List Ahead} {cs : List Char} (h : Begins as cs)
    (hsolid : as.all solid = true) (b : Bool) (pos : Nat) :
    expression.gap b ⟨pos, cs⟩ = ⟨pos, cs⟩ := by
  unfold gap
  split
  · rfl
  · exact skipBlanks_of_solid h hsolid

/-- One blank is skipped in front of a value. -/
theorem gap_blank {cs : List Char} (h : Begins valueStarts cs) (pos : Nat) :
    expression.gap false ⟨pos, ' ' :: cs⟩ = ⟨pos + 1, cs⟩ :=
  gap_of_solid h (by decide) false (pos + 1)

/-- A comma, a colon or a bracket. -/
theorem reads_mark (c : Char) (pos : Nat) (cs : List Char) :
    Reads expression false (.one (.text [c])) ⟨pos, c :: cs⟩
      (matched ⟨pos + byteLength [c], cs⟩ []) :=
  .text (take?_append pos [c] cs)

/-! ### Several items -/

section Items

variable {α : Type} {p : Pattern Rule} {text : α → List Char} {P : α → Tree Rule → Prop}
  {rest : List Char}

/-- A comma, a blank and an item. -/
theorem reads_next {x : α} (hx : Yields p (text x) (P x)) (hrest : Begins followers rest)
    (pos : Nat) :
    ∃ pos' t, Reads expression false (.one (comma ++ p)) ⟨pos, ',' :: ' ' :: text x ++ rest⟩
      (matched ⟨pos', rest⟩ [t]) ∧ P x t := by
  obtain ⟨pos', t, ht, hP⟩ := hx.reads (pos + 2) hrest
  have hgap : expression.gap false ⟨pos + 1, ' ' :: (text x ++ rest)⟩ =
      ⟨pos + 2, text x ++ rest⟩ := gap_blank (hx.starts rest) (pos + 1)
  exact ⟨pos', t, (reads_mark ',' pos _).andThen hgap ht, hP⟩

theorem comma_fails (hrest : Begins closers rest) (pos : Nat) :
    Reads expression false (.one comma) ⟨pos, rest⟩ failed :=
  reads_failed_of_decides (by decide) hrest (skipBlanks_of_solid hrest (by decide))

theorem readsMore_items {xs : List α} (hxs : ∀ x ∈ xs, Yields p (text x) (P x))
    (hrest : Begins closers rest) (pos : Nat) :
    ∃ pos' ts, Reads expression false (.more (comma ++ p))
      ⟨pos, continued (xs.map text) ++ rest⟩ (matched ⟨pos', rest⟩ ts) ∧
        List.Forall₂ P xs ts := by
  induction xs generalizing pos with
  | nil =>
    have hcomma := comma_fails hrest pos
    rw [← gap_of_solid hrest (by decide) false pos] at hcomma
    exact ⟨pos, [], .moreEnds (.seqFails hcomma), .nil⟩
  | cons x xs ih =>
    obtain ⟨pos₁, t, ht, hP⟩ := reads_next (hxs x List.mem_cons_self)
      (follows_continued (xs.map text) hrest) pos
    obtain ⟨pos', ts, hts, hall⟩ := ih (fun y hy => hxs y (List.mem_cons_of_mem x hy)) pos₁
    have htext : continued ((x :: xs).map text) ++ rest =
        ',' :: ' ' :: text x ++ (continued (xs.map text) ++ rest) := by
      rw [← List.append_assoc]
      rfl
    rw [htext]
    exact ⟨pos', [t] ++ ts, .more ht hts, .cons hP hall⟩

theorem readsMany_items {xs : List α} (hxs : ∀ x ∈ xs, Yields p (text x) (P x))
    (hrest : Begins closers rest) (pos : Nat) :
    ∃ pos' ts, Reads expression false (.one (.many (comma ++ p)))
      ⟨pos, continued (xs.map text) ++ rest⟩ (matched ⟨pos', rest⟩ ts) ∧
        List.Forall₂ P xs ts := by
  obtain ⟨pos', ts, hts, hall⟩ := readsMore_items hxs hrest pos
  have hgap := gap_of_solid (follows_continued (xs.map text) hrest) (by decide) false
    pos
  exact ⟨pos', ts, many_of_more hgap hts, hall⟩

/-- The items of a display that may be empty. -/
theorem reads_commaList {xs : List α} (hxs : ∀ x ∈ xs, Yields p (text x) (P x))
    (hp : expression.decides closers p .fails = true) (hrest : Begins closers rest)
    (pos : Nat) :
    ∃ pos' ts, Reads expression false (.one (.commaList p))
      ⟨pos, separated (xs.map text) ++ rest⟩ (matched ⟨pos', rest⟩ ts) ∧
        List.Forall₂ P xs ts := by
  cases xs with
  | nil =>
    have hfail : Reads expression false (.one p) ⟨pos, rest⟩ failed :=
      reads_failed_of_decides hp hrest (skipBlanks_of_solid hrest (by decide))
    exact ⟨pos, [], .optionalSkips (.seqFails (.seqFails hfail)), .nil⟩
  | cons x xs =>
    have hfollows := follows_continued (xs.map text) hrest
    obtain ⟨pos₁, t, ht, hP⟩ := (hxs x List.mem_cons_self).reads pos hfollows
    obtain ⟨pos', ts, hts, hall⟩ :=
      readsMany_items (fun y hy => hxs y (List.mem_cons_of_mem x hy)) hrest pos₁
    have htext : separated ((x :: xs).map text) ++ rest =
        text x ++ (continued (xs.map text) ++ rest) := List.append_assoc _ _ _
    have hlast : Reads expression false (.one (.optional comma)) ⟨pos', rest⟩
        (matched ⟨pos', rest⟩ []) := .optionalSkips (comma_fails hrest pos')
    rw [htext]
    refine ⟨pos', [t] ++ ts ++ [], .optional ?_, ?_⟩
    · exact (ht.andThen (gap_of_solid hfollows (by decide) false pos₁) hts).andThen
        (gap_of_solid hrest (by decide) false pos') hlast
    · rw [List.append_nil]
      exact .cons hP hall

/-- An item is a value that is not unpacked. -/
theorem yields_item {cs : List Char} {Q : Tree Rule → Prop} (h : Yields expr cs Q) :
    Yields item cs Q where
  starts := h.starts
  reads pos rest hrest := by
    obtain ⟨pos', t, ht, hQ⟩ := h.reads pos hrest
    have hbegins := h.starts rest
    have hstarred : expression.decides valueStarts (.rule .starred) .fails = true := by
      decide
    have hfail : Reads expression false (.one (.rule .starred)) ⟨pos, cs ++ rest⟩ failed :=
      reads_failed_of_decides hstarred hbegins (skipBlanks_of_solid hbegins (by decide))
    exact ⟨pos', t, .choiceLater hfail ht, hQ⟩

/-- The text of items begins as a value does, or with the closing bracket. -/
theorem starts_separated {xs : List α} (hxs : ∀ x ∈ xs, Yields p (text x) (P x))
    (hrest : Begins closers rest) :
    Begins (closers ++ valueStarts) (separated (xs.map text) ++ rest) := by
  cases xs with
  | nil => exact hrest.mono (List.subset_append_left _ _)
  | cons x xs =>
    have hstarts := (hxs x List.mem_cons_self).starts (continued (xs.map text) ++ rest)
    rw [← List.append_assoc] at hstarts
    exact hstarts.mono (List.subset_append_right _ _)

end Items

/-! ### Brackets -/

/-- Items between two brackets. -/
theorem reads_enclosed {α : Type} {p : Pattern Rule} {text : α → List Char}
    {P : α → Tree Rule → Prop} {xs : List α} {o c : Char}
    (hxs : ∀ x ∈ xs, Yields p (text x) (P x)) (hp : expression.decides closers p .fails = true)
    (hc : ⟨[c], false⟩ ∈ closers) (pos : Nat) (rest : List Char) :
    ∃ pos' ts, Reads expression false (.one (.text [o] ++ .commaList p ++ .text [c]))
      ⟨pos, o :: (separated (xs.map text) ++ c :: rest)⟩ (matched ⟨pos', rest⟩ ts) ∧
        List.Forall₂ P xs ts := by
  have hrest : Begins closers (c :: rest) := begins_cons hc rest
  have hstarts := gap_of_solid (starts_separated hxs hrest) (by decide) false
  obtain ⟨pos₁, ts, hts, hall⟩ := reads_commaList hxs hp hrest (pos + byteLength [o])
  have hopened := (reads_mark o pos _).andThen (hstarts _) hts
  have hgap := gap_of_solid hrest (by decide) false pos₁
  have hwhole := hopened.andThen hgap (reads_mark c pos₁ rest)
  rw [List.nil_append, List.append_nil] at hwhole
  exact ⟨_, ts, hwhole, hall⟩

/-- The expression is a display of this rule, and its parts are as described. -/
def IsDisplay (r : Rule) (Q : List (Tree Rule) → Prop) (t : Tree Rule) : Prop :=
  ∃ span span' ts, t = .node .expression span [.node r span' ts] ∧ Q ts

theorem yields_display {r : Rule} {o c : Char} {body : List Char}
    {Q : List (Tree Rule) → Prop} (exceptions : List Rule) (hr : r ∈ operandRules)
    (htoken : isSolid r = false) (ho : ⟨[o], false⟩ ∈ operandStarts)
    (hsolid : solid ⟨[o], false⟩ = true)
    (hcheck : (operandRules.takeWhile (· ≠ r)).all (fun q =>
      exceptions.contains q || expression.decides [⟨[o], false⟩] (.rule q) .fails) = true)
    (hfail : ∀ q ∈ exceptions, ∀ pos rest,
      Reads expression false (.one (.rule q)) ⟨pos, o :: (body ++ c :: rest)⟩ failed)
    (hread : ∀ pos rest, ∃ pos' ts, Reads expression false (.one (rulePattern r))
      ⟨pos, o :: (body ++ c :: rest)⟩ (matched ⟨pos', rest⟩ ts) ∧ Q ts) :
    Yields expr (o :: body ++ [c]) (IsDisplay r Q) := by
  have htext : ∀ more, o :: body ++ [c] ++ more = o :: (body ++ c :: more) := by simp
  refine yields_operand (fun more => ?_) fun pos rest _ => ?_
  · exact begins_cons ho _
  · obtain ⟨pos', ts, hts, hQ⟩ := hread pos rest
    have hnode : Reads expression false (.one (.rule r)) ⟨pos, o :: (body ++ c :: rest)⟩
        (matched ⟨pos', rest⟩ [.node r ⟨pos, pos'⟩ ts]) := by
      have htoken' : expression.isToken r = false := htoken
      have hrule := Reads.rule (g := expression) (b := false) (r := r)
        (by rw [htoken']; exact hts)
      simpa [leaves, htoken'] using hrule
    rw [htext]
    exact ⟨pos', _, reads_operand exceptions hr (begins_cons (List.mem_singleton_self _) _)
      (by simp [hsolid]) hcheck (fun q hq => hfail q hq pos rest) hnode,
      fun span => ⟨span, _, ts, rfl, hQ⟩⟩

/-! ### The four displays -/

section Displays

variable {α : Type} {text : α → List Char} {P : α → Tree Rule → Prop} {xs : List α}

theorem yields_list (hxs : ∀ x ∈ xs, Yields expr (text x) (P x)) :
    Yields expr ('[' :: separated (xs.map text) ++ [']'])
      (IsDisplay .list (List.Forall₂ P xs)) := by
  have hitems : ∀ x ∈ xs, Yields item (text x) (P x) := fun x hx => yields_item (hxs x hx)
  exact yields_display [] (by decide) rfl (by decide) (by decide) (by decide) nofun
    (reads_enclosed hitems (by decide) (by decide))

theorem yields_dict (hxs : ∀ x ∈ xs, Yields (.rule .dictEntry) (text x) (P x)) :
    Yields expr ('\x7b' :: separated (xs.map text) ++ ['\x7d'])
      (IsDisplay .dict (List.Forall₂ P xs)) :=
  yields_display [] (by decide) rfl (by decide) (by decide) (by decide) nofun
    (reads_enclosed hxs (by decide) (by decide))

/-- The node of a key and a value. -/
def IsEntry (P Q : Tree Rule → Prop) (t : Tree Rule) : Prop :=
  ∃ span key value, t = .node .dictEntry span [key, value] ∧ P key ∧ Q value

theorem yields_dictEntry {ks vs : List Char} {P Q : Tree Rule → Prop}
    (hk : Yields expr ks P) (hv : Yields expr vs Q) :
    Yields (.rule .dictEntry) (ks ++ ':' :: ' ' :: vs) (IsEntry P Q) where
  starts more := by
    rw [List.append_assoc]
    exact hk.starts _
  reads pos rest hrest := by
    have hcolon : (⟨[':', ' '], false⟩ : Ahead) ∈ followers := by decide
    have hbehind : Begins followers (':' :: ' ' :: (vs ++ rest)) :=
      ⟨_, hcolon, vs ++ rest, rfl, nofun⟩
    obtain ⟨pos₁, key, hkey, hP⟩ := hk.reads pos hbehind
    obtain ⟨pos', value, hvalue, hQ⟩ := hv.reads (pos₁ + 2) hrest
    have hgap := gap_of_solid hbehind (by decide) false pos₁
    have hentry := (hkey.andThen hgap (reads_mark ':' pos₁ _)).andThen
      (gap_blank (hv.starts rest) (pos₁ + 1)) hvalue
    rw [List.append_assoc]
    exact ⟨pos', _, .rule (r := Rule.dictEntry) hentry, _, key, value, rfl, hP, hQ⟩

/-! ### Tuples -/

/-- The items behind the first comma. -/
theorem reads_behindComma (hxs : ∀ x ∈ xs, Yields item (text x) (P x)) {rest : List Char}
    (hrest : Begins closers rest) (pos : Nat) :
    ∃ c pos' ts, expression.gap false ⟨pos, behindComma (xs.map text) ++ rest⟩ = c ∧
      Reads expression false (.one (.commaList item)) c (matched ⟨pos', rest⟩ ts) ∧
        List.Forall₂ P xs ts := by
  cases xs with
  | nil =>
    obtain ⟨pos', ts, hts, hall⟩ := reads_commaList hxs (by decide) hrest pos
    exact ⟨_, pos', ts, gap_of_solid hrest (by decide) false pos, hts, hall⟩
  | cons x xs =>
    obtain ⟨pos', ts, hts, hall⟩ := reads_commaList hxs (by decide) hrest (pos + 1)
    have hstarts := (hxs x List.mem_cons_self).starts (continued (xs.map text) ++ rest)
    rw [← List.append_assoc] at hstarts
    exact ⟨_, pos', ts, gap_blank hstarts pos, hts, hall⟩

section Parentheses

variable (hxs : ∀ x ∈ xs, Yields expr (text x) (P x)) (pos : Nat) (rest : List Char)
include hxs

/-- No expression alone stands between the parentheses. -/
theorem grouped_fails :
    Reads expression false (.one (.rule .grouped))
      ⟨pos, '(' :: (tupled (xs.map text) ++ ')' :: rest)⟩ failed := by
  cases xs with
  | nil =>
    have hrest : Begins closers (')' :: rest) := begins_cons (by decide) rest
    have hfail : Reads expression false (.one expr) ⟨pos + 1, ')' :: rest⟩ failed :=
      reads_failed_of_decides (by decide) hrest (skipBlanks_of_solid hrest (by decide))
    exact .ruleFails (.seqFails
      ((reads_mark '(' pos _).andThenFails (gap_of_solid hrest (by decide) false (pos + 1)) hfail))
  | cons x xs =>
    have hx := hxs x List.mem_cons_self
    have hcomma : Begins followers (',' :: (behindComma (xs.map text) ++ ')' :: rest)) :=
      begins_cons (by decide) _
    obtain ⟨pos₁, t, ht, -⟩ := hx.reads (pos + 1) hcomma
    have hgap := gap_of_solid (hx.starts (',' :: (behindComma (xs.map text) ++ ')' :: rest)))
      (by decide) false (pos + 1)
    have hfail : Reads expression false (.one (lit ")"))
        ⟨pos₁, ',' :: (behindComma (xs.map text) ++ ')' :: rest)⟩ failed := .textFails rfl
    rw [List.map_cons, tupled, List.append_assoc, List.cons_append]
    exact .ruleFails (((reads_mark '(' pos _).andThen hgap ht).andThenFails
      (gap_of_solid hcomma (by decide) false pos₁) hfail)

theorem reads_tuple :
    ∃ pos' ts, Reads expression false (.one (rulePattern .tuple))
      ⟨pos, '(' :: (tupled (xs.map text) ++ ')' :: rest)⟩ (matched ⟨pos', rest⟩ ts) ∧
        List.Forall₂ P xs ts := by
  have hrest : Begins closers (')' :: rest) := begins_cons (by decide) rest
  have hsolid := gap_of_solid hrest (by decide) false
  cases xs with
  | nil =>
    exact ⟨_, _, .choice ((reads_mark '(' pos _).andThen (hsolid (pos + 1)) (reads_mark ')' (pos + 1) rest)), .nil⟩
  | cons x xs =>
    have hitems : ∀ y ∈ x :: xs, Yields item (text y) (P y) := fun y hy => yields_item (hxs y hy)
    rw [List.forall_mem_cons] at hitems
    obtain ⟨hx, hlater⟩ := hitems
    have hcomma : Begins followers (',' :: (behindComma (xs.map text) ++ ')' :: rest)) :=
      begins_cons (by decide) _
    have hgap := gap_of_solid (hx.starts (',' :: (behindComma (xs.map text) ++ ')' :: rest)))
      (by decide) false (pos + 1)
    obtain ⟨pos₁, t, ht, hP⟩ := hx.reads (pos + 1) hcomma
    obtain ⟨c, pos₂, ts, hskip, hts, hall⟩ := reads_behindComma hlater hrest (pos₁ + 1)
    -- the empty tuple is tried first
    have hempty : Reads expression false (.one (lit "(" ++ lit ")"))
        ⟨pos, '(' :: (text x ++ ',' :: (behindComma (xs.map text) ++ ')' :: rest))⟩ failed := by
      have hfail : expression.decides valueStarts (lit ")") .fails = true := by decide
      exact (reads_mark '(' pos _).andThenFails hgap (reads_failed_of_decides hfail (hx.starts _)
        (skipBlanks_of_solid (hx.starts _) (by decide)))
    have hfirst := ((reads_mark '(' pos _).andThen hgap ht).andThen
      (gap_of_solid hcomma (by decide) false pos₁) (reads_mark ',' pos₁ _)
    have hwhole := (hfirst.andThen hskip hts).andThen (hsolid pos₂) (reads_mark ')' pos₂ rest)
    rw [List.append_nil, List.append_nil] at hwhole
    rw [List.map_cons, tupled, List.append_assoc, List.cons_append]
    exact ⟨_, _, .choiceLater hempty hwhole, .cons hP hall⟩

end Parentheses

theorem yields_tuple (hxs : ∀ x ∈ xs, Yields expr (text x) (P x)) :
    Yields expr ('(' :: tupled (xs.map text) ++ [')'])
      (IsDisplay .tuple (List.Forall₂ P xs)) := by
  refine yields_display [.grouped] (by decide) rfl (by decide) (by decide) (by decide) ?_
    (reads_tuple hxs)
  intro q hq
  rw [List.mem_singleton] at hq
  subst hq
  exact grouped_fails hxs

/-! ### Sets -/

/-- The first item of a set is no entry of a dict. -/
theorem dictEntry_fails {cs rest : List Char} {Q : Tree Rule → Prop} (h : Yields expr cs Q)
    (hrest : Begins itemEnds rest) (pos : Nat) :
    Reads expression false (.one (.rule .dictEntry)) ⟨pos, cs ++ rest⟩ failed := by
  obtain ⟨pos', t, ht, -⟩ := h.reads pos (hrest.mono (by decide))
  have hcolon : expression.decides itemEnds (lit ":") .fails = true := by decide
  have hskip : expression.skipBlanks ⟨pos', rest⟩ = ⟨pos', rest⟩ :=
    skipBlanks_of_solid hrest (by decide)
  exact .ruleFails (.seqFails (ht.andThenFails hskip (reads_failed_of_decides hcolon hrest hskip)))

section Braces

variable {x : α} (hx : Yields expr (text x) (P x)) {rest : List Char}
  (hrest : Begins itemEnds rest) (pos : Nat)
include hx hrest

theorem dict_fails :
    Reads expression false (.one (.rule .dict)) ⟨pos, '\x7b' :: (text x ++ rest)⟩ failed := by
  have hsolid : expression.skipBlanks ⟨pos + 1, text x ++ rest⟩ = ⟨pos + 1, text x ++ rest⟩ :=
    skipBlanks_of_solid (hx.starts rest) (by decide)
  have hentry := dictEntry_fails hx hrest (pos + 1)
  have hskip : Reads expression false (.one (.commaList (.rule .dictEntry)))
      ⟨pos + 1, text x ++ rest⟩ (matched ⟨pos + 1, text x ++ rest⟩ []) :=
    .optionalSkips (.seqFails (.seqFails hentry))
  have hbrace : expression.decides valueStarts (lit "\x7d") .fails = true := by decide
  have hopened := (reads_mark '\x7b' pos _).andThen hsolid hskip
  exact .ruleFails (hopened.andThenFails hsolid
    (reads_failed_of_decides hbrace (hx.starts rest) hsolid))

theorem dictComp_fails :
    Reads expression false (.one (.rule .dictComp)) ⟨pos, '\x7b' :: (text x ++ rest)⟩ failed := by
  have hsolid := gap_of_solid (hx.starts rest) (by decide) false (pos + 1)
  exact .ruleFails (.seqFails (.seqFails ((reads_mark '\x7b' pos _).andThenFails hsolid
    (dictEntry_fails hx hrest (pos + 1)))))

end Braces

theorem yields_set (hxs : ∀ x ∈ xs, Yields expr (text x) (P x)) (hne : xs ≠ []) :
    Yields expr ('\x7b' :: separated (xs.map text) ++ ['\x7d'])
      (IsDisplay .set (List.Forall₂ P xs)) := by
  cases xs with
  | nil => exact absurd rfl hne
  | cons x xs =>
    have hx := hxs x List.mem_cons_self
    have hlater : ∀ y ∈ xs, Yields item (text y) (P y) := fun y hy =>
      yields_item (hxs y (List.mem_cons_of_mem x hy))
    have hclose : ∀ rest, Begins closers ('\x7d' :: rest) := begins_cons (by decide)
    have hends := fun rest => ends_continued (xs.map text) (hclose rest)
    have htext : ∀ rest, separated ((x :: xs).map text) ++ '\x7d' :: rest =
        text x ++ (continued (xs.map text) ++ '\x7d' :: rest) := fun rest =>
      List.append_assoc _ _ _
    refine yields_display [.dict, .dictComp] (by decide) rfl (by decide) (by decide)
      (by decide) ?_ fun pos rest => ?_
    · intro q hq pos rest
      rw [htext]
      simp only [List.mem_cons, List.not_mem_nil, or_false] at hq
      rcases hq with rfl | rfl
      · exact dict_fails hx (hends rest) pos
      · exact dictComp_fails hx (hends rest) pos
    · have hsolid := gap_of_solid (hclose rest) (by decide) false
      obtain ⟨pos₁, t, ht, hP⟩ := (yields_item hx).reads (pos + 1)
        ((hends rest).mono (by decide))
      obtain ⟨pos₂, ts, hts, hall⟩ := readsMany_items hlater (hclose rest) pos₁
      have hcomma : Reads expression false (.one (.optional comma)) ⟨pos₂, '\x7d' :: rest⟩
          (matched ⟨pos₂, '\x7d' :: rest⟩ []) := .optionalSkips (comma_fails (hclose rest) pos₂)
      have hopened := (reads_mark '\x7b' pos _).andThen
        (gap_of_solid (hx.starts _) (by decide) false (pos + 1)) ht
      have hitems := hopened.andThen (gap_of_solid (hends rest) (by decide) false pos₁) hts
      have hwhole := (hitems.andThen (hsolid pos₂) hcomma).andThen (hsolid pos₂)
        (reads_mark '\x7d' pos₂ rest)
      rw [List.append_nil, List.append_nil] at hwhole
      rw [htext]
      exact ⟨_, _, hwhole, .cons hP hall⟩

end Displays

end SafeExpr.Grammar
