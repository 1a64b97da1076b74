/-
  SafeExpr/Proofs/Parse/Listed.lean
  =================================
  **Reading back displays and calls.**

  What stands between brackets is a list of parts, each in front of a comma or of the closing
  bracket.  The grammar tells the displays apart by trying one after the other, so for each of
  them the ones in front of it are shown to fail.
-/
import SafeExpr.Proofs.Parse.Grouped
import SafeExpr.Proofs.Syntax.Fits

namespace SafeExpr

open Grammar
open Pattern (lit commaList)

/-! ### Lists of parts -/

def closingChars : List Char := [')', ']', '\x7d']

/-- How a part between commas begins. -/
def itemStarts : List Ahead := ⟨['*'], false⟩ :: exprStarts

/-- The pattern reads the text as one node, wherever a whole expression may end. -/
structure Listed (p : Pattern Rule) (text : List Char) (P : Tree Rule → Prop) : Prop where
  starts {rest : List Char} (hrest : WordEnds rest) : Begins itemStarts (text ++ rest)
  reads {rest more : List Char} (hstops : Stops rest more) : Eats p (text ++ rest) more (Single P)

theorem stops_closing {c : Char} (hc : c ∈ closingChars) (rest : List Char) :
    Stops (c :: rest) (c :: rest) := stops_mark (List.mem_cons_of_mem _ hc) rest

theorem stops_continued (texts : List (List Char)) {c : Char} (hc : c ∈ closingChars)
    (rest : List Char) :
    Stops (continued texts ++ c :: rest) (continued texts ++ c :: rest) := by
  cases texts with
  | nil => exact stops_closing hc rest
  | cons cs texts => exact stops_mark (by simp) _

theorem fails_at_closing {p : Pattern Rule} {c : Char} (hc : c ∈ closingChars)
    (hp : expression.decides (closingChars.map fun c => ⟨[c], false⟩) p .fails = true)
    (rest : List Char) : Fails p (c :: rest) := by
  have hclosing : (⟨[c], false⟩ : Ahead) ∈ closingChars.map fun c => ⟨[c], false⟩ :=
    List.mem_map_of_mem hc
  exact fails_of_begins (begins_cons hclosing rest) (by decide) hp

theorem forall₂_cons {α : Type} {P : α → Tree Rule → Prop} {x : α} {xs : List α}
    {ts : List (Tree Rule)} (h : Both (Single (P x)) (List.Forall₂ P xs) ts) :
    List.Forall₂ P (x :: xs) ts := by
  obtain ⟨_, us, rfl, ⟨t, rfl, ht⟩, hus⟩ := h
  exact .cons ht hus

section Lists

variable {α : Type} {p : Pattern Rule} {text : α → List Char} {P : α → Tree Rule → Prop}
  {xs : List α} {c : Char} (hc : c ∈ closingChars) (rest : List Char)
include hc

theorem eatsMore_listed (h : ∀ x ∈ xs, Listed p (text x) (P x)) :
    EatsMore (comma ++ p) (continued (xs.map text) ++ c :: rest) (c :: rest)
      (List.Forall₂ P xs) := by
  induction xs with
  | nil =>
    have hcomma : Fails comma (c :: rest) := fails_at_closing hc (by decide) rest
    refine ((Fails.seq hcomma).more (stops_closing hc rest).skips.solid).imp ?_
    rintro _ rfl
    exact .nil
  | cons x xs ih =>
    obtain ⟨hx, hxs⟩ := List.forall_mem_cons.mp h
    have hstops := stops_continued (xs.map text) hc rest
    have hsolid := solid_of_begins (hx.starts hstops.cut.word) (by decide)
    have htext : continued ((x :: xs).map text) ++ c :: rest =
        ',' :: ' ' :: (text x ++ (continued (xs.map text) ++ c :: rest)) := by
      simp [continued]
    rw [htext]
    have hnext := (eats_mark ',' hsolid.skips.blank).skipSeq (hx.reads hstops)
    exact (EatsMore.cons hnext (ih hxs)).imp fun _ => forall₂_cons

/-- No comma stands in front of the closing bracket. -/
theorem eats_noComma : Eats (.optional comma) (c :: rest) (c :: rest) Nothing := by
  have hcomma : Fails comma (c :: rest) := fails_at_closing hc (by decide) rest
  exact hcomma.optional (stops_closing hc rest).skips.solid

theorem eats_commaList (h : ∀ x ∈ xs, Listed p (text x) (P x)) (hp : Fails p (c :: rest)) :
    Eats (commaList p) (separated (xs.map text) ++ c :: rest) (c :: rest)
      (List.Forall₂ P xs) := by
  cases xs with
  | nil =>
    have hnone : Fails (p ++ .many (lit "," ++ p) ++ .optional (lit ",")) (c :: rest) :=
      .seq (.seq hp)
    refine (hnone.optional (stops_closing hc rest).skips.solid).imp ?_
    rintro _ rfl
    exact .nil
  | cons x xs =>
    obtain ⟨hx, hxs⟩ := List.forall_mem_cons.mp h
    have hstops := stops_continued (xs.map text) hc rest
    have hmore := (eatsMore_listed hc rest hxs).many hstops.skips.solid
    rw [List.map_cons, separated, List.append_assoc]
    have hall := ((hx.reads hstops).seq hmore).imp fun _ => forall₂_cons
    exact (hall.seqSkip (eats_noComma hc rest)).optional

/-- The text of a list begins as a part does, or with the closing bracket. -/
theorem solid_separated (h : ∀ x ∈ xs, Listed p (text x) (P x)) :
    Solid (separated (xs.map text) ++ c :: rest) := by
  cases xs with
  | nil => exact (stops_closing hc rest).skips.solid
  | cons x xs =>
    rw [List.map_cons, separated, List.append_assoc]
    exact solid_of_begins
      ((h x List.mem_cons_self).starts (stops_continued _ hc rest).cut.word) (by decide)

/-- A list between brackets. -/
theorem eats_enclosed {more : List Char} (o : Char) (h : ∀ x ∈ xs, Listed p (text x) (P x))
    (hp : Fails p (c :: rest)) (hskip : Skips rest more) :
    Eats (.text [o] ++ commaList p ++ .text [c]) (o :: (separated (xs.map text) ++ c :: rest)) more
      (List.Forall₂ P xs) :=
  ((eats_mark o (solid_separated hc rest h).skips).skipSeq (eats_commaList hc rest h hp)).seqSkip
    (eats_mark c hskip)

end Lists

/-! ### Items -/

/-- The tree is legible, or is none that stands alone and its parts are legible. -/
def Readable (e : Expr) : Prop :=
  if e.isExpression then Legible e else ∀ c ∈ e.children, Legible c

theorem Readable.legible {e : Expr} (h : Readable e) (he : e.isExpression = true) : Legible e := by
  rwa [Readable, if_pos he] at h

/-- The node of an item: of an expression, or of an unpacked one. -/
def ItemMeans (e : Expr) (t : Tree Rule) : Prop :=
  Means e t ∨ ∃ s x span v, e = .starred s false x ∧ t = .node .starred span [v] ∧ Means x v

theorem Legible.listed {e : Expr} (h : Legible e) : Listed expr e.chars (Means e) where
  starts hrest := (h.opens hrest).begins.mono (List.subset_cons_self _ _)
  reads hstops := h.reads hstops

/-- A star or two in front of an expression. -/
theorem eats_starred {r : Rule} (stars : List Char) {x : Expr}
    (hpattern : rulePattern r = .text stars ++ expr) (hnode : isSolid r = false) (hx : Legible x)
    {rest more : List Char} (hstops : Stops rest more) :
    Eats (.rule r) (stars ++ (x.chars ++ rest)) more (Single (IsNode r (Single (Means x)))) := by
  refine Eats.rule r hnode ?_
  rw [hpattern]
  exact (eats_text (hx.opens hstops.cut.word).solid.skips).skipSeq (hx.reads hstops)

/-- What an unpacked expression is made of. -/
theorem Readable.of_starred {s : Span} {double : Bool} {x : Expr}
    (h : Readable (.starred s double x)) : Legible x :=
  h x (List.mem_singleton_self x)

theorem listed_item {e : Expr} (hitem : e.isItem = true) (h : Readable e) :
    Listed item e.chars (ItemMeans e) := by
  by_cases he : e.isExpression = true
  · have hlegible := h.legible he
    refine ⟨hlegible.listed.starts, fun {rest more} hstops => ?_⟩
    have hstarred : Fails (.rule .starred) (e.chars ++ rest) :=
      (hlegible.opens hstops.cut.word).fails (by decide)
    refine (Eats.choiceLater hstarred (hlegible.reads hstops)).imp ?_
    rintro _ ⟨t, rfl, ht⟩
    exact ⟨t, rfl, Or.inl ht⟩
  · cases e with
    | starred s double x =>
      have hdouble : double = false := by simpa [Expr.isItem] using hitem
      subst hdouble
      have hx := h.of_starred
      have hchars : (Expr.starred s false x).chars = '*' :: x.chars := rfl
      rw [hchars]
      refine ⟨fun _ => begins_cons List.mem_cons_self _, fun {rest more} hstops => ?_⟩
      refine (Eats.choice (eats_starred ['*'] rfl rfl hx hstops)).imp ?_
      rintro _ ⟨_, rfl, span, _, rfl, v, rfl, hv⟩
      exact ⟨_, rfl, Or.inr ⟨s, x, span, v, rfl, rfl, hv⟩⟩
    | slice | assign | statement => cases hitem
    | _ => exact absurd rfl he

/-- Whether an expression is read there, up to the end of the part, or none at all. -/
theorem expr_eats_or_fails {e : Expr} (harg : e.isArgument = true) (h : Readable e)
    {rest more : List Char} (hstops : Stops rest more) :
    (∃ Q, Eats expr (e.chars ++ rest) more Q) ∨ Fails expr (e.chars ++ rest) := by
  by_cases he : e.isExpression = true
  · exact Or.inl ⟨_, (h.legible he).reads hstops⟩
  · cases e with
    | starred s double x =>
      have hchars : ∃ cs, (Expr.starred s double x).chars = '*' :: cs := by
        rw [Expr.chars_starred]
        cases double
        · exact ⟨_, rfl⟩
        · exact ⟨_, rfl⟩
      obtain ⟨cs, hcs⟩ := hchars
      rw [hcs]
      exact Or.inr (fails_at (by decide) (by decide) _)
    | slice | assign | statement => cases harg
    | _ => exact absurd rfl he

theorem isArgument_of_isItem {e : Expr} (h : e.isItem = true) : e.isArgument = true := by
  cases e <;> first | rfl | cases h

theorem elements_of_means {es : List Expr} {ts : List (Tree Rule)}
    (h : List.Forall₂ ItemMeans es ts) :
    ∃ es', Build.elements ts = .ok es' ∧ es'.map Expr.bare = es.map Expr.bare := by
  induction h with
  | nil => exact ⟨[], by rw [Build.elements], rfl⟩
  | cons hfirst hrest ih =>
    obtain ⟨es', hes', hbares⟩ := ih
    rcases hfirst with ⟨span, parts, e', rfl, he', hbare⟩ |
      ⟨s, x, span, v, rfl, rfl, span', parts, e', rfl, he', hbare⟩
    · refine ⟨e' :: es', ?_, by rw [List.map_cons, List.map_cons, hbare, hbares]⟩
      simp only [Build.elements, he', hes']
      rfl
    · refine ⟨.starred span false e' :: es', ?_, ?_⟩
      · simp only [Build.elements, he', hes']
        rfl
      · rw [List.map_cons, List.map_cons, hbares, Expr.bare, Expr.bare, hbare]

/-! ### Lists, tuples and sets -/

section Displays

variable (s : Span) {es : List Expr} (hitems : ∀ e ∈ es, e.isItem = true ∧ Readable e)
include hitems

theorem listed_items : ∀ e ∈ es, Listed item e.chars (ItemMeans e) :=
  fun e he => listed_item (hitems e he).1 (hitems e he).2

theorem legible_list : Legible (.list s es) := by
  have hlisted := listed_items hitems
  refine Legible.display (r := .list) [] (Expr.chars_list s es) (by simp) (by decide) rfl (by decide)
    (fun _ => nofun) (fun rest more hskip => ?_) ?_ (Q := List.Forall₂ ItemMeans es)
  · exact eats_enclosed (by decide) rest '[' hlisted
      (fails_at_closing (by decide) (by decide) rest) hskip
  · intro span ts hts
    obtain ⟨es', hes', hbares⟩ := elements_of_means hts
    refine ⟨.list span es', ?_, rfl, ?_⟩
    · rw [Build.item, hes']
      rfl
    · rw [Expr.bare, Expr.bare, Expr.bareAll_eq, Expr.bareAll_eq, hbares]

/-- No expression alone stands between the parentheses of a tuple. -/
theorem grouped_fails_tuple (rest : List Char) :
    Fails (.rule .grouped) ('(' :: (tupled (es.map Expr.chars) ++ ')' :: rest)) := by
  refine .rule ?_ rfl
  cases es with
  | nil =>
    have hexpr : Fails expr (')' :: rest) := fails_at_closing (by decide) (by decide) rest
    exact .seq ((eats_mark '(' (solid_cons (by decide) rest).skips).fails hexpr)
  | cons e es =>
    have htext : tupled ((e :: es).map Expr.chars) ++ ')' :: rest =
        e.chars ++ ',' :: (behindComma (es.map Expr.chars) ++ ')' :: rest) :=
      List.append_assoc _ _ _
    obtain ⟨hitem, hreadable⟩ := hitems e List.mem_cons_self
    have hstops : Stops (',' :: (behindComma (es.map Expr.chars) ++ ')' :: rest)) _ :=
      stops_mark (by simp) _
    have hsolid := solid_of_begins ((listed_item hitem hreadable).starts hstops.cut.word) (by decide)
    rw [htext]
    rcases expr_eats_or_fails (isArgument_of_isItem hitem) hreadable hstops with ⟨Q, hread⟩ | hfail
    · have hclose : Fails (lit ")") (',' :: (behindComma (es.map Expr.chars) ++ ')' :: rest)) :=
        fails_at (by decide) (by decide) _
      exact ((eats_mark '(' hsolid.skips).skipSeq hread).fails hclose
    · exact .seq ((eats_mark '(' hsolid.skips).fails hfail)

theorem eats_tuple {rest more : List Char} (hskip : Skips rest more) :
    Eats (rulePattern .tuple) ('(' :: (tupled (es.map Expr.chars) ++ ')' :: rest)) more
      (List.Forall₂ ItemMeans es) := by
  have hlisted := listed_items hitems
  cases es with
  | nil =>
    have hclosing : Solid (')' :: rest) := solid_cons (by decide) rest
    refine (Eats.choice ((eats_mark '(' hclosing.skips).skipSeq (eats_mark ')' hskip))).imp ?_
    rintro _ rfl
    exact .nil
  | cons e es =>
    obtain ⟨he, hes⟩ := List.forall_mem_cons.mp hlisted
    have htext : tupled ((e :: es).map Expr.chars) ++ ')' :: rest =
        e.chars ++ ',' :: (behindComma (es.map Expr.chars) ++ ')' :: rest) :=
      List.append_assoc _ _ _
    have hstops : Stops (',' :: (behindComma (es.map Expr.chars) ++ ')' :: rest)) _ :=
      stops_mark (by simp) _
    have hstarts := he.starts hstops.cut.word
    have hsolid := solid_of_begins hstarts (by decide)
    have hclosing : ')' ∈ closingChars := by decide
    have hbehind : Skips (behindComma (es.map Expr.chars) ++ ')' :: rest)
        (separated (es.map Expr.chars) ++ ')' :: rest) := by
      have hseparated := solid_separated hclosing rest hes
      cases es with
      | nil => exact hseparated.skips
      | cons e' es => exact hseparated.skips.blank
    -- the empty tuple is tried first
    have hempty : Fails (lit "(" ++ lit ")")
        ('(' :: (e.chars ++ ',' :: (behindComma (es.map Expr.chars) ++ ')' :: rest))) :=
      (eats_mark '(' hsolid.skips).fails (fails_of_begins hstarts (by decide) (by decide))
    have hfirst := ((eats_mark '(' hsolid.skips).skipSeq (he.reads hstops)).seqSkip
      (eats_mark ',' hbehind)
    have hmore := eats_commaList hclosing rest hes (fails_at_closing hclosing (by decide) rest)
    have hall := (hfirst.seq hmore).imp fun _ => forall₂_cons
    rw [htext]
    exact Eats.choiceLater hempty (hall.seqSkip (eats_mark ')' hskip))

theorem legible_tuple : Legible (.tuple s es) := by
  refine Legible.display (r := .tuple) [.grouped] (Expr.chars_tuple s es) (by simp) (by decide) rfl
    (by decide) ?_ (fun rest more hskip => eats_tuple hitems hskip) ?_
  · intro rest q hq
    rw [List.mem_singleton.mp hq]
    exact grouped_fails_tuple hitems rest
  · intro span ts hts
    obtain ⟨es', hes', hbares⟩ := elements_of_means hts
    refine ⟨.tuple span es', ?_, rfl, ?_⟩
    · rw [Build.item, hes']
      rfl
    · rw [Expr.bare, Expr.bare, Expr.bareAll_eq, Expr.bareAll_eq, hbares]

end Displays

/-! ### Braces -/

/-- No dict is read where its first entry is none. -/
theorem dict_fails_at {cs : List Char} (hentry : Fails (.rule .dictEntry) cs) (hsolid : Solid cs)
    (hbrace : Fails (lit "\x7d") cs) : Fails (.rule .dict) ('\x7b' :: cs) := by
  have hnone : Eats (commaList (.rule .dictEntry)) cs cs Nothing :=
    (Fails.seq (.seq hentry)).optional hsolid
  exact .rule (((eats_mark '\x7b' hsolid.skips).skipSeq hnone).fails hbrace) rfl

theorem dictComp_fails_at {cs : List Char} (hentry : Fails (.rule .dictEntry) cs)
    (hsolid : Solid cs) : Fails (.rule .dictComp) ('\x7b' :: cs) :=
  .rule (.seq (.seq ((eats_mark '\x7b' hsolid.skips).fails hentry))) rfl

theorem entry_fails_at {e : Expr} (harg : e.isArgument = true) (h : Readable e)
    {rest more : List Char} (hstops : Stops rest more) (hcolon : Fails (lit ":") more) :
    Fails (.rule .dictEntry) (e.chars ++ rest) := by
  refine .rule (.seq ?_) rfl
  rcases expr_eats_or_fails harg h hstops with ⟨Q, hread⟩ | hfail
  · exact hread.fails hcolon
  · exact .seq hfail

theorem fails_continued {p : Pattern Rule} (texts : List (List Char)) {c : Char}
    (hc : c ∈ closingChars)
    (hp : expression.decides (⟨[','], false⟩ :: closingChars.map fun c => ⟨[c], false⟩) p .fails =
      true) (rest : List Char) : Fails p (continued texts ++ c :: rest) := by
  refine fails_of_begins ?_ (by decide) hp
  cases texts with
  | nil =>
    have hclosing : (⟨[c], false⟩ : Ahead) ∈ closingChars.map fun c => ⟨[c], false⟩ :=
      List.mem_map_of_mem hc
    exact begins_cons (List.mem_cons_of_mem _ hclosing) rest
  | cons cs texts => exact begins_cons List.mem_cons_self _

theorem legible_set (s : Span) {es : List Expr} (hsome : es ≠ [])
    (hitems : ∀ e ∈ es, e.isItem = true ∧ Readable e) : Legible (.set s es) := by
  have hlisted := listed_items hitems
  have hclosing : '\x7d' ∈ closingChars := by decide
  cases es with
  | nil => exact absurd rfl hsome
  | cons e es =>
    obtain ⟨he, hes⟩ := List.forall_mem_cons.mp hlisted
    obtain ⟨hitem, hreadable⟩ := hitems e List.mem_cons_self
    have hstops := fun rest => stops_continued (es.map Expr.chars) hclosing rest
    have hstarts := fun rest => he.starts (hstops rest).cut.word
    have hsolid := fun rest => solid_of_begins (hstarts rest) (by decide)
    have htext : ∀ rest, separated ((e :: es).map Expr.chars) ++ '\x7d' :: rest =
        e.chars ++ (continued (es.map Expr.chars) ++ '\x7d' :: rest) :=
      fun rest => List.append_assoc _ _ _
    refine Legible.display (r := .set) [.dict, .dictComp] (Expr.chars_set s (e :: es)) (by simp)
      (by decide) rfl (by decide) ?_ ?_ ?_ (Q := List.Forall₂ ItemMeans (e :: es))
    · intro rest q hq
      have hentry := entry_fails_at (isArgument_of_isItem hitem) hreadable (hstops rest)
        (fails_continued _ hclosing (by decide) rest)
      rw [htext]
      simp only [List.mem_cons, List.not_mem_nil, or_false] at hq
      rcases hq with rfl | rfl
      · exact dict_fails_at hentry (hsolid rest) (fails_of_begins (hstarts rest) (by decide) (by decide))
      · exact dictComp_fails_at hentry (hsolid rest)
    · intro rest more hskip
      rw [htext]
      have hfirst := (eats_mark '\x7b' (hsolid rest).skips).skipSeq (he.reads (hstops rest))
      have hmore := (eatsMore_listed hclosing rest hes).many (hstops rest).skips.solid
      have hall := (hfirst.seq hmore).imp fun _ => forall₂_cons
      exact (hall.seqSkip (eats_noComma hclosing rest)).seqSkip (eats_mark '\x7d' hskip)
    · intro span ts hts
      obtain ⟨es', hes', hbares⟩ := elements_of_means hts
      refine ⟨.set span es', ?_, rfl, ?_⟩
      · rw [Build.item, hes']
        rfl
      · rw [Expr.bare, Expr.bare, Expr.bareAll_eq, Expr.bareAll_eq, hbares]

/-- The node of a key and a value. -/
def EntryMeans (entry : Expr × Expr) (t : Tree Rule) : Prop :=
  ∃ span a b, t = .node .dictEntry span [a, b] ∧ Means entry.1 a ∧ Means entry.2 b

theorem listed_entry {entry : Expr × Expr} (hkey : Legible entry.1) (hvalue : Legible entry.2) :
    Listed (.rule .dictEntry) (Expr.entryText entry) (EntryMeans entry) := by
  constructor
  · intro rest _
    have hcolon : WordEnds (':' :: ' ' :: (entry.2.chars ++ rest)) := wordEnds_cons (by decide) _
    rw [Expr.entryText, List.append_assoc]
    exact hkey.listed.starts hcolon
  · intro rest more hstops
    have hcolon : Stops (':' :: ' ' :: (entry.2.chars ++ rest)) _ := stops_colon (by simp)
    have hblank := (hvalue.opens hstops.cut.word).solid.skips.blank
    have hboth := ((hkey.reads hcolon).seqSkip (eats_mark ':' hblank)).seq (hvalue.reads hstops)
    rw [Expr.entryText, List.append_assoc]
    refine (Eats.rule .dictEntry rfl hboth).imp ?_
    rintro _ ⟨_, rfl, span, _, rfl, _, _, rfl, ⟨a, rfl, ha⟩, b, rfl, hb⟩
    exact ⟨_, rfl, span, a, b, rfl, ha, hb⟩

theorem entries_of_means {entries : List (Expr × Expr)} {ts : List (Tree Rule)}
    (h : List.Forall₂ EntryMeans entries ts) :
    ∃ es, Build.entries ts = .ok es ∧
      (es.map fun e => (e.1.bare, e.2.bare)) = entries.map fun e => (e.1.bare, e.2.bare) := by
  induction h with
  | nil => exact ⟨[], by rw [Build.entries], rfl⟩
  | cons hfirst hrest ih =>
    obtain ⟨es, hes, hbares⟩ := ih
    obtain ⟨span, _, _, rfl, ⟨sk, ks, k, rfl, hk, hkey⟩, sv, vs, v, rfl, hv, hvalue⟩ := hfirst
    refine ⟨(k, v) :: es, ?_, by rw [List.map_cons, List.map_cons, hkey, hvalue, hbares]⟩
    simp only [Build.entries, hk, hv, hes]
    rfl

theorem legible_dict (s : Span) {entries : List (Expr × Expr)}
    (h : ∀ entry ∈ entries, Legible entry.1 ∧ Legible entry.2) : Legible (.dict s entries) := by
  have hlisted : ∀ entry ∈ entries, Listed (.rule .dictEntry) (Expr.entryText entry)
      (EntryMeans entry) := fun entry hentry => listed_entry (h entry hentry).1 (h entry hentry).2
  refine Legible.display (r := .dict) [] (Expr.chars_dict s entries) (by simp) (by decide) rfl
    (by decide) (fun _ => nofun) (fun rest more hskip => ?_) ?_
    (Q := List.Forall₂ EntryMeans entries)
  · exact eats_enclosed (by decide) rest '\x7b' hlisted
      (fails_at_closing (by decide) (by decide) rest) hskip
  · intro span ts hts
    obtain ⟨es, hes, hbares⟩ := entries_of_means hts
    refine ⟨.dict span es, ?_, rfl, ?_⟩
    · rw [Build.item, hes]
      rfl
    · rw [Expr.bare, Expr.bare, Expr.bareEntries_eq, Expr.bareEntries_eq, hbares]

end SafeExpr
