/-
  SafeExpr/Proofs/Parse/Spelled.lean
  ==================================
  **The text of a value is read as a tree that spells it.**

  `Denotes v t` says of a node of the grammar what the later stages need: it adds no more
  levels than the value has, and what is built from it spells the value.  A writable value
  is read as such a node (`yields_spelling`), by induction on what makes it writable.  Its
  text closes the brackets that it opens (`balanced_spelling`).
-/
import SafeExpr.Parse.Build
import SafeExpr.Proofs.Evaluation.Constant
import SafeExpr.Proofs.Grammar.Display
import SafeExpr.Proofs.Parse.Brackets

namespace SafeExpr

open Eval (Spells SpellsEntry)
open Grammar (Yields IsLeaf IsNegative IsDisplay IsEntry)

/-! ### Nodes that denote values -/

structure Denotes (v : Value) (t : Tree Rule) : Prop where
  expression : ∃ span parts, t = .node .expression span parts
  levels {maxDepth above : Nat} : above + v.levels ≤ maxDepth →
    checkOperators maxDepth above t = .ok ()
  builds : ∃ e, Build.expr t = .ok e ∧ Spells e v

theorem checkLevel_eq_ok {maxDepth depth : Nat} (h : depth ≤ maxDepth) (span : Span) :
    checkLevel maxDepth depth span = .ok () := by
  rw [checkLevel, if_neg (by omega)]

theorem checkOperatorsAll_eq_ok {maxDepth above : Nat} {ts : List (Tree Rule)}
    (h : ∀ t ∈ ts, checkOperators maxDepth above t = .ok ()) :
    checkOperatorsAll maxDepth above ts = .ok () := by
  induction ts with
  | nil => rw [checkOperatorsAll]
  | cons t rest ih =>
    obtain ⟨hfirst, hrest⟩ := List.forall_mem_cons.mp h
    rw [checkOperatorsAll, hfirst]
    exact ih hrest

theorem checkOperators_node_eq_ok {maxDepth above : Nat} {r : Rule} {span : Span}
    {ts : List (Tree Rule)} (hself : above + ownLevels r ts ≤ maxDepth)
    (h : ∀ t ∈ ts, checkOperators maxDepth (above + ownLevels r ts) t = .ok ()) :
    checkOperators maxDepth above (.node r span ts) = .ok () := by
  rw [checkOperators, checkLevel_eq_ok hself]
  exact checkOperatorsAll_eq_ok h

/-! ### Literals -/

/-- A single token is built as its literal. -/
theorem expr_leaf {r : Rule} (hplain : r.isOperator = false) (span span' : Span) (cs : List Char) :
    Build.expr (.node .expression span [.leaf r span' cs]) = Build.literal r span' cs := by
  rw [Build.expr, Build.items, Build.items, Build.item_leaf]
  · rfl
  · rintro op rfl
    cases hplain
  · rintro op rfl
    cases hplain

/-- A sign in front of a token. -/
theorem expr_negative (span sign span' : Span) (cs : List Char) :
    Build.expr (.node .expression span [.node (.before .neg) sign [], .leaf .integer span' cs]) =
      (Build.literal .integer span' cs).map fun e =>
        .unary ⟨sign.start, e.span.stop⟩ .neg e := by
  simp only [Build.expr, Build.items, Build.item]
  rfl

theorem denotes_leaf {r : Rule} {cs : List Char} {t : Tree Rule} {l : Literal}
    (h : IsLeaf r cs t) (hplain : r.isOperator = false) (hown : ownLevels r [] = 0)
    (hread : ∀ span, Build.literal r span cs = .ok (.literal span l))
    (hlevels : l.toValue.levels = 1) : Denotes l.toValue t := by
  obtain ⟨span, span', rfl⟩ := h
  have hone : ownLevels .expression [.leaf r span' cs] = 1 := by
    simp [ownLevels, Tree.rule, hplain]
  refine ⟨⟨span, _, rfl⟩, fun {maxDepth above} hroom => ?_, ?_⟩
  · rw [hlevels] at hroom
    apply checkOperators_node_eq_ok
    · rw [hone]
      exact hroom
    · intro t ht
      rw [List.mem_singleton] at ht
      subst ht
      rw [hone, checkOperators, hown]
      exact checkLevel_eq_ok hroom span'
  · refine ⟨.literal span' l, ?_, Eval.spells_literal span' l (by omega)⟩
    rw [expr_leaf hplain, hread]

theorem denotes_natural {n : Int64} {cs : List Char} {t : Tree Rule} (hn : 0 ≤ n.toInt)
    (hcs : IntegerText cs n.toInt.natAbs) (h : IsLeaf .integer cs t) : Denotes (.int n) t := by
  have hfit : readInteger? cs = some n := by
    rw [readInteger?_of_integerText hcs, Int.natAbs_of_nonneg hn, fitInt64_toInt]
  refine denotes_leaf (l := .int n) h rfl rfl (fun span => ?_) ?_
  · rw [Build.literal, hfit]
  · exact Value.levels_natural hn

/-- The opposite of a negative number other than the smallest one is one of 64 bits. -/
theorem fitInt64_opposite {n : Int64} (hn : n.toInt < 0) (hmin : n ≠ Int64.minValue) :
    ∃ m : Int64, fitInt64 n.toInt.natAbs = some m ∧ m.toInt = -n.toInt := by
  have hlow := n.minValue_le_toInt
  have hne : n.toInt ≠ Int64.minValue.toInt := fun heq => hmin (Int64.toInt_inj.mp heq)
  rw [Int64.toInt_minValue] at hlow hne
  have hrange : Int64.minValue.toInt ≤ (n.toInt.natAbs : Int) ∧
      (n.toInt.natAbs : Int) ≤ Int64.maxValue.toInt := by
    rw [Int64.toInt_minValue, Int64.toInt_maxValue]
    omega
  obtain ⟨m, hm⟩ : ∃ m, fitInt64 n.toInt.natAbs = some m := ⟨_, if_pos hrange⟩
  refine ⟨m, hm, ?_⟩
  rw [fitInt64_eq_some_iff.mp hm]
  omega

theorem denotes_negative {n : Int64} {cs : List Char} {t : Tree Rule} (hn : n.toInt < 0)
    (hmin : n ≠ Int64.minValue) (hcs : IntegerText cs n.toInt.natAbs) (h : IsNegative cs t) :
    Denotes (.int n) t := by
  obtain ⟨span, sign, span', rfl⟩ := h
  obtain ⟨m, hfit, hm⟩ := fitInt64_opposite hn hmin
  have hread : readInteger? cs = some m := by rw [readInteger?_of_integerText hcs, hfit]
  have htwo := Value.levels_negative hn
  refine ⟨⟨span, _, rfl⟩, fun {maxDepth above} hroom => ?_, ?_⟩
  · rw [htwo] at hroom
    apply checkOperators_node_eq_ok
    · exact hroom
    · intro t ht
      simp only [List.mem_cons, List.not_mem_nil, or_false] at ht
      rcases ht with rfl | rfl
      · apply checkOperators_node_eq_ok
        · exact hroom
        · intro t ht
          cases ht
      · rw [checkOperators]
        exact checkLevel_eq_ok hroom span'
  · refine ⟨.unary ⟨sign.start, span'.stop⟩ .neg (.literal span' (.int m)), ?_,
      Eval.spells_negative _ span' hn hm⟩
    rw [expr_negative, Build.literal, hread]
    rfl

/-! ### Displays -/

theorem levels_of_denotes {vs : List Value} {ts : List (Tree Rule)}
    (h : List.Forall₂ Denotes vs ts) {maxDepth above : Nat}
    (hroom : above + Value.levelsAll vs ≤ maxDepth) :
    ∀ t ∈ ts, checkOperators maxDepth above t = .ok () := by
  induction h with
  | nil => nofun
  | cons hfirst hrest ih =>
    rw [Value.levelsAll] at hroom
    exact List.forall_mem_cons.mpr ⟨hfirst.levels (by omega), ih (by omega)⟩

theorem elements_of_denotes {vs : List Value} {ts : List (Tree Rule)}
    (h : List.Forall₂ Denotes vs ts) :
    ∃ es, Build.elements ts = .ok es ∧ List.Forall₂ Spells es vs := by
  induction h with
  | nil => exact ⟨[], by rw [Build.elements], .nil⟩
  | cons hfirst hrest ih =>
    obtain ⟨es, hes, hall⟩ := ih
    obtain ⟨⟨span, parts, rfl⟩, -, e, he, hspells⟩ := hfirst
    refine ⟨e :: es, ?_, .cons hspells hall⟩
    simp only [Build.elements, he, hes]
    rfl

/-- A display denotes what is built from its items. -/
theorem denotes_display {r : Rule} {Q : List (Tree Rule) → Prop} {v : Value} {k : Nat}
    {t : Tree Rule} (h : IsDisplay r Q t) (hplain : r.isOperator = false)
    (hown : ∀ ts, ownLevels r ts = 0) (hlevels : v.levels = 1 + k)
    (hbelow : ∀ ts, Q ts → ∀ maxDepth above, above + k ≤ maxDepth →
      ∀ t ∈ ts, checkOperators maxDepth above t = .ok ())
    (hbuild : ∀ ts, Q ts → ∀ span, ∃ e, Build.item (.node r span ts) = .operand (.ok e) ∧
      Spells e v) : Denotes v t := by
  obtain ⟨span, span', ts, rfl, hQ⟩ := h
  have hone : ownLevels .expression [.node r span' ts] = 1 := by
    simp [ownLevels, Tree.rule, hplain]
  refine ⟨⟨span, _, rfl⟩, fun {maxDepth above} hroom => ?_, ?_⟩
  · rw [hlevels] at hroom
    apply checkOperators_node_eq_ok
    · rw [hone]
      omega
    · intro t ht
      rw [List.mem_singleton] at ht
      subst ht
      rw [hone]
      apply checkOperators_node_eq_ok
      · rw [hown]
        omega
      · rw [hown]
        exact hbelow ts hQ maxDepth (above + 1) (by omega)
  · obtain ⟨e, he, hspells⟩ := hbuild ts hQ span'
    refine ⟨e, ?_, hspells⟩
    rw [Build.expr, Build.items, Build.items, he]
    rfl

section Items

variable {vs : List Value} {t : Tree Rule}

theorem denotes_items {r : Rule} {v : Value} (make : Span → List Expr → Expr)
    (h : IsDisplay r (List.Forall₂ Denotes vs) t) (hplain : r.isOperator = false)
    (hown : ∀ ts, ownLevels r ts = 0) (hlevels : v.levels = 1 + Value.levelsAll vs)
    (hitem : ∀ span ts, Build.item (.node r span ts) =
      .operand ((Build.elements ts).map (make span)))
    (hmake : ∀ span es, List.Forall₂ Spells es vs → Spells (make span es) v) : Denotes v t := by
  refine denotes_display h hplain hown hlevels (fun ts hts _ _ => levels_of_denotes hts) ?_
  intro ts hts span
  obtain ⟨es, hes, hall⟩ := elements_of_denotes hts
  exact ⟨make span es, by rw [hitem, hes]; rfl, hmake span es hall⟩

theorem denotes_list (h : IsDisplay .list (List.Forall₂ Denotes vs) t) :
    Denotes (.list vs) t := by
  apply denotes_items .list h rfl (fun _ => rfl) (Value.levels_list vs)
  · intro span ts
    rw [Build.item]
  · intro span es hes
    exact Eval.spells_list hes span

theorem denotes_tuple (h : IsDisplay .tuple (List.Forall₂ Denotes vs) t) :
    Denotes (.tuple vs) t := by
  apply denotes_items .tuple h rfl (fun _ => rfl) (Value.levels_tuple vs)
  · intro span ts
    rw [Build.item]
  · intro span es hes
    exact Eval.spells_tuple hes span

theorem denotes_set (hhash : ∀ v ∈ vs, v.isHashable = true)
    (hdiffer : vs.Pairwise fun v w => v.eq w = false)
    (h : IsDisplay .set (List.Forall₂ Denotes vs) t) : Denotes (.set vs) t := by
  apply denotes_items .set h rfl (fun _ => rfl) (Value.levels_set vs)
  · intro span ts
    rw [Build.item]
  · intro span es hes
    exact Eval.spells_set hes span (Value.mkSet_eq_ok hhash hdiffer)

end Items

/-- The node of an entry denotes its key and its value. -/
def DenotesEntry (entry : Value × Value) : Tree Rule → Prop :=
  IsEntry (Denotes entry.1) (Denotes entry.2)

section Entries

variable {entries : List (Value × Value)} {ts : List (Tree Rule)}
  (h : List.Forall₂ DenotesEntry entries ts)
include h

theorem levels_of_denotesEntry {maxDepth above : Nat}
    (hroom : above + Value.levelsEntries entries ≤ maxDepth) :
    ∀ t ∈ ts, checkOperators maxDepth above t = .ok () := by
  induction h with
  | nil => nofun
  | cons hfirst hrest ih =>
    obtain ⟨span, key, value, rfl, hkey, hvalue⟩ := hfirst
    rw [Value.levelsEntries] at hroom
    refine List.forall_mem_cons.mpr ⟨checkOperators_node_eq_ok ?_ ?_, ih (by omega)⟩
    · change above ≤ maxDepth
      omega
    · intro t ht
      simp only [List.mem_cons, List.not_mem_nil, or_false] at ht
      change checkOperators maxDepth above t = .ok ()
      rcases ht with rfl | rfl
      · exact hkey.levels (by omega)
      · exact hvalue.levels (by omega)

theorem entries_of_denotes :
    ∃ es, Build.entries ts = .ok es ∧ List.Forall₂ SpellsEntry es entries := by
  induction h with
  | nil => exact ⟨[], by rw [Build.entries], .nil⟩
  | cons hfirst hrest ih =>
    obtain ⟨es, hes, hall⟩ := ih
    obtain ⟨span, key, value, rfl, hkey, hvalue⟩ := hfirst
    obtain ⟨k, hk, hspellsKey⟩ := hkey.builds
    obtain ⟨v, hv, hspellsValue⟩ := hvalue.builds
    refine ⟨(k, v) :: es, ?_, .cons ⟨hspellsKey, hspellsValue⟩ hall⟩
    simp only [Build.entries, hk, hv, hes]
    rfl

end Entries

theorem denotes_dict {entries : List (Value × Value)} {t : Tree Rule}
    (hhash : ∀ e ∈ entries, e.1.isHashable = true)
    (hdiffer : entries.Pairwise fun e e' => e.1.eq e'.1 = false)
    (h : IsDisplay .dict (List.Forall₂ DenotesEntry entries) t) : Denotes (.dict entries) t := by
  refine denotes_display h rfl (fun _ => rfl) (Value.levels_dict entries)
    (fun ts hts _ _ => levels_of_denotesEntry hts) fun ts hts span => ?_
  obtain ⟨es, hes, hall⟩ := entries_of_denotes hts
  exact ⟨.dict span es, by rw [Build.item, hes]; rfl,
    Eval.spells_dict hall span (Value.mkDict_eq_ok hhash hdiffer)⟩

/-! ### Writable values -/

theorem Grammar.Yields.imp {p : Pattern Rule} {cs : List Char} {P Q : Tree Rule → Prop}
    (h : Yields p cs P) (himp : ∀ t, P t → Q t) : Yields p cs Q where
  starts := h.starts
  reads pos rest hrest := by
    obtain ⟨pos', t, ht, hP⟩ := h.reads pos hrest
    exact ⟨pos', t, ht, himp t hP⟩

/-- The text of an integer is read as a node that denotes it, in whatever radix. -/
theorem yields_signedText {n : Int64} {cs : List Char} (hmin : n ≠ Int64.minValue)
    (hcs : IntegerText cs n.toInt.natAbs) :
    Yields Grammar.expr (signedText n cs) (Denotes (.int n)) := by
  unfold signedText
  split
  · next hneg =>
    exact (Grammar.yields_negative hcs).imp fun t ht => denotes_negative hneg hmin hcs ht
  · next hnot =>
    exact (Grammar.yields_integer hcs).imp fun t ht => denotes_natural (Int.not_lt.mp hnot) hcs ht

/-- **The text of a value is read as a node that denotes it.** -/
theorem yields_spelling {v : Value} (h : v.Writable) :
    Yields Grammar.expr v.spelling (Denotes v) := by
  induction h with
  | none =>
    refine Grammar.yields_none.imp fun t ht => ?_
    exact denotes_leaf (l := .none) ht rfl rfl (fun _ => rfl) rfl
  | bool b =>
    cases b with
    | true =>
      refine Grammar.yields_true.imp fun t ht => ?_
      exact denotes_leaf (l := .bool true) ht rfl rfl (fun _ => rfl) rfl
    | false =>
      refine Grammar.yields_false.imp fun t ht => ?_
      exact denotes_leaf (l := .bool false) ht rfl rfl (fun _ => rfl) rfl
  | @int n hmin =>
    rw [Value.spelling_int]
    exact yields_signedText hmin (integerText_toDigits _)
  | str s =>
    rw [Value.spelling_str]
    refine (Grammar.yields_string (stringText_quoteValue s)).imp fun t ht => ?_
    refine denotes_leaf (l := .str s) ht rfl rfl (fun span => ?_) rfl
    rw [Build.literal, readQuoted_quoteValue]
    rfl
  | list _ ih =>
    rw [Value.spelling_list]
    exact (Grammar.yields_list ih).imp fun t => denotes_list
  | tuple _ ih =>
    rw [Value.spelling_tuple]
    exact (Grammar.yields_tuple ih).imp fun t => denotes_tuple
  | dict _ _ hhash hdiffer ihKeys ihValues =>
    rw [Value.spelling_dict]
    refine (Grammar.yields_dict fun e he => ?_).imp fun t => denotes_dict hhash hdiffer
    exact Grammar.yields_dictEntry (ihKeys e he) (ihValues e he)
  | set hne _ hhash hdiffer ih =>
    rw [Value.spelling_set hne]
    exact (Grammar.yields_set ih hne).imp fun t => denotes_set hhash hdiffer

/-! ### Brackets -/

section Texts

variable {k : Nat} {texts : List (List Char)} (h : ∀ cs ∈ texts, Balanced k cs)
include h

theorem balanced_continued : Balanced k (continued texts) := by
  induction texts with
  | nil => exact .nil
  | cons cs texts ih =>
    obtain ⟨hfirst, hrest⟩ := List.forall_mem_cons.mp h
    have hcomma : Balanced k [','] := .plain (by decide)
    have hblank : Balanced k [' '] := .plain (by decide)
    exact ((hcomma.append hblank).append hfirst).append (ih hrest)

theorem balanced_separated : Balanced k (separated texts) := by
  cases texts with
  | nil => exact .nil
  | cons cs texts =>
    obtain ⟨hfirst, hrest⟩ := List.forall_mem_cons.mp h
    exact hfirst.append (balanced_continued hrest)

theorem balanced_tupled : Balanced k (tupled texts) := by
  cases texts with
  | nil => exact .nil
  | cons cs texts =>
    obtain ⟨hfirst, hrest⟩ := List.forall_mem_cons.mp h
    have hcomma : Balanced k [','] := .plain (by decide)
    have hbehind : Balanced k (behindComma texts) := by
      cases texts with
      | nil => exact .nil
      | cons cs' texts =>
        have hblank : Balanced k [' '] := .plain (by decide)
        exact hblank.append (balanced_separated hrest)
    exact hfirst.append (hcomma.append hbehind)

end Texts

/-- Words and digits open no bracket. -/
theorem balanced_of_word {k : Nat} {cs : List Char} (h : cs.all isWordChar = true) :
    Balanced k cs := by
  refine .unmarked (List.any_eq_false.mpr fun c hc => ?_)
  rw [isMark_eq_false (by decide) (List.all_eq_true.mp h c hc)]
  exact Bool.false_ne_true

theorem balanced_signedText {k : Nat} {n : Int64} {cs : List Char} {m : Nat}
    (h : IntegerText cs m) : Balanced k (signedText n cs) := by
  have hdigits : Balanced k cs := balanced_of_word (List.all_eq_true.mpr h.word)
  unfold signedText
  split
  · have hminus : Balanced k ['-'] := .plain (by decide)
    exact hminus.append hdigits
  · exact hdigits

theorem balanced_items {vs : List Value} (h : ∀ v ∈ vs, Balanced v.levels v.spelling) :
    ∀ cs ∈ vs.map Value.spelling, Balanced (Value.levelsAll vs) cs := by
  intro cs hcs
  obtain ⟨v, hv, rfl⟩ := List.mem_map.mp hcs
  exact (h v hv).mono (Value.levels_le_of_mem hv)

/-- **The text of a value opens no more brackets at a time than it has levels.** -/
theorem balanced_spelling {v : Value} (h : v.Writable) : Balanced v.levels v.spelling := by
  induction h with
  | none => exact balanced_of_word (by decide)
  | bool b =>
    cases b with
    | true => exact balanced_of_word (by decide)
    | false => exact balanced_of_word (by decide)
  | int hmin =>
    rw [Value.spelling_int]
    exact balanced_signedText (integerText_toDigits _)
  | str s =>
    rw [Value.spelling_str]
    exact (balanced_string (stringText_quoteValue s)).mono (Nat.zero_le _)
  | list _ ih =>
    rw [Value.spelling_list, Value.levels_list, Nat.add_comm]
    exact .enclosed rfl rfl (balanced_separated (balanced_items ih))
  | tuple _ ih =>
    rw [Value.spelling_tuple, Value.levels_tuple, Nat.add_comm]
    exact .enclosed rfl rfl (balanced_tupled (balanced_items ih))
  | @dict es _ _ _ _ ihKeys ihValues =>
    rw [Value.spelling_dict, Value.levels_dict, Nat.add_comm]
    refine Balanced.enclosed rfl rfl (balanced_separated ?_)
    rw [List.forall_mem_map]
    intro e he
    obtain ⟨hkey, hvalue⟩ := Value.levels_le_of_mem_entries he
    have hcolon : Balanced (Value.levelsEntries es) [':'] := .plain (by decide)
    have hblank : Balanced (Value.levelsEntries es) [' '] := .plain (by decide)
    exact ((ihKeys e he).mono hkey).append
      (hcolon.append (hblank.append ((ihValues e he).mono hvalue)))
  | set hne _ _ _ ih =>
    rw [Value.spelling_set hne, Value.levels_set, Nat.add_comm]
    exact .enclosed rfl rfl (balanced_separated (balanced_items ih))

end SafeExpr
