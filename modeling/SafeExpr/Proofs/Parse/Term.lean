/-
  SafeExpr/Proofs/Parse/Term.lean
  ===============================
  **Reading a rendered tree as a term.**

  The text of every expression is an operand with operators after it: an operator that takes
  operands to its left and right stands in parentheses, as does one in front of its operand.
  `Legible e` says that the text of `e` is read that way, wherever it stands and whatever
  operators after it follow, and that the tree resolved from its nodes is `e` but for spans
  and parentheses.  Nothing else is needed of a part to read the whole.
-/
import Mathlib.Logic.Function.Iterate
import SafeExpr.Proofs.Parse.Operator
import SafeExpr.Proofs.Parse.Precedence
import SafeExpr.Proofs.Syntax.Bare

namespace SafeExpr

open Grammar

/-! ### Derivations of terms -/

theorem Derives.of_iterate {n : Tier} {items : List Item} {e : Expr} (k : Nat)
    (h : Derives (Tier.tighter^[k] n) items e) : Derives n items e := by
  induction k generalizing n with
  | zero => exact h
  | succ k ih => exact .up (ih h)

/-- A term may stand at every tier. -/
theorem Derives.of_primary {items : List Item} {e : Expr} (h : Derives .primary items e)
    (n : Tier) : Derives n items e := by
  have htightest : Tier.tighter^[15] n = .primary := by cases n <;> rfl
  exact .of_iterate 15 (htightest ▸ h)

theorem Derives.to_lambda {n : Tier} {items : List Item} {e : Expr} (h : Derives n items e) :
    Derives .lambda items e := by
  have hreached : ∃ k : Fin 16, Tier.tighter^[k.val] .lambda = n := by
    cases n <;> decide
  obtain ⟨k, rfl⟩ := hreached
  exact .of_iterate k h

/-! ### What is made of nodes -/

/-- The nodes resolve to the tree, but for spans and parentheses. -/
def Flat (e : Expr) (ts : List (Tree Rule)) : Prop :=
  ∃ e', Derives .lambda (Build.items ts) e' ∧ e'.bare = e.bare

/-- The same for an operand and the operators after it. -/
def Primary (e : Expr) (ts : List (Tree Rule)) : Prop :=
  ∃ e', Derives .primary (Build.items ts) e' ∧ e'.bare = e.bare

/-- The node of an expression, from which the tree is built. -/
def Means (e : Expr) (t : Tree Rule) : Prop :=
  ∃ span parts e', t = .node .expression span parts ∧
    Build.expr (.node .expression span parts) = .ok e' ∧ e'.bare = e.bare

theorem primary_operand {e e' : Expr} {t : Tree Rule} (ht : Build.item t = .operand (.ok e'))
    (he : e'.isOperand = true) (hbare : e'.bare = e.bare) : Primary e [t] := by
  refine ⟨e', ?_, hbare⟩
  rw [Build.items, Build.items, ht]
  exact .operand he

theorem Flat.build {e : Expr} {ts : List (Tree Rule)} (h : Flat e ts) (span : Span) :
    ∃ e', Build.expr (.node .expression span ts) = .ok e' ∧ e'.bare = e.bare := by
  obtain ⟨e', hderives, hbare⟩ := h
  refine ⟨e', ?_, hbare⟩
  rw [Build.expr]
  exact hderives.resolve_eq

/-! ### Terms -/

structure Legible (e : Expr) : Prop where
  headed : Headed e.chars
  term {p : Pattern Rule} {cs rest more last : List Char} {P Q : List (Tree Rule) → Prop}
    (hp : Eats p cs (e.chars ++ rest) P) (hcut : Cut rest) (hskip : Skips rest more)
    (hafter : EatsMore postfixPart more last Q) :
    Eats (p ++ operandPart ++ .many postfixPart) cs last (Both (Both P (Primary e)) Q)

namespace Legible

variable {e f : Expr} {cs rest more : List Char}

theorem of_operand (hheaded : Headed e.chars)
    (h : ∀ rest more, Cut rest → Skips rest more →
      Eats operandPart (e.chars ++ rest) more (Primary e)) : Legible e where
  headed := hheaded
  term hp hcut hskip hafter :=
    (hp.seq (h _ _ hcut hskip)).seq (hafter.many hskip.solid)

/-- Behind operators that stand in front of it. -/
theorem behind {P : List (Tree Rule) → Prop} (h : Legible e)
    (hp : Eats (.many prefixPart) cs (e.chars ++ rest) P) (hends : Ends rest more) :
    Eats termPart cs more (Both P (Primary e)) :=
  (h.term hp hends.cut hends.skips (hends.after.more hends.skips.solid)).imp fun _ =>
    both_nothing_right.mp

theorem opens (h : Legible e) (hrest : WordEnds rest) : Opens (e.chars ++ rest) :=
  h.headed.opens hrest

theorem alone (h : Legible e) (hends : Ends rest more) :
    Eats termPart (e.chars ++ rest) more (Primary e) := by
  have hopens := h.opens hends.cut.word
  exact (h.behind (hopens.before_fails.many hopens.solid) hends).imp fun _ =>
    both_nothing_left.mp

/-- As a whole expression, where no other term goes on. -/
theorem reads_before (h : Legible e) (hends : Ends rest more)
    (hbetween : Fails (infixPart ++ termPart) more) :
    Eats expr (e.chars ++ rest) more (Single (Means e)) := by
  have hmore := (hbetween.more hends.skips.solid).many hends.skips.solid
  refine (Eats.rule .expression rfl ((h.alone hends).seqSkip hmore)).imp ?_
  rintro _ ⟨_, rfl, span, us, rfl, e', he', hbare⟩
  exact ⟨_, rfl, span, us, e', rfl, by rw [Build.expr]; exact he'.to_lambda.resolve_eq, hbare⟩

theorem reads (h : Legible e) (hstops : Stops rest more) :
    Eats expr (e.chars ++ rest) more (Single (Means e)) :=
  h.reads_before hstops.toEnds hstops.between

/-- An operand in brackets.  The bracket and the exceptions decide which one is read. -/
theorem display {r : Rule} {o c : Char} {body : List Char} {Q : List (Tree Rule) → Prop}
    (exceptions : List Rule) (hchars : e.chars = o :: body ++ [c])
    (ho : o ∈ ['(', '[', '\x7b']) (hr : r ∈ operandRules) (hnode : isSolid r = false)
    (hcheck : (operandRules.takeWhile (· ≠ r)).all (fun q =>
      exceptions.contains q || expression.decides [⟨[o], false⟩] (.rule q) .fails) = true)
    (hfail : ∀ rest, ∀ q ∈ exceptions, Fails (.rule q) (o :: (body ++ c :: rest)))
    (hread : ∀ rest more, Skips rest more →
      Eats (rulePattern r) (o :: (body ++ c :: rest)) more Q)
    (hbuild : ∀ span ts, Q ts → ∃ e', Build.item (.node r span ts) = .operand (.ok e') ∧
      e'.isOperand = true ∧ e'.bare = e.bare) : Legible e := by
  refine of_operand (hchars ▸ .bracket ho (body ++ [c])) fun rest more _ hskip => ?_
  have htext : e.chars ++ rest = o :: (body ++ c :: rest) := by
    rw [hchars]
    simp
  have hsolid : [⟨[o], false⟩].all solid = true := by
    simp only [List.mem_cons, List.not_mem_nil, or_false] at ho
    rcases ho with rfl | rfl | rfl <;> decide
  rw [htext, operandPart_eq]
  refine (eats_oneOf_except exceptions hr (begins_cons (List.mem_singleton_self _) _) hsolid hcheck
    (hfail rest) (Eats.rule r hnode (hread rest more hskip))).imp ?_
  rintro _ ⟨_, rfl, span, us, rfl, hus⟩
  obtain ⟨e', hitem, hoperand, hbare⟩ := hbuild span us hus
  exact primary_operand hitem hoperand hbare

/-- A flat expression in parentheses. -/
theorem grouped {body : List Char} (hchars : e.chars = '(' :: body ++ [')'])
    (hbody : ∀ rest, Solid (body ++ ')' :: rest) ∧
      Eats (rulePattern .expression) (body ++ ')' :: rest) (')' :: rest) (Flat e)) :
    Legible e := by
  have hread : ∀ rest more, Skips rest more → Eats (rulePattern .grouped)
      ('(' :: (body ++ ')' :: rest)) more (Single (IsNode .expression (Flat e))) := by
    intro rest more hskip
    obtain ⟨hsolid, hflat⟩ := hbody rest
    have hopened := (eats_mark '(' hsolid.skips).skipSeq (Eats.rule .expression rfl hflat)
    exact hopened.seqSkip (eats_mark ')' hskip)
  refine display [] hchars (by simp) (by decide) rfl (by decide) (fun _ => nofun) hread ?_
  rintro span _ ⟨_, rfl, span', us, rfl, hus⟩
  obtain ⟨e', he', hbare⟩ := hus.build span'
  refine ⟨.paren span e', ?_, rfl, hbare⟩
  rw [Build.item, he']
  rfl

/-- An operator after a term. -/
theorem after {c : Char} {behind : List Char} {T : Tree Rule → Prop} (hf : Legible f)
    (hchars : e.chars = f.chars ++ c :: behind) (hc : c ∈ ['(', '[', '.'])
    (hcut : ∀ rest, Cut (c :: (behind ++ rest)))
    (hread : ∀ rest more, Cut rest → Skips rest more →
      Eats postfixPart (c :: (behind ++ rest)) more (Single T))
    (hmake : ∀ us t, Primary f us → T t → Primary e (us ++ [t])) : Legible e where
  headed := hchars ▸ hf.headed.append hc behind
  term {p cs rest more last P Q} hp hcutRest hskip hafter := by
    have hsolid : Solid (c :: (behind ++ rest)) := by
      simp only [List.mem_cons, List.not_mem_nil, or_false] at hc
      rcases hc with rfl | rfl | rfl <;> exact solid_cons (by decide) _
    rw [hchars, List.append_assoc, List.cons_append] at hp
    have hmore := EatsMore.cons (hread rest more hcutRest hskip) hafter
    refine (hf.term hp (hcut rest) hsolid.skips hmore).imp ?_
    rintro _ ⟨_, _, rfl, ⟨us, vs, rfl, hus, hvs⟩, _, ws, rfl, ⟨t, rfl, ht⟩, hws⟩
    refine ⟨us ++ (vs ++ [t]), ws, by simp, ⟨us, vs ++ [t], rfl, hus, hmake vs t hvs ht⟩, hws⟩

end Legible

/-! ### Constants and names -/

theorem headed_word {w : List Char} (hne : w ≠ []) (hall : w.all isWordChar = true)
    (hfree : ∀ v ∈ reservedWords, v.toList = w → v ∈ constantWords) : Headed w := by
  rw [← List.append_nil w]
  refine .word hne hall hfree ?_
  rintro _ ⟨⟩

/-- A token, which the first character and the exceptions decide. -/
theorem Legible.of_token {e : Expr} {r : Rule} (as : List Ahead) (exceptions : List Rule)
    (hheaded : Headed e.chars) (hr : r ∈ operandRules) (htoken : isSolid r = true)
    (hsolid : as.all solid = true) (hbegins : ∀ rest, Cut rest → Begins as (e.chars ++ rest))
    (hcheck : (operandRules.takeWhile (· ≠ r)).all (fun q =>
      exceptions.contains q || expression.decides as (.rule q) .fails) = true)
    (hfail : ∀ rest, Cut rest → ∀ q ∈ exceptions, Fails (.rule q) (e.chars ++ rest))
    (htakes : ∀ rest, Cut rest → Takes (rulePattern r) e.chars rest)
    (hbuild : ∀ span, ∃ e', Build.item (.leaf r span e.chars) = .operand (.ok e') ∧
      e'.isOperand = true ∧ e'.bare = e.bare) : Legible e := by
  refine of_operand hheaded fun rest more hcut hskip => ?_
  have hleaf := (htakes rest hcut).eats htoken hskip
  rw [operandPart_eq]
  refine (eats_oneOf_except exceptions hr (hbegins rest hcut) hsolid hcheck
    (hfail rest hcut) hleaf).imp ?_
  rintro _ ⟨_, rfl, span, rfl⟩
  obtain ⟨e', hitem, hoperand, hbare⟩ := hbuild span
  exact primary_operand hitem hoperand hbare

theorem item_operand_leaf {r : Rule} (hr : r ∈ operandRules) (span : Span) (cs : List Char) :
    Build.item (.leaf r span cs) = .operand (Build.literal r span cs) := by
  have hplain : ∀ r ∈ operandRules, r.isOperator = false := by decide
  have hr := hplain r hr
  refine Build.item_leaf ?_ ?_ span cs
  · rintro op rfl
    cases hr
  · rintro op rfl
    cases hr

/-- A name is none of the constants. -/
theorem fails_constant_of_isName {n : String} (hn : isName n = true) {rest : List Char}
    (hrest : WordEnds rest) : ∀ q ∈ [Rule.boolean, .none], Fails (.rule q) (n.toList ++ rest) := by
  rw [isName, Bool.and_eq_true, Bool.not_eq_true', ← Bool.not_eq_true, List.contains_iff_mem] at hn
  have hall := all_isWordChar_of_isWord hn.1
  have hother : ∀ words : List String, words ⊆ reservedWords →
      ∀ w ∈ words, w.toList ≠ leadingWord (n.toList ++ rest) := by
    intro words hsub w hw heq
    rw [leadingWord_append hall hrest, String.toList_inj] at heq
    exact hn.2 (heq ▸ hsub hw)
  intro q hq
  simp only [List.mem_cons, List.not_mem_nil, or_false] at hq
  rcases hq with rfl | rfl
  · exact fails_words ["True", "False"] rfl rfl (by decide) (hother _ (by decide))
  · exact fails_words ["None"] rfl rfl (by decide) (hother _ (by decide))

theorem isWord_of_isName {n : String} (hn : isName n = true) : isWord n.toList = true := by
  rw [isName, Bool.and_eq_true] at hn
  exact hn.1

theorem legible_name (span : Span) {n : String} (hn : isName n = true) :
    Legible (.name span n) := by
  refine Legible.of_token letterStarts [.boolean, .none] (headed_name hn) (r := .ident) (by decide)
    rfl (by decide) (fun rest _ => begins_word (isWord_of_isName hn) rest) (by decide)
    (fun rest hcut => fails_constant_of_isName hn hcut.word)
    (fun rest hcut => takes_ident hn hcut.word) ?_
  intro span'
  refine ⟨.name span' n, ?_, rfl, rfl⟩
  have htext : (Expr.name span n).chars = n.toList := rfl
  rw [htext, item_operand_leaf (by decide), Build.literal, String.ofList_toList]

theorem legible_natural (span : Span) {n : Int64} (hn : 0 ≤ n.toInt) :
    Legible (.literal span (.int n)) := by
  have hchars := Expr.chars_natural span hn
  have hinteger := integerText_toDigits n.toInt.natAbs
  have hdigits := isDigit_of_mem_decimal (n := n.toInt.natAbs)
  have hheaded : Headed (Nat.toDigits 10 n.toInt.natAbs) := by
    refine headed_word Nat.toDigits_ne_nil ?_ ?_
    · rw [List.all_eq_true]
      intro c hc
      simp [isWordChar, Char.isAlphanum, hdigits c hc]
    · intro v hv heq
      have hnone : ∀ v ∈ reservedWords, v.toList.all Char.isDigit = false := by decide
      have hall := hnone v hv
      rw [heq, List.all_eq_true.mpr hdigits] at hall
      cases hall
  refine Legible.of_token digitStarts [.float] (hchars ▸ hheaded) (r := .integer) (by decide) rfl
    (by decide) (fun rest _ => hchars ▸ begins_integer hinteger rest) (by decide) ?_ ?_ ?_
  · intro rest hcut q hq pos
    rw [List.mem_singleton.mp hq, hchars]
    exact float_fails hinteger hcut pos
  · intro rest hcut
    rw [hchars]
    exact takes_integer hinteger hcut.word
  · intro span'
    refine ⟨.literal span' (.int n), ?_, rfl, rfl⟩
    have hread : readInteger? (Nat.toDigits 10 n.toInt.natAbs) = some n := by
      rw [readInteger?_toDigits, Int.natAbs_of_nonneg hn, fitInt64_toInt]
    rw [hchars, item_operand_leaf (by decide), Build.literal, hread]

theorem legible_constant (r : Rule) {e : Expr} {w : String} {words : List String}
    (hchars : e.chars = w.toList) (hw : w ∈ constantWords) (hr : r ∈ [.boolean, .none])
    (hpattern : rulePattern r = anyWord words) (hwords : Separate words) (hmem : w ∈ words)
    (hcheck : (operandRules.takeWhile (· ≠ r)).all (fun q =>
      expression.decides [⟨w.toList, false⟩] (.rule q) .fails) = true)
    (hbuild : ∀ span, ∃ e', Build.item (.leaf r span w.toList) = .operand (.ok e') ∧
      e'.isOperand = true ∧ e'.bare = e.bare) : Legible e := by
  have hconstants : ∀ w ∈ constantWords, w.toList ≠ [] ∧ solid ⟨w.toList, false⟩ = true := by
    decide
  obtain ⟨hne, hsolid⟩ := hconstants w hw
  have hrules : ∀ r ∈ [Rule.boolean, .none], r ∈ operandRules ∧ isSolid r = true := by decide
  have hheaded : Headed w.toList := by
    refine headed_word hne (hwords.chars w hmem) fun v _ heq => ?_
    rwa [String.toList_inj.mp heq]
  refine Legible.of_token [⟨w.toList, false⟩] [] (hchars ▸ hheaded) (hrules r hr).1 (hrules r hr).2
    (by simp [hsolid]) ?_ (by simpa using hcheck) (fun _ _ => nofun) ?_ (hchars ▸ hbuild)
  · intro rest _
    rw [hchars]
    exact begins_known rest rfl
  · intro rest hcut
    rw [hchars, hpattern]
    exact takes_anyWord_of_mem hwords hmem hcut.word

theorem legible_none (span : Span) : Legible (.literal span .none) := by
  have hwords : Separate ["None"] := ⟨by decide, by decide⟩
  exact legible_constant .none rfl (by decide) (by decide) rfl hwords (by decide) (by decide)
    fun span' => ⟨.literal span' .none, item_operand_leaf (by decide) _ _, rfl, rfl⟩

theorem legible_bool (span : Span) (b : Bool) : Legible (.literal span (.bool b)) := by
  have hwords : Separate ["True", "False"] := ⟨by decide, by decide⟩
  cases b with
  | true =>
    exact legible_constant .boolean rfl (by decide) (by decide) rfl hwords (by decide) (by decide)
      fun span' =>
        ⟨.literal span' (.bool true), item_operand_leaf (by decide) _ _, rfl, rfl⟩
  | false =>
    exact legible_constant .boolean rfl (by decide) (by decide) rfl hwords (by decide) (by decide)
      fun span' =>
        ⟨.literal span' (.bool false), item_operand_leaf (by decide) _ _, rfl, rfl⟩

end SafeExpr
