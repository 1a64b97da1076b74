/-
  SafeExpr/Proofs/Recursion.lean
  ==============================
  **How deep the grammar recurses.**

  Every rule that leads from an expression back to one puts it into brackets of its own or
  between the two words of a condition; a path that descends from the root of a matched tree
  holds at most one expression beyond those.  The brackets have been counted before the grammar
  reads the text, so only conditions take it deeper than the limit (`expressions_bounded`).
  They do so without a bracket, and as deep as one likes (`expressions_unbounded`): it is the
  check of the matched operators that puts an end to them.
-/
import SafeExpr.Proofs.Nesting
import SafeExpr.Proofs.Parse.Failure

namespace SafeExpr

open Grammar
open Build (Formed)

/-! ### From rule to rule -/

/-- How many expressions a path from a node of the rule may hold beyond one for each node in
    brackets and each condition on it. -/
def Rule.spare : Rule → Nat
  | .source | .assignment | .expression | .callGenerator | .keywordArg | .slice | .sliceLower
  | .sliceUpper | .sliceStep | .dictEntry | .starred | .doubleStarred | .compFor | .compIf => 1
  | _ => 0

/-- The brackets and the condition that a node of the rule stands for. -/
def Rule.guards (r : Rule) : Nat :=
  (if r.isBracketed then 1 else 0) + if r = .between .ternary then 1 else 0

def Rule.ownExpression (r : Rule) : Nat := if r = .expression then 1 else 0

theorem Rule.ownExpression_le (r : Rule) : r.ownExpression ≤ r.spare + r.guards := by
  cases r with
  | expression => decide
  | _ => exact Nat.zero_le _

/-- **A rule hands down no more than it may spare**, which is one for the guard that it is, and
one less for the expression. -/
theorem spare_le (r : Rule) :
    ∀ u ∈ rulesOf (rulePattern r), r.ownExpression + u.spare ≤ r.spare + r.guards := by
  cases r with
  | before op => cases op <;> decide
  | between op => cases op <;> decide
  | keyword k => cases k <;> decide
  | _ => decide

/-- An expression is a level of the tree at least. -/
theorem ownExpression_le_levels (r : Rule) (ts : List (Tree Rule)) :
    r.ownExpression ≤ ownLevels r ts := by
  unfold Rule.ownExpression
  split
  · next hrule =>
    rw [hrule, ownLevels]
    exact Nat.le_add_right 1 _
  · exact Nat.zero_le _

namespace Tree

/-- How many nodes of the rule stand on a path. -/
def occurrences (r : Rule) (path : List (Tree Rule)) : Nat := path.countP (·.rule = r)

/-- How many nodes in brackets and conditions stand on a path. -/
def guards (path : List (Tree Rule)) : Nat :=
  path.countP (·.rule.isBracketed) + occurrences (.between .ternary) path

variable {t u : Tree Rule} {path : List (Tree Rule)}

theorem occurrences_nil (r : Rule) : occurrences r [] = 0 := rfl

theorem occurrences_cons (r : Rule) (t : Tree Rule) (path : List (Tree Rule)) :
    occurrences r (t :: path) = occurrences r path + if t.rule = r then 1 else 0 := by
  simp only [occurrences, List.countP_cons, decide_eq_true_eq]

theorem expressions_cons (t : Tree Rule) (path : List (Tree Rule)) :
    occurrences .expression (t :: path) = occurrences .expression path + t.rule.ownExpression :=
  occurrences_cons .expression t path

theorem guards_nil : guards [] = 0 := rfl

theorem guards_cons (t : Tree Rule) (path : List (Tree Rule)) :
    guards (t :: path) = guards path + t.rule.guards := by
  rw [guards, guards, countP_cons, occurrences_cons, ownBracket, Rule.guards]
  omega

/-! ### Along a path -/

/-- Each expression on a path, but for the one to spare, has a guard of its own. -/
theorem expressions_le (hformed : Formed t) (hpath : Descends (t :: path)) :
    occurrences .expression (t :: path) ≤ t.rule.spare + guards (t :: path) := by
  induction path generalizing t with
  | nil =>
    rw [expressions_cons, guards_cons, occurrences_nil, guards_nil, Nat.zero_add, Nat.zero_add]
    exact t.rule.ownExpression_le
  | cons u path ih =>
    obtain ⟨hu, hrest⟩ := List.isChain_cons_cons.mp hpath
    have hbelow := ih (hformed.child hu) hrest
    have hstep := spare_le t.rule u.rule (hformed.rule_mem hu)
    rw [expressions_cons, guards_cons]
    omega

theorem expressions_le_levels (hpath : Descends (t :: path)) :
    occurrences .expression (t :: path) ≤ levels t := by
  have hown := ownExpression_le_levels t.rule t.children
  induction path generalizing t with
  | nil =>
    rw [expressions_cons, occurrences_nil, levels_eq]
    omega
  | cons u path ih =>
    obtain ⟨hu, hrest⟩ := List.isChain_cons_cons.mp hpath
    have hbelow := ih hrest (ownExpression_le_levels u.rule u.children)
    have hlevels := levels_le_of_mem hu
    rw [expressions_cons, levels_eq]
    omega

/-- Rules that leave no others are not left on the way down. -/
theorem rules_of_descends {rules : List Rule}
    (hclosed : ∀ r ∈ rules, ∀ u ∈ rulesOf (rulePattern r), u ∈ rules) (hformed : Formed t)
    (hpath : Descends (t :: path)) (ht : t.rule ∈ rules) : ∀ u ∈ t :: path, u.rule ∈ rules := by
  induction path generalizing t with
  | nil => exact List.forall_mem_singleton.mpr ht
  | cons u path ih =>
    obtain ⟨hu, hrest⟩ := List.isChain_cons_cons.mp hpath
    have hnext := hclosed t.rule ht u.rule (hformed.rule_mem hu)
    exact List.forall_mem_cons.mpr ⟨ht, ih (hformed.child hu) hrest hnext⟩

end Tree

/-! ### From the text to the root -/

/-- The rules at work in a statement, of which nothing but the first word is read. -/
def statementRules : List Rule := [.statement, .statementKeyword, .statementBody, .endOfInput]

section Match

variable {source : String} {tree : Tree Rule} {path : List (Tree Rule)}

theorem formed_of_match (h : matchSource source.toList = .ok tree) : Formed tree := by
  obtain ⟨_, hlaid⟩ := laid_of_matchSource h
  exact Build.formed_of_laid hlaid

/-- A statement has no node in brackets. -/
theorem no_bracket_of_statement (hmatch : matchSource source.toList = .ok tree)
    (hbody : ¬ tree.IsExpression) (hpath : Tree.Descends (tree :: path)) :
    ∀ t ∈ tree :: path, ¬ t.rule.isBracketed = true := by
  have hsource : tree.rule = .source := (ofRule_of_matchSource hmatch).rule_eq
  have hroot : ¬ tree.rule.isBracketed = true := by
    rw [hsource]
    exact Bool.false_ne_true
  cases path with
  | nil => exact List.forall_mem_singleton.mpr hroot
  | cons t path =>
    obtain ⟨ht, hrest⟩ := List.isChain_cons_cons.mp hpath
    have hformed := formed_of_match hmatch
    have hrule : t.rule ∈ rulesOf (rulePattern .source) := hsource ▸ hformed.rule_mem ht
    have hother : ¬ (t.rule = .expression ∨ t.rule = .assignment) := fun h => hbody ⟨t, ht, h⟩
    have hbegin : ∀ r ∈ rulesOf (rulePattern .source), ¬ (r = .expression ∨ r = .assignment) →
        r ∈ statementRules := by decide
    have hfree : ∀ r ∈ statementRules, ¬ r.isBracketed = true := by decide
    have hstay := Tree.rules_of_descends (by decide) (hformed.child ht) hrest
      (hbegin t.rule hrule hother)
    exact List.forall_mem_cons.mpr ⟨hroot, fun u hu => hfree u.rule (hstay u hu)⟩

/-- The check of the brackets has counted those on every path. -/
theorem brackets_le_of_match (hmatch : matchSource source.toList = .ok tree)
    (hpath : Tree.Descends (tree :: path)) :
    (tree :: path).countP (·.rule.isBracketed) ≤ bracketDepth source.toList := by
  by_cases hbody : tree.IsExpression
  · obtain ⟨-, hgreatest, -⟩ := brackets_measured hmatch hbody
    exact hgreatest.2 ⟨path, hpath, rfl⟩
  · rw [List.countP_eq_zero.mpr (no_bracket_of_statement hmatch hbody hpath)]
    exact Nat.zero_le _

/-- **Between the check of the brackets and the check of the operators, conditions alone take the
recursion beyond the limit.**  On every path of the matched tree one expression stands in another
at most once for each level of brackets within the limit, once more, and once for each condition
on the path.  Where the operators have been checked as well, there are no more than the limit. -/
theorem expressions_bounded {maxDepth : Nat}
    (hbrackets : checkBrackets maxDepth source.toList = .ok ())
    (hmatch : matchSource source.toList = .ok tree) (hpath : Tree.Descends (tree :: path)) :
    Tree.occurrences .expression (tree :: path) ≤
        maxDepth + 1 + Tree.occurrences (.between .ternary) (tree :: path) ∧
      (checkOperators maxDepth 0 tree = .ok () →
        Tree.occurrences .expression (tree :: path) ≤ maxDepth) := by
  constructor
  · have hsource : tree.rule = .source := (ofRule_of_matchSource hmatch).rule_eq
    have hexpressions := Tree.expressions_le (formed_of_match hmatch) hpath
    have hcounted := brackets_le_of_match hmatch hpath
    have hlimit := checkBrackets_ok_iff.mp hbrackets
    rw [hsource, Rule.spare, Tree.guards] at hexpressions
    omega
  · intro hoperators
    have hlevels := (checkOperators_ok_iff tree).mp hoperators
    have hexpressions := Tree.expressions_le_levels hpath
    omega

end Match

/-! ### Conditions in conditions -/

/-- A condition in which another stands, and so on, `n` of them. -/
def conditionChain : Nat → List Char
  | 0 => ['x']
  | n + 1 =>
    ['x'] ++ ' ' :: (Keyword.if.word.toList ++
      ' ' :: (conditionChain n ++ ' ' :: (Keyword.else.word.toList ++ ' ' :: ['x'])))

/-- On a path from the node, `n` expressions stand one in another. -/
def Tree.Recurses (n : Nat) (t : Tree Rule) : Prop :=
  ∃ path, Tree.Descends (t :: path) ∧ Tree.occurrences .expression (t :: path) = n

/-- The condition of an expression is one expression further down. -/
theorem Tree.Recurses.condition {n : Nat} {t : Tree Rule} {us : List (Tree Rule)} {s : Span}
    (h : IsNode (.between .ternary) (fun ts => ∃ k c k', ts = [k, c, k'] ∧ c.Recurses n) t)
    (hmem : t ∈ us) : (Tree.node .expression s us).Recurses (n + 1) := by
  obtain ⟨s', _, rfl, k, c, k', rfl, path, hpath, rfl⟩ := h
  have hchild : c ∈ (Tree.node (.between .ternary) s' [k, c, k']).children :=
    List.mem_cons_of_mem k List.mem_cons_self
  refine ⟨_ :: c :: path, .cons_cons hmem (.cons_cons hchild hpath), ?_⟩
  simp [occurrences_cons, rule]

theorem eats_conditionChain (n : Nat) {rest more : List Char} (hstops : Stops rest more) :
    Opens (conditionChain n ++ rest) ∧
      Eats expr (conditionChain n ++ rest) more (Single (Tree.Recurses (n + 1))) := by
  have hname : Legible (.name default "x") := legible_name default (by decide)
  induction n generalizing rest more with
  | zero =>
    refine ⟨hname.opens hstops.cut.word, (hname.reads hstops).imp ?_⟩
    rintro _ ⟨_, rfl, span, parts, e', rfl, -⟩
    exact ⟨_, rfl, [], .singleton _, rfl⟩
  | succ n ih =>
    have hlast := hname.alone hstops.toEnds
    obtain ⟨hopens, hcond⟩ := ih (stops_keyword (k := .else) (by simp) (['x'] ++ rest))
    have hpair := (eats_ternary hopens (hname.opens hstops.cut.word) hcond).seq hlast
    have hmore := EatsMore.cons hpair (hstops.between.more hstops.skips.solid)
    have hends := ends_keyword .if
      (conditionChain n ++ ' ' :: (Keyword.else.word.toList ++ ' ' :: (['x'] ++ rest)))
    have hread := (hname.alone hends).seq (hmore.many hends.skips.solid)
    have htext : conditionChain (n + 1) ++ rest =
        ['x'] ++ ' ' :: (Keyword.if.word.toList ++
          ' ' :: (conditionChain n ++ ' ' :: (Keyword.else.word.toList ++ ' ' :: (['x'] ++ rest)))) := by
      simp [conditionChain]
    rw [htext]
    refine ⟨hname.opens hends.cut.word, (Eats.rule .expression rfl hread).imp ?_⟩
    rintro _ ⟨_, rfl, span, _, rfl, us, _, rfl, -, _, _, rfl, ⟨_, _, rfl, ⟨t, rfl, ht⟩, -⟩, -⟩
    refine ⟨_, rfl, .condition ht ?_⟩
    simp

/-- Conditions need no bracket. -/
theorem balanced_conditionChain (n : Nat) : Balanced 0 (conditionChain n) := by
  refine .unmarked ?_
  have hif : Keyword.if.word.toList.any isMark = false := by decide
  have helse : Keyword.else.word.toList.any isMark = false := by decide
  have hblank : isMark ' ' = false := by decide
  have hname : isMark 'x' = false := by decide
  induction n with
  | zero => decide
  | succ n ih =>
    simp only [conditionChain, List.any_append, List.any_cons, List.any_nil, hif, helse, hblank,
      hname, ih, Bool.or_false]

/-- **No limit on the brackets bounds the recursion.**  Expressions stand one in another as deep as
one likes in texts that pass the check of the brackets within every limit, each in the condition of
the one before. -/
theorem expressions_unbounded (n : Nat) :
    ∃ (source : String) (tree : Tree Rule) (path : List (Tree Rule)),
      (∀ maxDepth, checkBrackets maxDepth source.toList = .ok ()) ∧
      matchSource source.toList = .ok tree ∧ Tree.Descends (tree :: path) ∧
      n < Tree.occurrences .expression (tree :: path) := by
  obtain ⟨hopens, hread⟩ := eats_conditionChain n stops_nil
  rw [List.append_nil] at hopens hread
  obtain ⟨span, t, ts, hmatch, path, hpath, hcount⟩ :=
    matchSource_of_eats hopens.solid (eats_source hopens hread)
  have hroot : t ∈ (Tree.node .source span (t :: ts)).children := List.mem_cons_self
  refine ⟨String.ofList (conditionChain n), _, t :: path, fun maxDepth => ?_, ?_,
    .cons_cons hroot hpath, ?_⟩
  · rw [String.toList_ofList]
    exact checkBrackets_of_balanced (balanced_conditionChain n) (Nat.zero_le maxDepth)
  · rw [String.toList_ofList]
    exact hmatch
  · rw [Tree.occurrences_cons, hcount]
    omega

end SafeExpr
