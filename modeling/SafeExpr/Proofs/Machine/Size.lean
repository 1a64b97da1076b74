/-
  SafeExpr/Proofs/Machine/Size.lean
  =================================
  **A text has a byte for whatever is counted in it.**

  The nodes of a tree and the levels of the matched nodes are counted in sizes.  Each node of
  the tree is made from a matched node that has read a byte of its own; what a pattern leaves
  over for the node around it is seen from the pattern alone (`spare`).  The levels, in turn,
  are no more than the nodes, since every expression has an operand.
-/
import SafeExpr.Proofs.Grammar.Placed
import SafeExpr.Proofs.Machine.Precedence
import SafeExpr.Proofs.Parse.Size

namespace SafeExpr.Machine

open Grammar (Laid Reads Shape OfRule expression isSolid rulePattern)
open Outcome (matched)

/-! ### Bytes to spare -/

/-- The bytes that a rule reads beyond those that pay for its nodes. -/
def spareRule : Rule → Nat
  | .statementKeyword | .assignOp | .compFor | .keyword _ => 1
  | _ => 0

/-- The bytes that a pattern reads at least, beyond those that pay for the nodes it leaves. -/
def spare : Pattern Rule → Nat
  | .text cs => byteLength cs
  | .char _ => 1
  | .rule r => spareRule r
  | .seq p q => spare p + spare q
  | .choice p q => min (spare p) (spare q)
  | .endOfText | .optional _ | .many _ | .unless _ => 0

/-- The same for a repetition that goes on. -/
def spareGoal : Grammar.Goal Rule → Nat
  | .one p => spare p
  | .more _ => 0

/-- Every rule pays for its own nodes. -/
theorem ownNodes_add_spareRule_le (r : Rule) :
    ownNodes r + spareRule r ≤ spare (rulePattern r) := by
  cases r with
  | before op => cases op <;> decide
  | between op => cases op <;> decide
  | keyword k => cases k <;> decide
  | _ => decide

theorem weightAll_append (ts us : List (Tree Rule)) :
    weightAll (ts ++ us) = weightAll ts + weightAll us := by
  induction ts with
  | nil => exact (Nat.zero_add _).symm
  | cons t ts ih => rw [List.cons_append, weightAll, weightAll, ih, Nat.add_assoc]

/-- The node of a rule weighs what the rule pays for, and what is below it. -/
theorem weightAll_leaves_le (b : Bool) (r : Rule) (c d : Cursor) (ts : List (Tree Rule)) :
    weightAll (expression.leaves b r c d ts) ≤ ownNodes r + weightAll ts := by
  unfold Grammar.leaves
  split
  · exact Nat.zero_le _
  · split
    · exact Nat.le_add_right _ _
    · exact Nat.le_refl _

/-- **A match passes a byte for each node, and those that its pattern has to spare.** -/
theorem weight_of_reads {b : Bool} {goal : Grammar.Goal Rule} {c : Cursor} {o : Outcome Rule}
    (h : Reads expression b goal c o) :
    ∀ d ts, o = matched d ts → c.pos + (weightAll ts + spareGoal goal) ≤ d.pos := by
  induction h with
  | textFails | charFails | endOfTextFails | seqFails | seqFailsLater | ruleFails
  | unlessFails =>
    intro d ts ho
    cases ho
  | text h =>
    rintro d ts ⟨⟩
    rw [(Cursor.passes_of_take? h).pos]
    exact Nat.le_of_eq (congrArg _ (Nat.zero_add _))
  | char h =>
    rintro d ts ⟨⟩
    obtain ⟨x, -, hx⟩ := Cursor.passes_of_char? h
    have := x.utf8Size_pos
    rw [hx.pos, byteLength_cons]
    change _ + (0 + 1) ≤ _
    omega
  | endOfText | optionalSkips | «unless» | manySkips | moreEnds =>
    rintro d ts ⟨⟩
    exact Nat.le_refl _
  | optional hp ih =>
    rintro d ts ⟨⟩
    have := ih _ _ rfl
    change _ + (_ + 0) ≤ _
    omega
  | choice hp ih =>
    rintro d ts ⟨⟩
    have := ih _ _ rfl
    simp only [spareGoal, spare] at this ⊢
    omega
  | choiceLater hp hq ihp ihq =>
    intro d ts ho
    have := ihq _ _ ho
    simp only [spareGoal, spare] at this ⊢
    omega
  | @seq b p q c d e ts us hp hq ihp ihq =>
    rintro _ _ ⟨⟩
    obtain ⟨blanks, hblanks⟩ := Grammar.gap_passes b d
    have hgap := hblanks.pos_le
    have hfirst := ihp _ _ rfl
    have hsecond := ihq _ _ rfl
    rw [weightAll_append]
    simp only [spareGoal, spare] at hfirst hsecond ⊢
    omega
  | many hp hmore ihp ihmore =>
    rintro _ _ ⟨⟩
    have hfirst := ihp _ _ rfl
    have hrest := ihmore _ _ rfl
    rw [weightAll_append]
    simp only [spareGoal, spare] at hfirst hrest ⊢
    omega
  | @more b p c d e ts us hp hmore ihp ihmore =>
    rintro _ _ ⟨⟩
    obtain ⟨blanks, hblanks⟩ := Grammar.gap_passes b c
    have hgap := hblanks.pos_le
    have hfirst := ihp _ _ rfl
    have hrest := ihmore _ _ rfl
    rw [weightAll_append]
    simp only [spareGoal] at hfirst hrest ⊢
    omega
  | @rule b r c d ts hp ih =>
    rintro _ _ ⟨⟩
    have hinner := ih _ _ rfl
    have hpays := ownNodes_add_spareRule_le r
    have hleaves := weightAll_leaves_le b r c d ts
    change _ + (_ + spare (rulePattern r)) ≤ _ at hinner
    change _ + (_ + spareRule r) ≤ _
    omega

/-! ### Levels -/

/-- There are fewer operators than nodes. -/
theorem countP_lt_of_operandFirst {rules : List Rule} (h : operandFirst rules = true) :
    rules.countP Rule.isOperator < rules.length := by
  induction rules with
  | nil => cases h
  | cons r rules ih =>
    have hr := isSome_affix? r
    rw [operandFirst] at h
    rw [List.length_cons, List.countP_cons]
    split at h
    · exact Nat.add_lt_add_of_lt_of_le (ih h) (by split <;> omega)
    · next hnone =>
      rw [hnone] at hr
      rw [if_neg (by rw [← hr]; exact Bool.false_ne_true)]
      exact Nat.lt_succ_of_le List.countP_le_length
    · cases h

/-- Outside of expressions, a node that adds a level makes a node. -/
theorem ownLevels_le_ownNodes {r : Rule} (ts : List (Tree Rule)) (h : r ≠ .expression) :
    ownLevels r ts ≤ ownNodes r := by
  unfold ownLevels
  split
  · exact absurd rfl h
  all_goals
    first
    | exact Nat.le_refl 1
    | exact Nat.zero_le _

/-- The parts of an expression make a node and add no level. -/
theorem ownNodes_of_part {r : Rule} (h : r ∈ partRules) : ownNodes r = 1 := by
  have hall : ∀ r ∈ partRules, ownNodes r = 1 := by decide
  exact hall r h

theorem ownLevels_of_part {r : Rule} (ts : List (Tree Rule)) (h : r ∈ partRules) :
    ownLevels r ts = 0 := by
  have hnone : ∀ r ∈ [Rule.expression, .assignment, .slice, .starred, .doubleStarred,
      .callGenerator], r ∉ partRules := by decide
  unfold ownLevels
  split
  all_goals
    first
    | rfl
    | exact absurd h (hnone _ (by decide))

/-- A node has no more levels than it weighs, and fewer if it adds none. -/
structure Light (t : Tree Rule) : Prop where
  levels_le : levels t ≤ weight t
  levels_lt : t.rule ∈ partRules → levels t < weight t

theorem levelsAll_le {ts : List (Tree Rule)} (h : ∀ t ∈ ts, Light t) :
    levelsAll ts ≤ weightAll ts := by
  induction ts with
  | nil => exact Nat.le_refl 0
  | cons t ts ih =>
    obtain ⟨ht, hts⟩ := List.forall_mem_cons.mp h
    have hfirst := ht.levels_le
    have hrest := ih hts
    rw [levelsAll, weightAll]
    omega

/-- The parts of an expression leave a level to each of them. -/
theorem levelsAll_add_length_le {ts : List (Tree Rule)} (h : ∀ t ∈ ts, levels t < weight t) :
    levelsAll ts + ts.length ≤ weightAll ts := by
  induction ts with
  | nil => exact Nat.le_refl 0
  | cons t ts ih =>
    obtain ⟨ht, hts⟩ := List.forall_mem_cons.mp h
    have hrest := ih hts
    rw [levelsAll, weightAll, List.length_cons]
    omega

/-- **The matched nodes have no more levels than they weigh.** -/
theorem light_of_laid {text : List Char} {a z : Nat} {ts : List (Tree Rule)}
    (h : Laid text a z ts) (hrules : ∀ t ∈ ts, OfRule t.rule t) : ∀ t ∈ ts, Light t := by
  induction h with
  | nil => exact List.forall_mem_nil _
  | @leaf a z r c d ts us hc hstart hread hrest ih =>
    obtain ⟨hr, hts⟩ := List.forall_mem_cons.mp hrules
    refine List.forall_mem_cons.mpr ⟨?_, ih hts⟩
    have hne : r ≠ .expression := by
      rintro rfl
      obtain ⟨s, parts, heq⟩ := OfRule.node hr rfl
      cases heq
    refine ⟨ownLevels_le_ownNodes [] hne, fun hpart => ?_⟩
    change r ∈ partRules at hpart
    rw [levels, weight, ownLevels_of_part [] hpart, ownNodes_of_part hpart]
    exact Nat.zero_lt_one
  | @node a z r c d ts children hc hstart hread hchildren hrest ihchildren ih =>
    obtain ⟨-, hts⟩ := List.forall_mem_cons.mp hrules
    refine List.forall_mem_cons.mpr ⟨?_, ih hts⟩
    have hshape := Grammar.shape_of_reads_rule hread
    have hbelow := ihchildren hshape.ofRule
    have hle := levelsAll_le hbelow
    refine ⟨?_, fun hpart => ?_⟩
    · rw [levels, weight]
      by_cases hr : r = .expression
      · subst hr
        obtain ⟨hfirst, hparts⟩ := operandFirst_expression hshape
        have hfewer := countP_lt_of_operandFirst hfirst
        have hroom := levelsAll_add_length_le fun t ht =>
          (hbelow t ht).levels_lt (hparts _ (List.mem_map_of_mem ht))
        rw [List.countP_map, List.length_map, List.countP_eq_length_filter] at hfewer
        change 1 + (children.filter (·.rule.isOperator)).length + _ ≤ 0 + _
        change (children.filter (·.rule.isOperator)).length < _ at hfewer
        omega
      · exact Nat.add_le_add (ownLevels_le_ownNodes children hr) hle
    · change r ∈ partRules at hpart
      rw [levels, weight, ownLevels_of_part children hpart, ownNodes_of_part hpart]
      omega

/-! ### Whole texts -/

/-- **The levels and the weight of what is matched in a text are no more than its bytes.** -/
theorem size_of_matched {source : List Char} {t : Tree Rule}
    (h : matchSource source = .ok t) :
    levels t ≤ weight t ∧ weight t ≤ byteLength source := by
  have hread := Grammar.reads_readSource source
  unfold matchSource at h
  rcases hrun : Grammar.readSource source with ⟨o, trail⟩
  rw [hrun] at h hread
  split at h
  · next d tree more trail' heq =>
    cases heq
    cases h
    have hlaid := Grammar.laid_of_reads hread d _ rfl (.start source)
    have hshape : Shape (.rule .source) (t :: more) :=
      Grammar.shape_of_reads hread d _ rfl rfl
    have hbytes := weight_of_reads hread d _ rfl
    have hstop := (Grammar.in_of_reads (.start source) hread).boundary.le_length
    rw [weightAll] at hbytes
    exact ⟨(light_of_laid hlaid hshape.ofRule t List.mem_cons_self).levels_le, by omega⟩
  · cases h
  · cases h

end SafeExpr.Machine
