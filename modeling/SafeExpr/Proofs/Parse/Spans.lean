/-
  SafeExpr/Proofs/Parse/Spans.lean
  ================================
  **What parsing a text reports, it reports at a place of the text.**

  A parsed tree stands in its place, with all its nodes.  A failure points into the text at
  whatever stage it arises: at a bracket, where reading gets stuck, at an operator that
  nests too deep, at a literal or an argument, or at the whole tree.
-/
import SafeExpr.Parse.Basic
import SafeExpr.Proofs.Parse.Placed

namespace SafeExpr

open Grammar (Laid)

variable {source : List Char}

/-- Nothing is said of the outcome, but a failure points into the text. -/
abbrev ReportsInto {α : Type} (source : List Char) (m : Built α) : Prop :=
  m.Satisfies (fun _ => True) fun err => err.span.PointsInto source

/-! ### Limits -/

theorem utf8Size_of_isOpening {c : Char} (h : isOpening c = true) : c.utf8Size = 1 := by
  simp only [isOpening, Bool.or_eq_true, decide_eq_true_eq] at h
  rcases h with (rfl | rfl) | rfl <;> rfl

/-- Brackets stand between the boundaries of characters. -/
theorem openings_boundary (region : Region) (depth pos : Nat) (cs : List Char)
    (h : (Cursor.mk pos cs).In source) :
    ∀ o ∈ openings region depth pos cs, IsBoundary source o.1 ∧ IsBoundary source (o.1 + 1) := by
  fun_induction openings region depth pos cs with
  | case1 => exact List.forall_mem_nil _
  | case2 => exact List.forall_mem_nil _
  | case3 q depth pos c rest ih => exact ih (in_behind (in_behind h))
  | case4 q depth pos c rest _ _ ih => exact ih (in_behind h)
  | case5 depth pos c rest ih => exact ih (in_behind h)
  | case6 depth pos c rest hc ih =>
    have hbehind := in_behind h
    rw [utf8Size_of_isOpening hc] at hbehind
    exact List.forall_mem_cons.mpr ⟨⟨h.boundary, hbehind.boundary⟩, ih hbehind⟩
  | case7 depth pos c rest _ _ ih => exact ih (in_behind h)

theorem checkBrackets_reports (maxDepth : Nat) (source : List Char) :
    ReportsInto source (checkBrackets maxDepth source) := by
  unfold checkBrackets
  split
  · next pos depth hfind =>
    obtain ⟨hstart, hstop⟩ := openings_boundary .code 0 0 source (.start source) _
      (List.mem_of_find?_eq_some hfind)
    exact Span.pointsInto (Nat.le_succ pos) hstart hstop
  · trivial

theorem checkLevel_reports {s : Span} (hs : s.PointsInto source) (maxDepth depth : Nat) :
    ReportsInto source (checkLevel maxDepth depth s) := by
  unfold checkLevel
  split
  · exact hs
  · trivial

theorem checkOperatorsAll_reports {maxDepth above : Nat} {ts : List (Tree Rule)}
    (h : ∀ t ∈ ts, ReportsInto source (checkOperators maxDepth above t)) :
    ReportsInto source (checkOperatorsAll maxDepth above ts) := by
  induction ts with
  | nil =>
    rw [checkOperatorsAll]
    trivial
  | cons t ts ih =>
    obtain ⟨hfirst, hrest⟩ := List.forall_mem_cons.mp h
    rw [checkOperatorsAll]
    exact Except.Satisfies.bind hfirst fun _ _ => ih hrest

theorem checkOperators_reports {a z : Nat} {ts : List (Tree Rule)} (h : Laid source a z ts)
    (maxDepth : Nat) :
    ∀ t ∈ ts, ∀ above, ReportsInto source (checkOperators maxDepth above t) := by
  induction h with
  | nil => exact List.forall_mem_nil _
  | leaf hc hstart hread hrest ih =>
    refine List.forall_mem_cons.mpr ⟨?_, ih⟩
    intro above
    rw [checkOperators]
    exact checkLevel_reports (Laid.leaf hc hstart hread hrest).of_cons.2.2.2 _ _
  | node hc hstart hread hchildren hrest ihchildren ih =>
    refine List.forall_mem_cons.mpr ⟨?_, ih⟩
    intro above
    rw [checkOperators]
    have hs := (Laid.node hc hstart hread hchildren hrest).of_cons.2.2.2
    exact Except.Satisfies.bind (checkLevel_reports hs _ _) fun _ _ =>
      checkOperatorsAll_reports fun t ht => ihchildren t ht _

/-! ### Whole texts -/

theorem matchSource_placed (source : List Char) :
    (matchSource source).Satisfies (fun tree => ∃ z, Laid source 0 z [tree])
      fun err => err.span.PointsInto source := by
  have htrail := Grammar.readSource_trail source
  have hread := Grammar.reads_readSource source
  unfold matchSource
  rcases hrun : Grammar.readSource source with ⟨o, trail⟩
  rw [hrun] at htrail hread
  split
  · next d tree more trail' heq =>
    cases heq
    have hlaid := Grammar.laid_of_reads hread d _ rfl (.start source)
    exact ⟨_, hlaid.of_cons.2.1⟩
  · next trail' heq =>
    cases heq
    exact Span.pointsInto_point htrail
  · exact Span.pointsInto_point (.zero source)

/-- A matched tree is laid in its text. -/
theorem laid_of_matchSource {source : List Char} {tree : Tree Rule}
    (h : matchSource source = .ok tree) : ∃ z, Laid source 0 z [tree] := by
  have hplaced := matchSource_placed source
  rw [h] at hplaced
  exact hplaced

namespace Build

theorem source_stands {a z : Nat} {t : Tree Rule} (h : Laid source a z [t]) :
    StandsOne source a z (Build.source t) := by
  unfold Build.source
  split
  · next s span s' s'' word inner more =>
    obtain ⟨ha, hinner, hz, -, -⟩ := h.of_node
    obtain ⟨ha', -, hz', hs, hne⟩ := hinner.of_node
    have hrow : Row source span.start span.stop [.statement span (String.ofList word)] :=
      row_whole rfl (hne rfl) hs rfl (.nil hs.start_le_stop)
    exact hrow.widen (Nat.le_trans ha ha') (Nat.le_trans hz'.le hz.le)
  · next s span target s' s'' op value more =>
    obtain ⟨ha, hinner, hz, -, -⟩ := h.of_node
    obtain ⟨ha', hparts, hz', hs, hne⟩ := hinner.of_node
    obtain ⟨-, htarget, hvalue, -⟩ := hparts.of_cons
    have hop : ReportsInto source (assignOp op) := by
      unfold assignOp
      split <;> first | trivial | exact Span.pointsInto_point (.zero source)
    refine Except.Satisfies.bind (expr_stands target _ _ htarget) fun t ht => ?_
    refine Except.Satisfies.bind hop fun op _ => ?_
    refine Except.Satisfies.bind (expr_stands value _ _ hvalue.tail) fun v hv => ?_
    have hrow : Row source span.start span.stop [.assign span op t v] :=
      row_whole rfl (hne rfl) hs rfl (ht.append hv)
    exact hrow.widen (Nat.le_trans ha ha') (Nat.le_trans hz'.le hz.le)
  · next s e more _ _ =>
    obtain ⟨ha, hinner, hz, -, -⟩ := h.of_node
    obtain ⟨-, he, hmore, -⟩ := hinner.of_cons
    exact (expr_stands e _ _ he).widen ha (Nat.le_trans hmore.le hz.le)
  · exact stands_malformed _ _ _ _

end Build

/-- **A parsed tree stands in its text, and every failure to parse points into it.** -/
theorem parseWith_stands (maxDepth : Nat) (source : String) :
    (parseWith maxDepth source).Satisfies
      (fun e => ∃ z, Row source.toList 0 z [e]) fun err => err.span.PointsInto source.toList := by
  unfold parseWith
  generalize source.toList = cs
  dsimp only
  apply Except.Satisfies.bind (checkBrackets_reports maxDepth cs)
  intro _ _
  apply Except.Satisfies.bind (matchSource_placed cs)
  rintro tree ⟨z, htree⟩
  have hoperators := checkOperators_reports htree maxDepth tree (List.mem_singleton_self _) 0
  apply Except.Satisfies.bind hoperators
  intro _ _
  apply Except.Satisfies.bind (Build.source_stands htree)
  intro e he
  split
  · exact he.of_single.2.2.2.1
  · exact ⟨z, he⟩

end SafeExpr
