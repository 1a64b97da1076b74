/-
  SafeExpr/Proofs/Layout.lean
  ===========================
  **Layout does not matter.**

  A source that is no statement is cut into tokens in one way, and whatever layout is inserted
  between them, the tree stays the same, its spans aside, within the same limit
  (`layout_is_free`).  Behind its first word a statement is raw text.  There layout may be inserted
  wherever the scan of the brackets is in code; in quoted text that is left open it may end the
  quote, and brackets in its comments are then counted (`unclosed_quote_takes_layout`).
-/
import SafeExpr.Proofs.Grammar.Threads
import SafeExpr.Proofs.Nesting
import SafeExpr.Proofs.Parse.Fits
import SafeExpr.Proofs.Parse.Padded

namespace SafeExpr

open Grammar (Reads Tokens Lexeme Longest Follows Gap Layout Solid Relaid Widened AlikeBehind
  expression rulePattern isSolid spell)
open Outcome (matched failed)

/-! ### Whole texts -/

namespace Grammar

open Pattern (oneOf)

/-- What a whole text is: a statement, an assignment or an expression. -/
def bodyPart : Pattern Rule := oneOf [.rule .statement, .rule .assignment, expr]

/-- Where a text begins behind its first gap. -/
def bodyStart (cs : List Char) : Cursor := expression.gap false (.start cs)

theorem bodyStart_append {g rest : List Char} (hgap : Gap g rest) (hrest : Solid rest) :
    bodyStart (g ++ rest) = ⟨byteLength g, rest⟩ := by
  have hskip := hgap.skip hrest 0
  rwa [Nat.zero_add] at hskip

theorem matchSource_of_body {cs : List Char} {d : Cursor} {ts : List (Tree Rule)}
    (h : Reads expression false (.one bodyPart) (bodyStart cs) (matched d ts))
    (hend : (expression.gap false d).rest = []) :
    ∃ s s', matchSource cs = .ok (.node .source s (ts ++ [.node .endOfInput s' []])) := by
  have hempty : Reads expression false (.one (.text [])) (.start cs) (matched (.start cs) []) :=
    .text (take?_nil _)
  have hinput : Reads expression false (.one (.rule .endOfInput)) (expression.gap false d)
      (matched _ _) := Reads.rule (r := Rule.endOfInput) (.endOfText (by rw [hend]; rfl))
  have hwhole : Reads expression false (.one (rulePattern .source)) (.start cs) _ :=
    (hempty.andThen rfl h).andThen rfl hinput
  exact ⟨_, _, matchSource_eq_ok (.rule (r := Rule.source) hwhole)⟩

theorem body_of_matchSource {cs : List Char} {tree : Tree Rule} (h : matchSource cs = .ok tree) :
    ∃ d ts s s', Reads expression false (.one bodyPart) (bodyStart cs) (matched d ts) ∧
      (expression.gap false d).rest = [] ∧
      tree = .node .source s (ts ++ [.node .endOfInput s' []]) := by
  have hread := reads_readSource cs
  unfold matchSource at h
  rcases hrun : readSource cs with ⟨o, trail⟩
  rw [hrun] at h hread
  split at h
  · next d tree' more trail' heq =>
    cases h
    cases heq
    obtain ⟨ts, heq, hsource⟩ := node_of_reads rfl hread
    cases heq
    cases hsource with
    | seq hbefore hend =>
      obtain ⟨_, rfl, hinput⟩ := node_of_reads rfl hend
      cases hinput with
      | endOfText hrest =>
        cases hbefore with
        | seq hempty hbody =>
          cases hempty with
          | text htake =>
            cases htake.symm.trans (take?_nil _)
            exact ⟨_, _, _, _, hbody, List.isEmpty_iff.mp hrest, rfl⟩
  · cases h
  · cases h

/-- No statement is read where the tokens are those of a text in which none is. -/
theorem statement_fails_alike {c c' : Cursor} (halike : Alike c.rest c'.rest)
    (h : Reads expression false (.one (.rule .statement)) c failed) :
    Reads expression false (.one (.rule .statement)) c' failed := by
  rcases c with ⟨pos, cs⟩
  rcases c' with ⟨pos', cs'⟩
  rcases piece_alike (r := .statementKeyword) rfl nofun halike nofun with
    ⟨-, hfail⟩ | ⟨t, xs, ys, rfl, rfl, htakes, -, -⟩
  · exact .ruleFails (.seqFails (hfail pos'))
  · -- behind the word whatever follows is read
    exfalso
    have hword := htakes.leaf (r := .statementKeyword) rfl pos
    cases h with
    | ruleFails h =>
      cases h with
      | seqFails h => cases h.deterministic hword
      | seqFailsLater _ h =>
        cases h with
        | ruleFails h => cases h

theorem tokenwise_body : tokenwise (.rule .assignment ||| expr) = true := by decide

/-- What is read is a statement, or an assignment or an expression where none is. -/
theorem body_kinds {c d : Cursor} {ts : List (Tree Rule)}
    (h : Reads expression false (.one bodyPart) c (matched d ts)) :
    (∃ s us, ts = [.node .statement s us] ∧
      Reads expression false (.one (rulePattern .statement)) c (matched d us)) ∨
    Reads expression false (.one (.rule .statement)) c failed ∧
      Reads expression false (.one (.rule .assignment ||| expr)) c (matched d ts) ∧
      ∃ r s us, ts = [.node r s us] ∧ (r = .expression ∨ r = .assignment) := by
  cases h with
  | choice h =>
    obtain ⟨us, rfl, hread⟩ := node_of_reads rfl h
    exact Or.inl ⟨_, us, rfl, hread⟩
  | choiceLater hstatement h =>
    refine Or.inr ⟨hstatement, h, ?_⟩
    cases h with
    | choice h =>
      obtain ⟨us, rfl, -⟩ := node_of_reads rfl h
      exact ⟨_, _, us, rfl, Or.inr rfl⟩
    | choiceLater _ h =>
      obtain ⟨us, rfl, -⟩ := node_of_reads rfl h
      exact ⟨_, _, us, rfl, Or.inl rfl⟩

/-- **Texts of the same tokens are matched alike**, where the one is no statement. -/
theorem matchSource_alike {cs cs' : List Char} {tree : Tree Rule} (halike : AlikeBehind cs cs')
    (h : matchSource cs = .ok tree) (hbody : tree.IsExpression) :
    ∃ tree', matchSource cs' = .ok tree' ∧ tree'.unplaced = tree.unplaced := by
  obtain ⟨d, ts, s, s', hread, hend, rfl⟩ := body_of_matchSource h
  have hwhole : AlikeBehind (Cursor.start cs).rest (Cursor.start cs').rest := halike
  have hstart : Alike (bodyStart cs).rest (bodyStart cs').rest := hwhole.skip
  rcases body_kinds hread with ⟨_, us, rfl, -⟩ | ⟨hstatement, hread, -⟩
  · simp [Tree.IsExpression, Tree.children, Tree.rule] at hbody
  · obtain ⟨_, hread', _ | ⟨hbehind, hts⟩⟩ :=
      same_of_reads hread rfl tokenwise_body (guard_one rfl) _ hstart
    have hbody' := Reads.choiceLater (statement_fails_alike hstart hstatement) hread'
    have hrest := hbehind.skip
    rw [hend] at hrest
    have hempty := hrest.isEmpty_eq
    obtain ⟨s₁, s₁', hmatch⟩ := matchSource_of_body hbody' (List.isEmpty_iff.mp hempty)
    refine ⟨_, hmatch, ?_⟩
    simp [Tree.unplaced, hts]

/-- **What is matched stands on a way of tokens and gaps**, where it is no statement. -/
theorem threads_of_matchSource {cs : List Char} {tree : Tree Rule} (h : matchSource cs = .ok tree)
    (hbody : tree.IsExpression) :
    ∃ d t s s', Threads (bodyStart cs) d [t] ∧ (expression.gap false d).rest = [] ∧
      tree = .node .source s [t, .node .endOfInput s' []] := by
  obtain ⟨d, ts, s, s', hread, hend, rfl⟩ := body_of_matchSource h
  rcases body_kinds hread with ⟨_, us, rfl, -⟩ | ⟨-, hread, r, s₁, us, rfl, -⟩
  · simp [Tree.IsExpression, Tree.children, Tree.rule] at hbody
  · obtain ⟨hthreads, -⟩ := threads_of_reads hread _ _ rfl rfl tokenwise_body (guard_one rfl)
      (by decide) (fun hopen => by cases hopen) (solid_gap _)
    exact ⟨d, _, s, s', hthreads, hend, rfl⟩

/-- **What is matched is cut into tokens**, where it is no statement. -/
theorem cuts_of_matchSource {cs : List Char} {tree : Tree Rule} (h : matchSource cs = .ok tree)
    (hbody : tree.IsExpression) : Cuts cs := by
  obtain ⟨d, _, _, _, hthreads, hend, -⟩ := threads_of_matchSource h hbody
  have hlast : Cuts d.rest := by
    refine Cuts.of_gap ?_
    rw [hend]
    exact ⟨[], [], rfl, .nil _, .nil⟩
  exact Cuts.of_gap (c := .start cs) (hthreads.leads.cuts hlast)

/-- The words that open a statement are cut off by what follows. -/
theorem statement_of_reads {c d : Cursor} {us : List (Tree Rule)}
    (h : Reads expression false (.one (rulePattern .statement)) c (matched d us)) :
    ∃ keyword rest s more, keyword ∈ statementWords ∧ c.rest = keyword.toList ++ rest ∧
      WordEnds rest ∧ us = .leaf .statementKeyword s keyword.toList :: more := by
  cases h with
  | @seq _ _ _ _ mid _ ts us hword hbody =>
    obtain ⟨_, rfl, hinner⟩ := hword.of_rule
    obtain ⟨w, hw, hpasses⟩ := word_of_reads hinner
    refine ⟨w, mid.rest, ⟨c.pos, mid.pos⟩, us, hw, hpasses.rest, wordEnds_of_reads hinner, ?_⟩
    rw [← hpasses.upTo_eq]
    rfl

/-- **A statement is matched by its word.** -/
theorem matchSource_statement {lead body : List Char} {keyword : String} (hlead : Layout lead)
    (hword : keyword ∈ statementWords) (hends : WordEnds body) :
    ∃ s s' s₁ s₂ s₃ text, matchSource (lead ++ (keyword.toList ++ body)) = .ok (.node .source s
      [.node .statement s₁ [.leaf .statementKeyword s₂ keyword.toList,
        .leaf .statementBody s₃ text], .node .endOfInput s' []]) := by
  have hword' : isWord keyword.toList = true := by
    have hwords : ∀ w ∈ statementWords, isWord w.toList = true := by decide
    exact hwords keyword hword
  have hstart := bodyStart_append (.layout hlead _) ((TokenText.word hword').solid body)
  have hkeyword : Takes (rulePattern .statementKeyword) keyword.toList body :=
    takes_anyWord_of_mem separate_statementWords hword hends
  obtain ⟨pos, rest, hskip⟩ : ∃ pos rest, expression.gap false
      ⟨byteLength lead + byteLength keyword.toList, body⟩ = ⟨pos, rest⟩ := ⟨_, _, rfl⟩
  have hmore : Takes (rulePattern .statementBody) rest [] :=
    TakesMore.many (takesMore_chars (List.all_eq_true.mpr fun _ _ => rfl) (by simp))
  have hraw := hmore.leaf (r := .statementBody) rfl pos
  rw [List.append_nil] at hraw
  have hread := Reads.rule (r := Rule.statement) (b := false)
    ((hkeyword.leaf (r := .statementKeyword) rfl (byteLength lead)).andThen hskip hraw)
  have hbody := Reads.choice (q := oneOf [.rule .assignment, expr]) hread
  rw [← hstart] at hbody
  obtain ⟨s, s', hmatch⟩ := matchSource_of_body hbody (by rw [solid_nil.gap_eq])
  exact ⟨s, s', _, _, _, _, hmatch⟩

end Grammar

/-! ### Expressions and assignments -/

/-- The text opens with the word of a statement. -/
structure OpensWith (keyword : String) (cs lead body : List Char) : Prop where
  text : cs = lead ++ (keyword.toList ++ body)
  lead : Layout lead
  word : keyword ∈ statementWords
  ends : WordEnds body

/-- A source is an expression or an assignment, or it opens with a statement's word. -/
theorem expression_or_statement {cs : List Char} {tree : Tree Rule} {e : Expr}
    (h : matchSource cs = .ok tree) (hbuild : Build.source tree = .ok e) :
    (tree.IsExpression ∧ ∀ span keyword, e ≠ .statement span keyword) ∨
      ∃ span keyword lead body, e = .statement span keyword ∧ OpensWith keyword cs lead body := by
  obtain ⟨z, hlaid⟩ := laid_of_matchSource h
  obtain ⟨d, ts, s, s', hread, hend, rfl⟩ := Grammar.body_of_matchSource h
  rcases Grammar.body_kinds hread with ⟨s₁, us, rfl, hstatement⟩ | ⟨-, -, r, s₁, us, rfl, hr⟩
  · obtain ⟨keyword, rest, s₂, more, hword, hrest, hends, rfl⟩ := Grammar.statement_of_reads hstatement
    obtain ⟨g, body, rfl, hgap, hsolid⟩ := Grammar.exists_gap cs
    rw [Grammar.bodyStart_append hgap hsolid] at hrest
    obtain rfl : body = keyword.toList ++ rest := hrest
    have hlead : Layout g := by
      generalize hbody : keyword.toList ++ rest = body at hgap
      cases hgap with
      | layout hlead => exact hlead
      | comment =>
        have hwords : ∀ w ∈ statementWords, w.toList ≠ [] := by decide
        exact absurd (List.append_eq_nil_iff.mp hbody).1 (hwords keyword hword)
    have he : Expr.statement s₁ (String.ofList keyword.toList) = e :=
      Except.ok.inj hbuild
    rw [String.ofList_toList] at he
    exact Or.inr ⟨s₁, keyword, g, rest, he.symm, rfl, hlead, hword, hends⟩
  · refine Or.inl ⟨⟨_, List.mem_cons_self, hr⟩, fun span keyword heq => ?_⟩
    obtain ⟨-, hlaid, -⟩ := hlaid.of_node.2.1.of_cons
    rcases hr with rfl | rfl
    · have hfits := (Build.expr_fits _ _ _ hlaid).of_ok hbuild
      rw [heq] at hfits
      cases hfits.1
    · subst heq
      rw [List.singleton_append, Build.source.eq_def] at hbuild
      split at hbuild
      · next hshape => cases hshape
      · simp only [Except.bind_eq_ok_iff] at hbuild
        obtain ⟨_, -, _, -, _, -, hassign⟩ := hbuild
        cases hassign
      · next hshape =>
        cases hshape
        cases hbuild
      · cases hbuild

theorem isExpression_of_unplaced {t t' : Tree Rule} (h : t'.unplaced = t.unplaced)
    (ht : t.IsExpression) : t'.IsExpression := by
  obtain ⟨u, hu, hrule⟩ := ht
  have hchildren := congrArg Tree.children h
  rw [Tree.children_unplaced, Tree.children_unplaced] at hchildren
  have hmem : u.unplaced ∈ t'.children.map Tree.unplaced := hchildren ▸ List.mem_map_of_mem hu
  obtain ⟨u', hu', heq⟩ := List.mem_map.mp hmem
  refine ⟨u', hu', ?_⟩
  rwa [← Tree.rule_unplaced u', heq, Tree.rule_unplaced]

/-- **The same tokens in another layout give the same tree**, its spans aside, within the same
limit. -/
theorem parseWith_alike {maxDepth : Nat} {source : String} {e : Expr} {cs : List Char}
    (h : parseWith maxDepth source = .ok e) (he : ∀ span keyword, e ≠ .statement span keyword)
    (halike : AlikeBehind source.toList cs) :
    ∃ e', parseWith maxDepth (String.ofList cs) = .ok e' ∧ e'.unplaced = e.unplaced := by
  obtain ⟨hdepth, tree, hmatch, hlevels, hbuild, hheight⟩ := parseWith_ok_iff.mp h
  rcases expression_or_statement hmatch hbuild with ⟨hexpr, -⟩ | ⟨_, _, _, _, heq, -⟩
  · obtain ⟨tree', hmatch', hsame⟩ := Grammar.matchSource_alike halike hmatch hexpr
    have hbrackets : bracketDepth cs = bracketDepth source.toList := by
      unfold bracketDepth
      rw [(openings_of_match hmatch hexpr).2,
        (openings_of_match hmatch' (isExpression_of_unplaced hsame hexpr)).2,
        ← Tree.brackets_unplaced, hsame, Tree.brackets_unplaced]
    have hbuilt := Build.source_same hsame
    rw [hbuild] at hbuilt
    obtain ⟨e', hbuild', hunplaced⟩ : ∃ e', Build.source tree' = .ok e' ∧
        e'.unplaced = e.unplaced := by
      cases hother : Build.source tree' with
      | error err =>
        rw [hother] at hbuilt
        cases hbuilt
      | ok e' =>
        rw [hother] at hbuilt
        exact ⟨e', rfl, (Option.some.inj hbuilt).symm⟩
    refine ⟨e', parseWith_ok_iff.mpr ?_, hunplaced⟩
    rw [String.toList_ofList]
    refine ⟨hbrackets ▸ hdepth, tree', hmatch', ?_, hbuild', ?_⟩
    · rwa [← levels_unplaced, hsame, levels_unplaced]
    · rwa [Expr.depth_eq_of_unplaced hunplaced]
  · exact absurd heq (he _ _)

/-! ### Statements -/

/-- The brackets of a statement's source are those behind its word. -/
theorem depths_statement {lead body : List Char} {keyword : String} (hlead : Layout lead)
    (hword : keyword ∈ statementWords) (pos : Nat) :
    depths .code 0 0 (lead ++ (keyword.toList ++ body)) = depths .code 0 pos body := by
  have hmarks : ∀ w ∈ statementWords, w.toList.any isMark = false := by decide
  have hpasses : (Cursor.mk (0 + byteLength lead) (keyword.toList ++ body)).Passes
      ⟨0 + byteLength lead + byteLength keyword.toList, body⟩ keyword.toList := ⟨rfl, rfl⟩
  have hscan : openings .code 0 (0 + byteLength lead) (keyword.toList ++ body) =
      openings .code 0 (0 + byteLength lead + byteLength keyword.toList) body :=
    scans_unmarked (hmarks keyword hword) 0 hpasses
  rw [depths_elsewhere .code 0 pos (0 + byteLength lead + byteLength keyword.toList)]
  unfold depths
  rw [openings_layout hlead, hscan]

/-- **A statement is parsed if its brackets, counted as those of code, are within the limit.** -/
theorem parseWith_statement_iff {maxDepth : Nat} {lead body : List Char} {keyword : String}
    (hlead : Layout lead) (hword : keyword ∈ statementWords) (hends : WordEnds body) :
    (∃ span, parseWith maxDepth (String.ofList (lead ++ (keyword.toList ++ body))) =
      .ok (.statement span keyword)) ↔
    (∀ depth ∈ depths .code 0 0 body, depth ≤ maxDepth) ∧ 1 ≤ maxDepth := by
  obtain ⟨s, s', s₁, s₂, s₃, text, hmatch⟩ := Grammar.matchSource_statement hlead hword hends
  have hdepth : bracketDepth (lead ++ (keyword.toList ++ body)) ≤ maxDepth ↔
      ∀ depth ∈ depths .code 0 0 body, depth ≤ maxDepth := by
    rw [bracketDepth, foldr_max_le_iff, ← depths_statement hlead hword]
    rfl
  have hlevels : levels (.node .source s [.node .statement s₁ [.leaf .statementKeyword s₂
      keyword.toList, .leaf .statementBody s₃ text], .node .endOfInput s' []]) = 0 := by
    simp [levels, levelsAll, ownLevels]
  have hone : ∀ span, (Expr.statement span keyword).depth = 1 := fun span => by
    rw [Expr.depth_eq]
    rfl
  simp only [parseWith_ok_iff, String.toList_ofList, hdepth, hmatch, hone]
  constructor
  · rintro ⟨span, hbrackets, tree, -, -, -, hroom⟩
    exact ⟨hbrackets, hroom⟩
  · rintro ⟨hbrackets, hroom⟩
    refine ⟨s₁, hbrackets, _, rfl, hlevels ▸ Nat.zero_le _, ?_, hroom⟩
    simp only [Build.source, String.ofList_toList]

/-! ### Layout between the tokens -/

/-- The text is cut into the tokens, behind a first gap. -/
structure CutInto (cs lead : List Char) (ls : List Lexeme) : Prop where
  text : cs = lead ++ spell ls
  gap : Gap lead (spell ls)
  row : Tokens Longest ls

theorem exists_cut {cs : List Char} {tree : Tree Rule} (h : matchSource cs = .ok tree)
    (hbody : tree.IsExpression) :
    ∃ lead ls, CutInto cs lead ls ∧ Tokens Follows ls := by
  obtain ⟨g, ls, hcs, hgap, hrow⟩ := Grammar.cuts_of_matchSource h hbody
  exact ⟨g, ls, ⟨hcs, hgap, hrow.mono fun _ _ hfollows => hfollows.longest⟩, hrow⟩

theorem CutInto.unique {cs lead lead' : List Char} {ls ls' : List Lexeme} (h : CutInto cs lead ls)
    (h' : CutInto cs lead' ls') : lead' = lead ∧ ls' = ls := by
  obtain ⟨rfl, hspell⟩ :=
    h'.gap.unique h.gap h'.row.solid h.row.solid (h'.text.symm.trans h.text)
  exact ⟨rfl, h'.row.unique h.row hspell⟩

/-- **Layout does not matter.**  A source that is no statement is cut into tokens, and layout on
either side of each gap between them, comments with quotes and brackets included, leaves the tree as
it was but for its spans, within the same limit.  So does layout in front of the word of a statement
and behind it, wherever the scan of the brackets is in code. -/
theorem layout_is_free {maxDepth : Nat} {source : String} {e : Expr}
    (h : parseWith maxDepth source = .ok e) :
    ((∀ span keyword, e ≠ .statement span keyword) →
      (∃ lead ls, CutInto source.toList lead ls) ∧
      ∀ lead ls, CutInto source.toList lead ls →
        ∀ a b ls', Layout a → Layout b → Widened ls ls' →
          ∃ e', parseWith maxDepth (String.ofList (a ++ (lead ++ b) ++ spell ls')) = .ok e' ∧
            e'.unplaced = e.unplaced) ∧
    ∀ span keyword, e = .statement span keyword →
      (∃ lead body, OpensWith keyword source.toList lead body) ∧
      ∀ lead body, OpensWith keyword source.toList lead body →
        ∀ a b body', Layout a → Layout b → Padded body body' →
          ∃ span', parseWith maxDepth
              (String.ofList (a ++ (lead ++ b) ++ (keyword.toList ++ body'))) =
            .ok (.statement span' keyword) := by
  obtain ⟨-, tree, hmatch, -, hbuild, -⟩ := parseWith_ok_iff.mp h
  constructor
  · intro he
    rcases expression_or_statement hmatch hbuild with ⟨hexpr, -⟩ | ⟨_, _, _, _, heq, -⟩
    · obtain ⟨lead, ls, hcut, hfollows⟩ := exists_cut hmatch hexpr
      refine ⟨⟨lead, ls, hcut⟩, fun lead' ls₁ hcut' a b ls' ha hb hwide => ?_⟩
      obtain ⟨rfl, rfl⟩ := hcut'.unique hcut
      have halike := hfollows.alike (hwide.relaid hfollows)
      have hend : spell ls = [] → spell ls' = [] := by
        intro hnil
        have hempty := halike.isEmpty_eq
        rw [hnil] at hempty
        exact List.isEmpty_iff.mp hempty
      have hgap := ((hcut.gap.append hb).prepend ha).change hend
      exact parseWith_alike h he (hcut.text ▸ .intro hcut.gap hgap halike)
    · exact absurd heq (he _ _)
  · rintro span keyword rfl
    rcases expression_or_statement hmatch hbuild with ⟨-, he⟩ | ⟨_, _, lead, body, heq, hopens⟩
    · exact absurd rfl (he _ _)
    · cases heq
      refine ⟨⟨lead, body, hopens⟩, fun lead body hopens a b body' ha hb hpadded => ?_⟩
      have hparsed : ∃ span, parseWith maxDepth
          (String.ofList (lead ++ (keyword.toList ++ body))) = .ok (.statement span keyword) := by
        rw [← hopens.text, String.ofList_toList]
        exact ⟨span, h⟩
      rw [parseWith_statement_iff hopens.lead hopens.word hopens.ends] at hparsed
      rw [parseWith_statement_iff (ha.append (hopens.lead.append hb)) hopens.word
        (hpadded.wordEnds hopens.ends), depths_of_padded hpadded 0 0 0]
      exact hparsed

/-- Comments with brackets and quotes, and a line continuation, among the tokens of a comparison
and behind the word of a statement. -/
theorem layout_is_free_around :
    (∃ e e', parseWith 2 "a<b" = .ok e ∧ parseWith 2 "#)\n a #\"((\n<\\\nb\t" = .ok e' ∧
      e'.unplaced = e.unplaced) ∧
    ∃ span span', parseWith 2 "import x" = .ok (.statement span "import") ∧
      parseWith 2 "\nimport #'((((\n x" = .ok (.statement span' "import") := by
  have hblank : ∀ {c : Char} {g : List Char}, c ∈ " \t\r\n".toList → Layout g → Layout (c :: g) :=
    fun hc hg => .blank hc hg
  have hcomment : ∀ text : List Char, '\n' ∉ text → Layout ('#' :: (text ++ ['\n'])) :=
    fun _ htext => .comment htext .nil
  constructor
  · have hread : (parseWith 2 "a<b").toOption.any Expr.isExpression = true := by decide +kernel
    obtain ⟨e, he, hexpr⟩ := (Option.any_eq_true _ _).mp hread
    rw [Except.toOption_eq_some_iff] at he
    have hnot : ∀ span keyword, e ≠ .statement span keyword := by
      rintro span keyword rfl
      cases hexpr
    have hword : ∀ {t rest : List Char}, isWord t = true → WordEnds rest → Longest t rest :=
      fun ht hrest => Grammar.longest_word ht hrest
    have hsign : Longest "<".toList ['b'] := by
      refine Grammar.longest_operator (by decide) ?_
      rintro _ ⟨⟩
      decide
    have htokens : Tokens Longest [⟨['a'], []⟩, ⟨"<".toList, []⟩, ⟨['b'], []⟩] :=
      .cons (.word (by decide)) (hword (by decide) (Grammar.wordEnds_cons (by decide) _)) (.nil _)
        (.cons (.operator (by decide)) hsign (.nil _)
          (.cons (.word (by decide)) (hword (by decide) nofun) (.nil _) .nil))
    obtain ⟨-, hlayout⟩ := (layout_is_free he).1 hnot
    have hwide : Widened [⟨['a'], []⟩, ⟨"<".toList, []⟩, ⟨['b'], []⟩]
        [⟨['a'], " #\"((\n".toList⟩, ⟨"<".toList, "\\\n".toList⟩, ⟨['b'], ['\t']⟩] :=
      .cons (hblank (by decide) (hcomment "\"((".toList (by decide))) .nil
        (.cons (.continued (.inl rfl) .nil) .nil (.cons (hblank (by decide) .nil) .nil .nil))
    obtain ⟨e', he', hsame⟩ := hlayout [] _ ⟨rfl, .nil _, htokens⟩ "#)\n".toList [' '] _
      (hcomment [')'] (by decide)) (hblank (by decide) .nil) hwide
    exact ⟨e, e', he, he', hsame⟩
  · have hopens : OpensWith "import" "import x".toList [] " x".toList :=
      ⟨rfl, .nil, by decide, Grammar.wordEnds_cons (by decide) _⟩
    obtain ⟨span, hspan⟩ : ∃ span, parseWith 2 "import x" = .ok (.statement span "import") :=
      (parseWith_statement_iff hopens.lead hopens.word hopens.ends).mpr ⟨by decide, by decide⟩
    obtain ⟨-, hlayout⟩ := (layout_is_free hspan).2 span "import" rfl
    have hfront : ScansTo .code [] := fun depth pos => ⟨[], depth, fun rest => rfl⟩
    have hpadded : Padded ([] ++ " x".toList) ([] ++ (" #'((((\n".toList ++ " x".toList)) :=
      .insert hfront (hblank (by decide) (hcomment "'((((".toList (by decide))) (.refl _)
    obtain ⟨span', hspan'⟩ := hlayout [] _ hopens ['\n'] [] _ (hblank (by decide) .nil) .nil hpadded
    exact ⟨span, span', hspan, hspan'⟩

/-- **An open quote takes what is inserted behind it**: there a comment begins no comment, and its
own quote closes the open one, so that its brackets count. -/
theorem unclosed_quote_takes_layout :
    Layout "#\"(((\n".toList ∧
    (∃ span, parseWith 2 "import \"" = .ok (.statement span "import")) ∧
    ∃ span, parseWith 2 ("import \"" ++ "#\"(((\n") = .error ⟨.maxDepthExceeded 3 2, span⟩ := by
  have hopens : OpensWith "import" "import \"".toList [] " \"".toList :=
    ⟨rfl, .nil, by decide, Grammar.wordEnds_cons (by decide) _⟩
  have hline : '\n' ∉ "\"(((".toList := by decide
  refine ⟨.comment hline .nil, ?_, ⟨_, rfl⟩⟩
  exact (parseWith_statement_iff hopens.lead hopens.word hopens.ends).mpr ⟨by decide, by decide⟩

end SafeExpr
