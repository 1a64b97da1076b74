/-
  SafeExpr/Proofs/Parse/ReadBack.lean
  ===================================
  **The text of a tree is read as the tree.**

  Every tree that fits is legible, by induction along its parts: at each node the modules
  before this one need no more of the parts than that they are legible themselves.  A whole
  text is then read as a statement, an assignment or an expression, in this order.
-/
import SafeExpr.Proofs.Except
import SafeExpr.Proofs.Grammar.Source
import SafeExpr.Proofs.Parse.Applied

namespace SafeExpr

open Grammar
open Pattern (lit oneOf)

/-! ### All trees -/

/-- Parentheses around a tree are not in its text. -/
theorem legible_paren (s : Span) {e : Expr} (h : Legible e) : Legible (.paren s e) :=
  ⟨h.headed, h.term⟩

theorem clauseLegible_of_fits {c : Clause Expr} (hfits : c.Fits)
    (h : ∀ e ∈ Expr.clauseParts c, Readable e) : ClauseLegible c where
  targets_ne_nil := hfits.targets_ne_nil
  targets := hfits.targets
  iter := (h _ List.mem_cons_self).legible hfits.iter
  conditions e he := (h e (List.mem_cons_of_mem _ he)).legible (hfits.conditions e he)

/-- **A node is legible if its parts are.** -/
theorem legible_of_children {e : Expr} (hfits : e.Fits) (hsimple : e.isSimple = true)
    (hplace : e.isExpression = true) (h : ∀ c ∈ e.children, Readable c) : Legible e := by
  cases e with
  | literal s v =>
    cases v with
    | none => exact legible_none s
    | bool b => exact legible_bool s b
    | int n => exact legible_natural s hfits
    | float x => cases hsimple
    | str t => cases hsimple
  | name s n => exact legible_name s hfits
  | unary s op e => exact legible_unary s op ((h e (by simp [Expr.children])).legible hfits)
  | paren s e => exact legible_paren s ((h e (by simp [Expr.children])).legible hfits)
  | binary s op l r =>
    exact legible_binary s ((h l (by simp [Expr.children])).legible hfits.1)
      ((h r (by simp [Expr.children])).legible hfits.2) op
  | boolOp s op l r =>
    exact legible_boolOp s ((h l (by simp [Expr.children])).legible hfits.1)
      ((h r (by simp [Expr.children])).legible hfits.2) op
  | named s l r =>
    exact legible_named s ((h l (by simp [Expr.children])).legible hfits.1)
      ((h r (by simp [Expr.children])).legible hfits.2)
  | compare s l links =>
    obtain ⟨hl, hsome, hlinks⟩ := hfits
    refine legible_compare s ((h l List.mem_cons_self).legible hl) hsome fun link hlink => ?_
    have hchild : link.2 ∈ (Expr.compare s l links).children :=
      List.mem_cons_of_mem l (List.mem_map_of_mem hlink)
    exact (h _ hchild).legible (hlinks link hlink)
  | conditional s c yes no =>
    obtain ⟨hc, hyes, hno⟩ := hfits
    exact legible_conditional s ((h yes (by simp [Expr.children])).legible hyes)
      ((h no (by simp [Expr.children])).legible hno) ((h c (by simp [Expr.children])).legible hc)
  | call s f args =>
    obtain ⟨hf, hordered, hargs⟩ := hfits
    refine legible_call hargs (fun arg harg => ?_) s ((h f List.mem_cons_self).legible hf) hordered
    exact h _ (List.mem_cons_of_mem f (List.mem_map_of_mem harg))
  | list s es => exact legible_list s fun e he => ⟨hfits e he, h e he⟩
  | tuple s es => exact legible_tuple s fun e he => ⟨hfits e he, h e he⟩
  | set s es => exact legible_set s hfits.1 fun e he => ⟨hfits.2 e he, h e he⟩
  | dict s entries =>
    refine legible_dict s fun entry hentry => ?_
    have hchild : ∀ x ∈ [entry.1, entry.2], x ∈ (Expr.dict s entries).children :=
      fun x hx => List.mem_flatMap.mpr ⟨entry, hentry, hx⟩
    obtain ⟨hkey, hvalue⟩ := hfits entry hentry
    exact ⟨(h _ (hchild _ (by simp))).legible hkey, (h _ (hchild _ (by simp))).legible hvalue⟩
  | member s e attr =>
    exact legible_member s ((h e (by simp [Expr.children])).legible hfits.1) hfits.2
  | subscript s e i =>
    exact legible_subscript s ((h e (by simp [Expr.children])).legible hfits.1) hfits.2
      (h i (by simp [Expr.children]))
  | lambda s params e =>
    exact legible_lambda s ((h e (by simp [Expr.children])).legible hfits.2) hfits.1
  | comprehension s kind e v clauses =>
    obtain ⟨he, hkind, hv, hsome, hclauses⟩ := hfits
    refine legible_comprehension s ((h e List.mem_cons_self).legible he) (fun x hx => ?_) hkind
      hsome fun c hc => clauseLegible_of_fits (hclauses c hc) fun x hx => ?_
    · have hchild : x ∈ v.toList ++ clauses.flatMap Expr.clauseParts :=
        List.mem_append_left _ (Option.mem_toList.mpr hx)
      exact (h x (List.mem_cons_of_mem e hchild)).legible (hv x hx)
    · have hchild : x ∈ v.toList ++ clauses.flatMap Expr.clauseParts :=
        List.mem_append_right _ (List.mem_flatMap.mpr ⟨c, hc, hx⟩)
      exact h x (List.mem_cons_of_mem e hchild)
  | slice | starred | assign | statement => cases hplace

/-- The parts of what does not stand alone are expressions. -/
theorem isExpression_of_child {e c : Expr} (hfits : e.Fits) (hplace : ¬ e.isExpression = true)
    (hc : c ∈ e.children) : c.isExpression = true := by
  cases e with
  | slice s l u st => exact hfits c hc
  | starred s double x =>
    rw [List.mem_singleton.mp hc]
    exact hfits
  | assign s op l r =>
    simp only [Expr.children, List.mem_cons, List.not_mem_nil, or_false] at hc
    rcases hc with rfl | rfl
    · exact hfits.1
    · exact hfits.2
  | statement => cases hc
  | _ => exact absurd rfl hplace

theorem readable_of_allFit {e : Expr} (hfits : e.AllFit)
    (hsimple : ∀ n ∈ e.nodes, n.isSimple = true) : Readable e := by
  induction e using Expr.induction with
  | step e ih =>
    have hchildren : ∀ c ∈ e.children, Readable c := by
      intro c hc
      exact ih c hc (hfits.child hc) fun n hn => hsimple n (Expr.mem_nodes_of_child hc hn)
    by_cases hplace : e.isExpression = true
    · rw [Readable, if_pos hplace]
      exact legible_of_children hfits.self (hsimple e e.mem_nodes_self) hplace hchildren
    · rw [Readable, if_neg hplace]
      intro c hc
      exact (hchildren c hc).legible (isExpression_of_child hfits.self hplace hc)

/-! ### A whole text -/

def sourceRules : List Rule := [.statement, .assignment, .expression]

/-- The text is read as one node, from which the tree is built but for spans and
    parentheses. -/
def ReadsAs (e : Expr) (cs : List Char) : Prop :=
  ∃ tree e', matchSource cs = .ok tree ∧ Build.source tree = .ok e' ∧ e'.bare = e.bare

/-- A text that is read to its end is matched. -/
theorem matchSource_of_eats {cs : List Char} {P : Tree Rule → Prop} (hcs : Solid cs)
    (h : Eats (oneOf (sourceRules.map .rule)) cs [] (Single P)) :
    ∃ span t ts, matchSource cs = .ok (.node .source span (t :: ts)) ∧ P t := by
  have hend : Eats (.rule .endOfInput) [] [] (Single (IsNode .endOfInput Nothing)) := by
    refine Eats.rule .endOfInput rfl ⟨solid_nil, fun pos => ?_⟩
    exact ⟨_, [], pos, .endOfText rfl, solid_nil.gap_eq false pos, rfl⟩
  have hstart : Eats (.text []) ([] ++ cs) cs Nothing := eats_text hcs.skips
  have hsource := Eats.rule .source rfl ((hstart.skipSeq h).seq hend)
  obtain ⟨d, _, _, hread, -, _, rfl, span, _, rfl, _, ts, rfl, ⟨t, rfl, ht⟩, -⟩ := hsource.reads 0
  exact ⟨span, t, ts, matchSource_eq_ok hread, ht⟩

theorem readsAs_of_eats {e : Expr} {cs : List Char} {P : Tree Rule → Prop} (hcs : Solid cs)
    (h : Eats (oneOf (sourceRules.map .rule)) cs [] (Single P))
    (hbuild : ∀ span t ts, P t → ∃ e', Build.source (.node .source span (t :: ts)) = .ok e' ∧
      e'.bare = e.bare) : ReadsAs e cs := by
  obtain ⟨span, t, ts, hmatch, ht⟩ := matchSource_of_eats hcs h
  obtain ⟨e', he', hbare⟩ := hbuild span t ts ht
  exact ⟨_, e', hmatch, he', hbare⟩

/-- No statement is read where an expression begins. -/
theorem Opens.statement_fails {cs : List Char} (h : Opens cs) : Fails (.rule .statement) cs :=
  .rule (.seq (h.fails_words statementWords rfl rfl (by decide))) rfl

/-- An expression that is all of a text is neither a statement nor an assignment. -/
theorem eats_source {cs : List Char} {P : Tree Rule → Prop} (hopens : Opens cs)
    (h : Eats expr cs [] (Single P)) : Eats (oneOf (sourceRules.map .rule)) cs [] (Single P) := by
  have hend : Begins [.end] [] := ⟨_, List.mem_singleton_self _, [], rfl, fun _ => rfl⟩
  have hop : Fails (.rule .assignOp) [] := fails_of_begins hend (by decide) (by decide)
  have hassignment : Fails (.rule .assignment) cs := .rule (.seq (h.fails hop)) rfl
  exact .choiceLater (Opens.statement_fails hopens) (.choiceLater hassignment h)

theorem readsAs_expression {e : Expr} (h : Legible e) : ReadsAs e e.chars := by
  have hopens := h.opens stops_nil.cut.word
  have hread := h.reads stops_nil
  rw [List.append_nil] at hopens hread
  refine readsAs_of_eats hopens.solid (eats_source hopens hread) ?_
  rintro span t ts ⟨span', parts, e', rfl, he', hbare⟩
  exact ⟨e', by simp only [Build.source, he'], hbare⟩

/-! ### Assignments -/

/-- The operators of assignments but for the plain one, in the order in which they are tried. -/
def assignSigns : List String :=
  ["**=", "//=", ">>=", "<<=", "+=", "-=", "*=", "/=", "%=", "&=", "|=", "^=", "@="]

theorem assignOp_eq :
    rulePattern .assignOp = (oneOf (assignSigns.map lit) ||| lit "=" ++ .unless (lit "=")) := rfl

theorem takes_assignOp (op : AssignOp) (rest : List Char) :
    Takes (rulePattern .assignOp) op.symbol.toList (' ' :: rest) := by
  have hsigns : op = .assign ∨ op.symbol ∈ assignSigns := by
    cases op with
    | assign => exact Or.inl rfl
    | matMul => exact Or.inr (by decide)
    | augmented op => cases op <;> exact Or.inr (by decide)
  rw [assignOp_eq]
  rcases hsigns with rfl | hsign
  · intro pos
    have hbegins : Begins [⟨['='], false⟩] ('=' :: ' ' :: rest) :=
      begins_cons (List.mem_singleton_self _) _
    have hnone : Reads expression true (.one (oneOf (assignSigns.map lit)))
        ⟨pos, '=' :: ' ' :: rest⟩ .failed :=
      reads_failed_of_decides (by decide) hbegins (skipBlanks_of_solid hbegins (by decide))
    have hsecond : Reads expression true (.one (.text ['='])) ⟨pos + 1, ' ' :: rest⟩ .failed := by
      refine .textFails (take?_eq_none ?_ _)
      rintro ⟨cs, ⟨⟩⟩
    have hplain := Reads.seq (takes_text ['='] (' ' :: rest) pos) (.unless hsecond)
    exact .choiceLater hnone hplain
  · have hchars : ∀ v ∈ assignSigns, v.toList.all (· ≠ ' ') = true := by decide
    intro pos
    refine .choice (takes_oneOf (by decide) hsign (fun v hv => ?_) pos)
    exact prefix_of_ends (hchars v hv) (by simp)

theorem build_assignOp (op : AssignOp) : Build.assignOp op.symbol.toList = .ok op := by
  cases op with
  | assign => rfl
  | matMul => rfl
  | augmented op => cases op <;> rfl

/-- What is read as the operator of an assignment is one. -/
theorem assignOp_of_reads {c d : Cursor} {ts : List (Tree Rule)}
    (h : Reads expression true (.one (rulePattern .assignOp)) c (.matched d ts)) :
    ∃ op, Build.assignOp (c.upTo d) = .ok op := by
  have hsigns : ∀ w ∈ assignSigns, (Build.assignOp w.toList).toOption.isSome = true := by decide
  rw [assignOp_eq] at h
  cases h with
  | choice h =>
    obtain ⟨w, hw, hpasses⟩ := oneOf_of_reads h
    obtain ⟨op, hop⟩ := Option.isSome_iff_exists.mp (hsigns w hw)
    rw [hpasses.upTo_eq]
    exact ⟨op, Except.toOption_eq_some_iff.mp hop⟩
  | choiceLater _ h =>
    cases h with
    | seq hequals hnext =>
      cases hequals with
      | text htake =>
        cases hnext
        have hpasses := Cursor.passes_of_take? htake
        exact ⟨.assign, congrArg Build.assignOp hpasses.upTo_eq⟩

/-- The operator of an assignment is none between expressions: its equals sign begins no
    term. -/
theorem ends_assignOp (op : AssignOp) (rest : List Char) :
    Ends (' ' :: (op.symbol.toList ++ ' ' :: rest)) (op.symbol.toList ++ ' ' :: rest) ∧
      Fails (infixPart ++ termPart) (op.symbol.toList ++ ' ' :: rest) := by
  cases op with
  | assign => exact ⟨ends_blank (by decide) (by decide) _, equals_fails (by simp)⟩
  | matMul =>
    have hbegins : Begins [⟨['@'], false⟩] ('@' :: '=' :: ' ' :: rest) :=
      begins_cons (List.mem_singleton_self _) _
    exact ⟨ends_blank (by decide) (by decide) _,
      .seq (between_fails [] hbegins (by decide) (by decide) (List.forall_mem_nil _))⟩
  | augmented op =>
    have hsymbol : (AssignOp.augmented op).symbol.toList = op.symbol.toList ++ ['='] :=
      String.toList_append
    have hequals : Solid ('=' :: ' ' :: rest) := solid_cons (by decide) _
    have hnext : '=' ∈ [' ', '='] := by simp
    have hread := eats_binary op hnext hequals.skips
    rw [hsymbol, List.append_assoc, List.singleton_append]
    refine ⟨?_, hread.fails (fails_at (by decide) (by decide) _)⟩
    cases op <;> exact ends_blank (by decide) (by decide) _

theorem readsAs_assign (s : Span) (op : AssignOp) {l r : Expr} (hl : Legible l)
    (hr : Legible r) : ReadsAs (.assign s op l r) (Expr.assign s op l r).chars := by
  have hopensRight := hr.opens stops_nil.cut.word
  have hright := hr.reads stops_nil
  rw [List.append_nil] at hopensRight hright
  obtain ⟨hends, hbetween⟩ := ends_assignOp op r.chars
  have hopens := hl.opens hends.cut.word
  have hop := (takes_assignOp op r.chars).eats (r := .assignOp) rfl hopensRight.solid.skips.blank
  have hread := Eats.rule .assignment rfl
    (((hl.reads_before hends hbetween).seq hop).seq hright)
  have htext : (Expr.assign s op l r).chars =
      l.chars ++ ' ' :: (op.symbol.toList ++ ' ' :: r.chars) := by
    rw [Expr.chars_assign]
    simp
  rw [htext]
  refine readsAs_of_eats hopens.solid
    (.choiceLater (Opens.statement_fails hopens) (.choice hread)) ?_
  rintro span _ ts ⟨span', _, rfl, _, _, rfl, ⟨_, _, rfl, ⟨_, rfl, sl, ls, l', rfl, hl', hbare⟩, _,
    rfl, so, rfl⟩, _, rfl, sr, rs, r', rfl, hr', hbare'⟩
  refine ⟨.assign span' op l' r', ?_, by rw [Expr.bare, Expr.bare, hbare, hbare']⟩
  simp only [List.cons_append, List.nil_append, Build.source, hl', hr', build_assignOp]
  rfl

/-! ### Statements -/

theorem readsAs_statement (s : Span) {keyword : String} (hword : keyword ∈ statementWords) :
    ReadsAs (.statement s keyword) (Expr.statement s keyword).chars := by
  have hdots : " ...".toList = ' ' :: ['.', '.', '.'] := by decide
  have hsolid : Solid (keyword.toList ++ " ...".toList) := by
    have hstart : ∀ w ∈ statementWords, solid ⟨w.toList, false⟩ = true := by decide
    have hbegins : Begins [⟨keyword.toList, false⟩] (keyword.toList ++ " ...".toList) :=
      begins_known _ rfl
    exact solid_of_begins hbegins (by simp [hstart keyword hword])
  have hskip : Skips " ...".toList ['.', '.', '.'] := by
    rw [hdots]
    exact (solid_cons (by decide) _).skips.blank
  have hends : WordEnds " ...".toList := by
    rw [hdots]
    exact wordEnds_blank _
  have htakes : Takes (rulePattern .statementKeyword) keyword.toList " ...".toList :=
    takes_anyWord_of_mem separate_statementWords hword hends
  have hmore : TakesMore (.char fun _ => true) ['.', '.', '.'] [] := by
    refine takesMore_chars rfl ?_
    rintro _ ⟨⟩
  have hrest : Takes (rulePattern .statementBody) ['.', '.', '.'] [] := hmore.many
  have hbody := hrest.eats (r := .statementBody) rfl solid_nil.skips
  rw [List.append_nil] at hbody
  have hread := Eats.rule .statement rfl ((htakes.eats rfl hskip).seq hbody)
  rw [Expr.chars_statement]
  refine readsAs_of_eats hsolid (.choice hread) ?_
  rintro span _ ts ⟨span', _, rfl, _, _, rfl, ⟨_, rfl, sw, rfl⟩, _, rfl, sb, rfl⟩
  refine ⟨.statement span' keyword, ?_, rfl⟩
  simp only [List.singleton_append, Build.source, String.ofList_toList]

/-- **The text of a tree is read as the tree**, but for spans and parentheses. -/
theorem readsAs_of_fits {e : Expr} (hplace : e.isSource = true) (hfits : e.AllFit)
    (hsimple : ∀ n ∈ e.nodes, n.isSimple = true) : ReadsAs e e.chars := by
  have hreadable := readable_of_allFit hfits hsimple
  by_cases he : e.isExpression = true
  · exact readsAs_expression (hreadable.legible he)
  · rw [Readable, if_neg he] at hreadable
    cases e with
    | assign s op l r =>
      exact readsAs_assign s op (hreadable l (by simp [Expr.children]))
        (hreadable r (by simp [Expr.children]))
    | statement s keyword => exact readsAs_statement s hfits.self
    | slice | starred => cases hplace
    | _ => exact absurd rfl he

end SafeExpr
