/-
  SafeExpr/Proofs/Parse/Comprehension.lean
  ========================================
  **Reading back comprehensions.**

  The parts of a clause are told apart by their words only.  An `if` behind an expression
  might begin a conditional; it does not here, since no `else` follows what is behind it.
  That no `else` follows is therefore carried along from the end of the clauses to their
  beginning (`ClauseEnds`).
-/
import SafeExpr.Proofs.Parse.Listed

namespace SafeExpr

open Grammar
open Pattern (lit commaList)

/-! ### Clauses -/

/-- A clause can end there: neither a conditional nor a condition goes on. -/
structure ClauseEnds (rest more : List Char) : Prop extends Stops rest more where
  noElse : Fails (keyword .else) more
  noIf : Fails (.rule .compIf) more

/-- The node of a condition. -/
def ConditionMeans (e : Expr) (t : Tree Rule) : Prop :=
  ∃ span k i, t = .node .compIf span [k, i] ∧ Means e i

/-- The node of a clause. -/
def ClauseMeans (c : Clause Expr) (t : Tree Rule) : Prop :=
  ∃ span k targets k' i tests, t = .node .compFor span (k :: targets :: k' :: i :: tests) ∧
    Named c.targets targets.children ∧ Means c.iter i ∧
      List.Forall₂ ConditionMeans c.conditions tests

theorem clauseEnds_closing {c : Char} (hc : c ∈ closingChars) (rest : List Char) :
    ClauseEnds (c :: rest) (c :: rest) :=
  ⟨stops_closing hc rest, fails_at_closing hc (by decide) rest,
    fails_at_closing hc (by decide) rest⟩

theorem begins_keyword (k : Keyword) (cs : List Char) :
    Begins [⟨k.word.toList ++ [' '], false⟩] (k.word.toList ++ ' ' :: cs) :=
  begins_known cs (by simp)

theorem conditionText_eq (e : Expr) :
    Expr.conditionText e = ' ' :: (Keyword.if.word.toList ++ ' ' :: e.chars) := by
  have hif : " if ".toList = ' ' :: Keyword.if.word.toList ++ [' '] := by decide
  rw [Expr.conditionText, hif]
  simp

section Clauses

variable {rest more : List Char}

/-- A condition in front of which the expression before it ends. -/
theorem eats_condition {e : Expr} (he : Legible e) (hstops : Stops rest more)
    (helse : Fails (keyword .else) more) :
    ∃ mid, Stops (Expr.conditionText e ++ rest) mid ∧ Fails (keyword .else) mid ∧
      Eats (.rule .compIf) mid more (Single (ConditionMeans e)) := by
  let mid := Keyword.if.word.toList ++ ' ' :: (e.chars ++ rest)
  have hbegins : Begins _ mid := begins_keyword .if (e.chars ++ rest)
  have hword := eats_keyword .if (wordEnds_blank _) (he.opens hstops.cut.word).solid.skips.blank
  have hread := hword.seq (he.reads hstops)
  have hternary : Fails (.rule (.between .ternary)) mid := .rule (hread.fails helse) rfl
  have htext : Expr.conditionText e ++ rest = ' ' :: mid := by
    rw [conditionText_eq]
    simp [mid]
  rw [htext]
  refine ⟨mid, ⟨ends_keyword .if _, .seq ?_, fails_of_begins hbegins (by decide) (by decide)⟩,
    fails_of_begins hbegins (by decide) (by decide), ?_⟩
  · refine between_fails [.between .ternary] hbegins (by decide) (by decide) ?_
    intro q hq
    rw [List.mem_singleton.mp hq]
    exact hternary
  · refine (Eats.rule .compIf rfl hread).imp ?_
    rintro _ ⟨_, rfl, span, _, rfl, _, _, rfl, ⟨k, rfl, hk⟩, i, rfl, hi⟩
    exact ⟨_, rfl, span, k, i, rfl, hi⟩

theorem eatsMore_conditions {es : List Expr} (hes : ∀ e ∈ es, Legible e)
    (hends : ClauseEnds rest more) :
    ∃ mid, Stops (es.flatMap Expr.conditionText ++ rest) mid ∧ Fails (keyword .else) mid ∧
      EatsMore (.rule .compIf) mid more (List.Forall₂ ConditionMeans es) := by
  induction es with
  | nil =>
    refine ⟨more, hends.toStops, hends.noElse, (hends.noIf.more hends.skips.solid).imp ?_⟩
    rintro _ rfl
    exact .nil
  | cons e es ih =>
    obtain ⟨he, hes⟩ := List.forall_mem_cons.mp hes
    obtain ⟨mid, hstops, helse, hmore⟩ := ih hes
    obtain ⟨mid', hstops', helse', hread⟩ := eats_condition he hstops helse
    rw [List.flatMap_cons, List.append_assoc]
    exact ⟨mid', hstops', helse', (EatsMore.cons hread hmore).imp fun _ => forall₂_cons⟩

/-- What a clause needs of its parts to be read. -/
structure ClauseLegible (c : Clause Expr) : Prop where
  targets_ne_nil : c.targets ≠ []
  targets : ∀ n ∈ c.targets, isName n = true
  iter : Legible c.iter
  conditions : ∀ e ∈ c.conditions, Legible e

theorem clauseText_eq (targets : List String) (iter : Expr) (conditions : List Expr)
    (rest : List Char) :
    Expr.clauseText ⟨targets, iter, conditions⟩ ++ rest =
      ' ' :: (Keyword.for.word.toList ++ ' ' ::
        (Expr.nameChars targets ++ ' ' :: (Keyword.in.word.toList ++ ' ' ::
          (iter.chars ++ (conditions.flatMap Expr.conditionText ++ rest))))) := by
  have hfor : " for ".toList = ' ' :: Keyword.for.word.toList ++ [' '] := by decide
  have hin : " in ".toList = ' ' :: Keyword.in.word.toList ++ [' '] := by decide
  have htext : Expr.clauseText ⟨targets, iter, conditions⟩ =
      " for ".toList ++ Expr.nameChars targets ++ " in ".toList ++ iter.chars
        ++ conditions.flatMap Expr.conditionText := rfl
  rw [htext, hfor, hin]
  simp

theorem eats_clause {c : Clause Expr} (hc : ClauseLegible c) (hends : ClauseEnds rest more) :
    ∃ mid, ClauseEnds (Expr.clauseText c ++ rest) mid ∧
      Eats (.rule .compFor) mid more (Single (ClauseMeans c)) := by
  obtain ⟨targets, iter, conditions⟩ := c
  obtain ⟨hsome, htargets, hiter, hconditions⟩ := hc
  obtain ⟨mid, hstops, -, hmore⟩ := eatsMore_conditions hconditions hends
  cases targets with
  | nil => exact absurd rfl hsome
  | cons n names =>
    obtain ⟨hn, hnames⟩ := List.forall_mem_cons.mp htargets
    let behindIn := iter.chars ++ (conditions.flatMap Expr.conditionText ++ rest)
    have hopens : Opens behindIn := hiter.opens hstops.cut.word
    have hin := ends_keyword .in behindIn
    have hcomma : Fails comma (Keyword.in.word.toList ++ ' ' :: behindIn) :=
      fails_of_begins (begins_keyword .in behindIn) (by decide) (by decide)
    have hlist := eats_names hin.cut.word hin.skips hcomma hn hnames
    have htarget := Eats.rule .compTarget rfl hlist
    have hsolid : Solid (Expr.nameChars (n :: names) ++ ' ' ::
        (Keyword.in.word.toList ++ ' ' :: behindIn)) := by
      obtain ⟨_, -, hends', -⟩ := eatsMore_names hin.cut.word hin.skips hcomma hnames
      rw [Expr.nameChars_eq, List.map_cons, separated, List.append_assoc]
      exact ((headed_name hn).opens hends').solid
    have hfor := eats_keyword .for (wordEnds_blank _) hsolid.skips.blank
    have hword := eats_keyword .in (wordEnds_blank behindIn) hopens.solid.skips.blank
    have hread := (((hfor.seq htarget).seq hword).seq (hiter.reads hstops)).seq
      (hmore.many hstops.skips.solid)
    have hbegins := begins_keyword .for
      (Expr.nameChars (n :: names) ++ ' ' :: (Keyword.in.word.toList ++ ' ' :: behindIn))
    rw [clauseText_eq]
    refine ⟨_, ⟨stops_keyword (by simp) _, fails_of_begins hbegins (by decide) (by decide),
      fails_of_begins hbegins (by decide) (by decide)⟩, (Eats.rule .compFor rfl hread).imp ?_⟩
    rintro _ ⟨_, rfl, span, _, rfl, _, tests, rfl, ⟨_, _, rfl, ⟨_, _, rfl, ⟨_, _, rfl, ⟨k, rfl, hk⟩,
      _, rfl, span', ts, rfl, hts⟩, k', rfl, hk'⟩, i, rfl, hi⟩, htests⟩
    exact ⟨_, rfl, span, k, .node .compTarget span' ts, k', i, tests, rfl, hts, hi, htests⟩

theorem eatsMore_clauses {clauses : List (Clause Expr)} (h : ∀ c ∈ clauses, ClauseLegible c)
    {c : Char} (hc : c ∈ closingChars) (rest : List Char) :
    ∃ mid, ClauseEnds (clauses.flatMap Expr.clauseText ++ c :: rest) mid ∧
      EatsMore (.rule .compFor) mid (c :: rest) (List.Forall₂ ClauseMeans clauses) := by
  induction clauses with
  | nil =>
    have hends := clauseEnds_closing hc rest
    have hfor : Fails (.rule .compFor) (c :: rest) := fails_at_closing hc (by decide) rest
    refine ⟨c :: rest, hends, (hfor.more hends.skips.solid).imp ?_⟩
    rintro _ rfl
    exact .nil
  | cons first clauses ih =>
    obtain ⟨hfirst, hclauses⟩ := List.forall_mem_cons.mp h
    obtain ⟨mid, hends, hmore⟩ := ih hclauses
    obtain ⟨mid', hends', hread⟩ := eats_clause hfirst hends
    rw [List.flatMap_cons, List.append_assoc]
    exact ⟨mid', hends', (EatsMore.cons hread hmore).imp fun _ => forall₂_cons⟩

end Clauses

/-- Where what is collected ends, the first clause begins. -/
theorem stops_clauses {clauses : List (Clause Expr)} (hsome : clauses ≠ []) (rest : List Char) :
    ∃ more, Stops (clauses.flatMap Expr.clauseText ++ rest)
      (Keyword.for.word.toList ++ ' ' :: more) := by
  cases clauses with
  | nil => exact absurd rfl hsome
  | cons c clauses =>
    obtain ⟨targets, iter, conditions⟩ := c
    rw [List.flatMap_cons, List.append_assoc, clauseText_eq]
    exact ⟨_, stops_keyword (by simp) _⟩

theorem fails_at_for {p : Pattern Rule}
    (hp : expression.decides [⟨Keyword.for.word.toList ++ [' '], false⟩] p .fails = true)
    (more : List Char) : Fails p (Keyword.for.word.toList ++ ' ' :: more) :=
  fails_of_begins (begins_keyword .for more) (by decide) hp

/-! ### What is built of clauses -/

theorem conditions_of_means {es : List Expr} {ts : List (Tree Rule)}
    (h : List.Forall₂ ConditionMeans es ts) :
    ∃ es', Build.conditions ts = .ok es' ∧ es'.map Expr.bare = es.map Expr.bare := by
  induction h with
  | nil => exact ⟨[], by rw [Build.conditions], rfl⟩
  | cons hfirst hrest ih =>
    obtain ⟨es', hes', hbares⟩ := ih
    obtain ⟨span, k, _, rfl, span', parts, e', rfl, he', hbare⟩ := hfirst
    refine ⟨e' :: es', ?_, by rw [List.map_cons, List.map_cons, hbare, hbares]⟩
    simp only [Build.conditions, he', hes']
    rfl

theorem clauses_of_means {clauses : List (Clause Expr)} {ts : List (Tree Rule)}
    (h : List.Forall₂ ClauseMeans clauses ts) :
    ∃ cs, Build.clauses ts = .ok cs ∧ cs.map Clause.bare = clauses.map Clause.bare := by
  induction h with
  | nil => exact ⟨[], by rw [Build.clauses], rfl⟩
  | @cons c t clauses ts hfirst hrest ih =>
    obtain ⟨cs, hcs, hbares⟩ := ih
    obtain ⟨targets, iter, conditions⟩ := c
    obtain ⟨span, k, names, k', _, tests, rfl, hnames, ⟨span', parts, i, rfl, hi, hiter⟩, htests⟩ :=
      hfirst
    obtain ⟨es, hes, hconditions⟩ := conditions_of_means htests
    refine ⟨⟨targets, i, es⟩ :: cs, ?_, ?_⟩
    · rw [Named] at hnames
      simp only [Build.clauses, hi, hes, hcs, hnames]
      rfl
    · rw [List.map_cons, List.map_cons, hbares, Clause.bare, Clause.bare, hiter, hconditions]

/-! ### Comprehensions -/

section Comprehensions

variable {clauses : List (Clause Expr)} (hsome : clauses ≠ [])
  (hclauses : ∀ c ∈ clauses, ClauseLegible c)

/-- A list is not what is read where a clause stands behind the first part. -/
theorem commaList_fails {p : Pattern Rule} {cs more : List Char} {Q : List (Tree Rule) → Prop}
    (o : Char) {c : Char} (hcs : Solid cs) (h : Eats p cs more Q) (hcomma : Fails comma more)
    (hclose : Fails (.text [c]) more) : Fails (.text [o] ++ commaList p ++ .text [c]) (o :: cs) := by
  have hmany : Eats (.many (comma ++ p)) more more Nothing := (Fails.seq hcomma).many h.solid
  have hlist : Eats (commaList p) cs more _ :=
    ((h.seq hmany).seq (hcomma.optional h.solid)).optional
  exact ((eats_mark o hcs.skips).skipSeq hlist).fails hclose

include hsome

theorem eats_comprehension {element : Pattern Rule} {text : List Char} {P : Tree Rule → Prop}
    (hclauses : ∀ c ∈ clauses, ClauseLegible c) (hel : Listed element text P) (o : Char) {c : Char}
    (hc : c ∈ closingChars) {rest more : List Char} (hskip : Skips rest more) :
    Eats (.text [o] ++ element ++ Pattern.some (.rule .compFor) ++ .text [c])
      (o :: (text ++ (clauses.flatMap Expr.clauseText ++ c :: rest))) more
      (Both (Single P) (List.Forall₂ ClauseMeans clauses)) := by
  cases clauses with
  | nil => exact absurd rfl hsome
  | cons first clauses =>
    obtain ⟨hfirst, hlater⟩ := List.forall_mem_cons.mp hclauses
    obtain ⟨mid, hends, hmore⟩ := eatsMore_clauses hlater hc rest
    obtain ⟨mid', hends', hread⟩ := eats_clause hfirst hends
    have htext : (first :: clauses).flatMap Expr.clauseText ++ c :: rest =
        Expr.clauseText first ++ (clauses.flatMap Expr.clauseText ++ c :: rest) := by
      rw [List.flatMap_cons, List.append_assoc]
    have hsolid := solid_of_begins (hel.starts hends'.cut.word) (by decide)
    have hall := (Eats.some hread hmore hends.skips.solid).imp fun _ => forall₂_cons
    rw [htext]
    exact (((eats_mark o hsolid.skips).skipSeq (hel.reads hends'.toStops)).seq hall).seqSkip
      (eats_mark c hskip)

variable {e : Expr} (he : Legible e)

theorem legible_collecting {f : Expr} {kind : ComprehensionKind} {r : Rule} {o c : Char}
    {element : Pattern Rule} {text : List Char} {P : Tree Rule → Prop} (exceptions : List Rule)
    (hclauses : ∀ c ∈ clauses, ClauseLegible c) (hel : Listed element text P)
    (hchars : f.chars = o :: (text ++ clauses.flatMap Expr.clauseText) ++ [c])
    (ho : o ∈ ['(', '[', '{']) (hc : c ∈ closingChars) (hr : r ∈ operandRules)
    (hnode : isSolid r = false)
    (hpattern : rulePattern r =
      .text [o] ++ element ++ Pattern.some (.rule .compFor) ++ .text [c])
    (hcheck : (operandRules.takeWhile (· ≠ r)).all (fun q =>
      exceptions.contains q || expression.decides [⟨[o], false⟩] (.rule q) .fails) = true)
    (hfail : ∀ rest more, Stops rest (Keyword.for.word.toList ++ ' ' :: more) →
      ∀ q ∈ exceptions, Fails (.rule q) (o :: (text ++ rest)))
    (hitem : ∀ span ts, Build.item (.node r span ts) =
      .operand (Build.comprehension kind span ts))
    (hbuild : ∀ span t ts cs, P t → Build.clauses ts = .ok cs →
      cs.map Clause.bare = clauses.map Clause.bare →
        ∃ f', Build.comprehension kind span (t :: ts) = .ok f' ∧ f'.isOperand = true ∧
          f'.bare = f.bare) : Legible f := by
  refine Legible.display exceptions hchars ho hr hnode hcheck ?_ ?_ ?_
    (Q := Both (Single P) (List.Forall₂ ClauseMeans clauses))
  · intro rest
    obtain ⟨more, hstops⟩ := stops_clauses hsome (c :: rest)
    rw [List.append_assoc]
    exact hfail _ more hstops
  · intro rest more hskip
    rw [hpattern, List.append_assoc]
    exact eats_comprehension hsome hclauses hel o hc hskip
  · rintro span _ ⟨_, ts, rfl, ⟨t, rfl, ht⟩, hts⟩
    obtain ⟨cs, hcs, hbares⟩ := clauses_of_means hts
    rw [List.singleton_append, hitem]
    obtain ⟨f', hf', hoperand, hbare⟩ := hbuild span t ts cs ht hcs hbares
    exact ⟨f', by rw [hf'], hoperand, hbare⟩

end Comprehensions

section Kinds

variable (s : Span) {e : Expr} {clauses : List (Clause Expr)} (he : Legible e)

theorem comprehension_of_means (kind : ComprehensionKind) (span : Span) (t : Tree Rule)
    (ts : List (Tree Rule)) (cs : List (Clause Expr)) (ht : Means e t)
    (hcs : Build.clauses ts = .ok cs) (hbares : cs.map Clause.bare = clauses.map Clause.bare) :
    ∃ f, Build.comprehension kind span (t :: ts) = .ok f ∧ f.isOperand = true ∧
      f.bare = (Expr.comprehension s kind e none clauses).bare := by
  obtain ⟨span', parts, e', rfl, he', hbare⟩ := ht
  refine ⟨.comprehension span kind e' none cs, ?_, rfl, ?_⟩
  · simp only [Build.comprehension, he', hcs]
    rfl
  · rw [Expr.bare, Expr.bare, hbare, Expr.bareClauses_eq, Expr.bareClauses_eq, hbares]

theorem comprehension_of_entry (v : Expr) (span : Span) (t : Tree Rule)
    (ts : List (Tree Rule)) (cs : List (Clause Expr)) (ht : EntryMeans (e, v) t)
    (hcs : Build.clauses ts = .ok cs) (hbares : cs.map Clause.bare = clauses.map Clause.bare) :
    ∃ f, Build.comprehension .dict span (t :: ts) = .ok f ∧ f.isOperand = true ∧
      f.bare = (Expr.comprehension s .dict e (some v) clauses).bare := by
  obtain ⟨span', _, _, rfl, ⟨sk, ks, k, rfl, hk, hkey⟩, sv, vs, x, rfl, hx, hvalue⟩ := ht
  refine ⟨.comprehension span .dict k (some x) cs, ?_, rfl, ?_⟩
  · simp only [Build.comprehension, hk, hx, hcs]
    rfl
  · rw [Expr.bare, Expr.bare, hkey, Expr.bareOption_eq, Expr.bareOption_eq, Option.map_some,
      Option.map_some, hvalue, Expr.bareClauses_eq, Expr.bareClauses_eq, hbares]

include he

/-- What is collected ends in front of the first clause. -/
theorem Legible.item_reads {rest more : List Char} (hstops : Stops rest more) :
    ∃ Q, Eats item (e.chars ++ rest) more Q :=
  ⟨_, Eats.choiceLater ((he.opens hstops.cut.word).fails (by decide)) (he.reads hstops)⟩

theorem legible_listComp (hsome : clauses ≠ []) (hclauses : ∀ c ∈ clauses, ClauseLegible c) :
    Legible (.comprehension s .list e none clauses) := by
  refine legible_collecting (r := .listComp) (o := '[') (c := ']') hsome [.list] hclauses he.listed ?_ (by simp)
    (by decide) (by decide) rfl rfl (by decide) ?_ (fun _ _ => by rw [Build.item])
    (comprehension_of_means s .list)
  · rw [Expr.chars_comprehension]
    simp [ComprehensionKind.brackets, Expr.optionChars]
  · intro rest more hstops q hq
    obtain ⟨Q, hitem⟩ := he.item_reads hstops
    rw [List.mem_singleton.mp hq]
    exact .rule (commaList_fails '[' (he.opens hstops.cut.word).solid hitem
      (fails_at_for (by decide) more) (fails_at_for (by decide) more)) rfl

theorem legible_generator (hsome : clauses ≠ []) (hclauses : ∀ c ∈ clauses, ClauseLegible c) :
    Legible (.comprehension s .generator e none clauses) := by
  refine legible_collecting (r := .generator) (o := '(') (c := ')') hsome [.grouped, .tuple] hclauses he.listed ?_
    (by simp) (by decide) (by decide) rfl rfl (by decide) ?_ (fun _ _ => by rw [Build.item])
    (comprehension_of_means s .generator)
  · rw [Expr.chars_comprehension]
    simp [ComprehensionKind.brackets, Expr.optionChars]
  · intro rest more hstops q hq
    have hopens := he.opens hstops.cut.word
    have hopened := eats_mark '(' hopens.solid.skips
    simp only [List.mem_cons, List.not_mem_nil, or_false] at hq
    rcases hq with rfl | rfl
    · exact .rule ((hopened.skipSeq (he.reads hstops)).fails (fails_at_for (by decide) more)) rfl
    · obtain ⟨Q, hitem⟩ := he.item_reads hstops
      have hcomma : Fails comma (Keyword.for.word.toList ++ ' ' :: more) :=
        fails_at_for (by decide) more
      have hempty := hopened.fails (q := .text [')']) (hopens.fails (by decide))
      exact .rule (hempty.choice (.seq (.seq ((hopened.skipSeq hitem).fails hcomma)))) rfl

theorem legible_setComp (hsome : clauses ≠ []) (hclauses : ∀ c ∈ clauses, ClauseLegible c) :
    Legible (.comprehension s .set e none clauses) := by
  refine legible_collecting (r := .setComp) (o := '\x7b') (c := '\x7d') hsome [.dict, .dictComp, .set] hclauses he.listed ?_
    (by simp) (by decide) (by decide) rfl rfl (by decide) ?_ (fun _ _ => by rw [Build.item])
    (comprehension_of_means s .set)
  · rw [Expr.chars_comprehension]
    simp [ComprehensionKind.brackets, Expr.optionChars]
  · intro rest more hstops q hq
    have hopens := he.opens hstops.cut.word
    have hentry : Fails (.rule .dictEntry) (e.chars ++ rest) :=
      .rule (.seq ((he.reads hstops).fails (fails_at_for (by decide) more))) rfl
    simp only [List.mem_cons, List.not_mem_nil, or_false] at hq
    rcases hq with rfl | rfl | rfl
    · exact dict_fails_at hentry hopens.solid (hopens.fails (by decide))
    · exact dictComp_fails_at hentry hopens.solid
    · obtain ⟨Q, hitem⟩ := he.item_reads hstops
      have hcomma : Fails comma (Keyword.for.word.toList ++ ' ' :: more) :=
        fails_at_for (by decide) more
      have hmore := (Fails.seq (q := item) hcomma).many hitem.solid
      have hread := (((eats_mark '\x7b' hopens.solid.skips).skipSeq hitem).seq hmore).seq
        (hcomma.optional hitem.solid)
      exact .rule (hread.fails (fails_at_for (by decide) more)) rfl

theorem legible_dictComp {v : Expr} (hv : Legible v) (hsome : clauses ≠ [])
    (hclauses : ∀ c ∈ clauses, ClauseLegible c) :
    Legible (.comprehension s .dict e (some v) clauses) := by
  have hentry : Listed (.rule .dictEntry) (Expr.entryText (e, v)) (EntryMeans (e, v)) :=
    listed_entry he hv
  refine legible_collecting (r := .dictComp) (o := '\x7b') (c := '\x7d') hsome [.dict] hclauses hentry ?_ (by simp) (by decide)
    (by decide) rfl rfl (by decide) ?_ (fun _ _ => by rw [Build.item])
    (comprehension_of_entry s v)
  · rw [Expr.chars_comprehension]
    simp [ComprehensionKind.brackets, Expr.optionChars, Expr.entryText]
  · intro rest more hstops q hq
    have hsolid := solid_of_begins (hentry.starts hstops.cut.word) (by decide)
    rw [List.mem_singleton.mp hq]
    exact .rule (commaList_fails '\x7b' hsolid (hentry.reads hstops)
      (fails_at_for (by decide) more) (fails_at_for (by decide) more)) rfl

end Kinds

theorem legible_comprehension (s : Span) {kind : ComprehensionKind} {e : Expr} {v : Option Expr}
    {clauses : List (Clause Expr)} (he : Legible e) (hv : ∀ x ∈ v, Legible x)
    (hkind : v.isSome = true ↔ kind = .dict) (hsome : clauses ≠ [])
    (hclauses : ∀ c ∈ clauses, ClauseLegible c) : Legible (.comprehension s kind e v clauses) := by
  cases v with
  | some v =>
    rw [hkind.mp rfl]
    exact legible_dictComp s he (hv v rfl) hsome hclauses
  | none =>
    cases kind with
    | list => exact legible_listComp s he hsome hclauses
    | set => exact legible_setComp s he hsome hclauses
    | dict => cases hkind.mpr rfl
    | generator => exact legible_generator s he hsome hclauses

end SafeExpr
