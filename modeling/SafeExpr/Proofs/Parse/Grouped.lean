/-
  SafeExpr/Proofs/Parse/Grouped.lean
  ==================================
  **Reading back operators with their operands.**

  Every operator stands in parentheses with its operands, so the tree inside is that of a
  single node whose operands are terms: it is derived at the tier of the operator, whatever
  the operands are.
-/
import SafeExpr.Proofs.Parse.Term

namespace SafeExpr

open Grammar

/-! ### One operand -/

theorem legible_before {e f : Expr} (op : Before) {lead : List Char} (hf : Legible f)
    (hchars : e.chars = '(' :: (lead ++ f.chars) ++ [')'])
    (hsolid : ∀ cs, Solid (lead ++ cs))
    (hread : ∀ cs, Opens cs → Eats prefixPart (lead ++ cs) cs (Single (MakesBefore op)))
    (hnode : ∀ start items f', Derives .primary items f' → f'.bare = f.bare →
      ∃ e', Derives .lambda (.before start op :: items) e' ∧ e'.bare = e.bare) : Legible e := by
  refine Legible.grouped hchars fun rest => ?_
  have hstops : Stops (')' :: rest) (')' :: rest) := stops_mark (by simp) rest
  have hopens := hf.opens hstops.cut.word
  rw [List.append_assoc]
  refine ⟨hsolid _, ?_⟩
  have hlead := EatsMore.cons (hread _ hopens) (hopens.before_fails.more hopens.solid)
  have hterm := hf.behind (hlead.many (hsolid _)) hstops.toEnds
  have hmore := (hstops.between.more hstops.skips.solid).many hstops.skips.solid
  refine (hterm.seqSkip hmore).imp ?_
  rintro _ ⟨_, us, rfl, ⟨_, _, rfl, ⟨t, rfl, start, ht⟩, rfl⟩, f', hf', hbare⟩
  obtain ⟨e', he', hbare'⟩ := hnode start _ f' hf' hbare
  refine ⟨e', ?_, hbare'⟩
  rwa [List.append_nil, Build.items_append, Build.items, Build.items, ht, List.singleton_append]

theorem legible_unary (s : Span) (op : UnaryOp) {e : Expr} (he : Legible e) :
    Legible (.unary s op e) := by
  refine legible_before (.unary op) he (Expr.chars_unary s e op) ?_ (fun cs => eats_unary op) ?_
  · intro cs
    cases op <;> exact solid_cons (by decide) _
  · intro start items e' he' hbare
    have hbare' : (Expr.unary ⟨start, e'.span.stop⟩ op e').bare = (Expr.unary s op e).bare := by
      rw [Expr.bare, Expr.bare, hbare]
    by_cases hop : op = .not
    · subst hop
      exact ⟨_, (Derives.not start (he'.of_primary .not)).to_lambda, hbare'⟩
    · exact ⟨_, (Derives.sign start op hop (he'.of_primary .sign)).to_lambda, hbare'⟩

theorem legible_lambda (s : Span) {params : List String} {e : Expr} (he : Legible e)
    (hparams : ∀ n ∈ params, isName n = true) : Legible (.lambda s params e) := by
  have hchars : (Expr.lambda s params e).chars =
      '(' :: (("lambda ".toList ++ (Expr.nameChars params ++ [':', ' '])) ++ e.chars) ++ [')'] := by
    rw [Expr.chars_lambda]
    simp
  refine legible_before (.lambda params) he hchars ?_ ?_ ?_
  · exact fun cs => solid_cons (by decide) _
  · intro cs hcs
    rw [List.append_assoc, List.append_assoc]
    exact eats_lambda hparams hcs
  · intro start items e' he' hbare
    refine ⟨_, Derives.lambda start params (he'.of_primary .lambda), ?_⟩
    rw [Expr.bare, Expr.bare, hbare]

/-! ### Two operands -/

theorem legible_between {e l r : Expr} {B : Between → Prop} {sign : List Char} (hl : Legible l)
    (hr : Legible r) (hchars : e.chars = '(' :: (l.chars ++ ' ' :: sign ++ ' ' :: r.chars) ++ [')'])
    (hends : ∀ cs, Ends (' ' :: (sign ++ cs)) (sign ++ cs))
    (hread : ∀ cs, Opens cs → Eats infixPart (sign ++ ' ' :: cs) cs
      (Single fun t => ∃ op, B op ∧ Makes (.between op) t))
    (hnode : ∀ op items items' l' r', B op → Derives .primary items l' →
      Derives .primary items' r' → l'.bare = l.bare → r'.bare = r.bare →
        ∃ e', Derives .lambda (items ++ .between op :: items') e' ∧ e'.bare = e.bare) :
    Legible e := by
  refine Legible.grouped hchars fun rest => ?_
  have hstops : Stops (')' :: rest) (')' :: rest) := stops_mark (by simp) rest
  have htext : l.chars ++ ' ' :: sign ++ ' ' :: r.chars ++ ')' :: rest =
      l.chars ++ ' ' :: (sign ++ ' ' :: (r.chars ++ ')' :: rest)) := by simp
  rw [htext]
  have hsign := hends (' ' :: (r.chars ++ ')' :: rest))
  refine ⟨(hl.opens hsign.cut.word).solid, ?_⟩
  have hright := hr.alone hstops.toEnds
  have hpair := (hread _ (hr.opens hstops.cut.word)).seq hright
  have hmore := EatsMore.cons hpair (hstops.between.more hstops.skips.solid)
  refine ((hl.alone hsign).seq (hmore.many hsign.skips.solid)).imp ?_
  rintro _ ⟨us, _, rfl, ⟨l', hl', hbare⟩, _, _, rfl, ⟨_, vs, rfl, ⟨t, rfl, op, hop, ht⟩, r', hr',
    hbare'⟩, rfl⟩
  obtain ⟨e', he', hbare''⟩ := hnode op _ _ l' r' hop hl' hr' hbare hbare'
  refine ⟨e', ?_, hbare''⟩
  have hitems : Build.items (us ++ ([t] ++ vs ++ [])) =
      Build.items us ++ .between op :: Build.items vs := by
    rw [List.append_nil, Build.items_append, List.singleton_append, Build.items, ht]
  rwa [hitems]

/-- A condition between its words, which is an expression. -/
theorem eats_ternary {cond cs : List Char} {P : Tree Rule → Prop}
    (hopens : Opens (cond ++ ' ' :: (Keyword.else.word.toList ++ ' ' :: cs))) (hcs : Opens cs)
    (hcond : Eats expr (cond ++ ' ' :: (Keyword.else.word.toList ++ ' ' :: cs))
      (Keyword.else.word.toList ++ ' ' :: cs) (Single P)) :
    Eats infixPart (Keyword.if.word.toList ++
        ' ' :: (cond ++ ' ' :: (Keyword.else.word.toList ++ ' ' :: cs))) cs
      (Single (IsNode (.between .ternary) fun ts => ∃ k c k', ts = [k, c, k'] ∧ P c)) := by
  have hif := eats_keyword .if (wordEnds_blank _) hopens.solid.skips.blank
  have helse := eats_keyword .else (wordEnds_blank _) hcs.solid.skips.blank
  have hnode := Eats.rule (.between .ternary) rfl ((hif.seq hcond).seq helse)
  rw [infixPart_eq]
  refine (eats_oneOf_except [] (by decide) (begins_cons (List.mem_singleton_self _) _) (by decide)
    (by decide) (List.forall_mem_nil _) hnode).imp ?_
  rintro _ ⟨_, rfl, span, _, rfl, _, _, rfl, ⟨_, _, rfl, ⟨k, rfl, -⟩, c, rfl, hc⟩, k', rfl, -⟩
  exact ⟨_, rfl, span, _, rfl, k, c, k', rfl, hc⟩

section Two

variable (s : Span) {l r : Expr} (hl : Legible l) (hr : Legible r)
include hl hr

theorem legible_binary (op : BinaryOp) : Legible (.binary s op l r) := by
  refine legible_between (B := (· = .binary op)) hl hr (Expr.chars_binary s l r op) ?_ ?_ ?_
  · intro cs
    cases op <;> exact ends_blank (by decide) (by decide) _
  · intro cs hcs
    refine (eats_binary op (by simp) hcs.solid.skips.blank).imp ?_
    rintro _ ⟨t, rfl, ht⟩
    exact ⟨t, rfl, _, rfl, ht⟩
  · rintro _ items items' l' r' rfl hl' hr' hbare hbare'
    have hbare'' : (Expr.binary (l'.span.combine r'.span) op l' r').bare =
        (Expr.binary s op l r).bare := by
      rw [Expr.bare, Expr.bare, hbare, hbare']
    by_cases hop : op = .pow
    · subst hop
      exact ⟨_, (Derives.power hl' (hr'.of_primary .sign)).to_lambda, hbare''⟩
    · exact ⟨_, (Derives.binary op hop (hl'.of_primary _) (hr'.of_primary _)).to_lambda, hbare''⟩

theorem legible_boolOp (op : BoolOp) : Legible (.boolOp s op l r) := by
  refine legible_between (B := (· = .boolOp op)) hl hr (Expr.chars_boolOp s l r op) ?_ ?_ ?_
  · intro cs
    cases op <;> exact ends_blank (by decide) (by decide) _
  · intro cs hcs
    refine (eats_bool hcs op).imp ?_
    rintro _ ⟨t, rfl, ht⟩
    exact ⟨t, rfl, _, rfl, ht⟩
  · rintro _ items items' l' r' rfl hl' hr' hbare hbare'
    refine ⟨_, (Derives.boolOp op (hl'.of_primary _) (hr'.of_primary _)).to_lambda, ?_⟩
    rw [Expr.bare, Expr.bare, hbare, hbare']

theorem legible_named : Legible (.named s l r) := by
  refine legible_between (B := (· = .named)) hl hr (Expr.chars_named s l r) ?_ ?_ ?_
  · exact fun cs => ends_blank (by decide) (by decide) _
  · intro cs hcs
    refine (eats_walrus hcs).imp ?_
    rintro _ ⟨t, rfl, ht⟩
    exact ⟨t, rfl, _, rfl, ht⟩
  · rintro _ items items' l' r' rfl hl' hr' hbare hbare'
    refine ⟨_, (Derives.named (hl'.of_primary _) (hr'.of_primary _)).to_lambda, ?_⟩
    rw [Expr.bare, Expr.bare, hbare, hbare']

/-- A conditional is an operator that encloses its condition. -/
theorem legible_conditional {c : Expr} (hc : Legible c) : Legible (.conditional s c l r) := by
  let sign := Keyword.if.word.toList ++ ' ' :: (c.chars ++ ' ' :: Keyword.else.word.toList)
  have hchars : (Expr.conditional s c l r).chars =
      '(' :: (l.chars ++ ' ' :: sign ++ ' ' :: r.chars) ++ [')'] := by
    have hif : " if ".toList = ' ' :: Keyword.if.word.toList ++ [' '] := by decide
    have helse : " else ".toList = ' ' :: Keyword.else.word.toList ++ [' '] := by decide
    rw [Expr.chars_conditional, hif, helse]
    simp [sign]
  refine legible_between (B := fun op => ∃ c', op = .conditional (.ok c') ∧ c'.bare = c.bare) hl hr
    hchars ?_ ?_ ?_
  · exact fun cs => ends_blank (by decide) (by decide) _
  · intro cs hcs
    have hstops := stops_keyword (k := .else) (by simp) cs
    have hread := eats_ternary (hc.opens hstops.cut.word) hcs (hc.reads hstops)
    have htext : sign ++ ' ' :: cs = Keyword.if.word.toList ++
        ' ' :: (c.chars ++ ' ' :: (Keyword.else.word.toList ++ ' ' :: cs)) := by simp [sign]
    rw [htext]
    refine hread.imp ?_
    rintro _ ⟨_, rfl, span, _, rfl, k, _, k', rfl, span', us, c', rfl, hbuild, hbare⟩
    refine ⟨_, rfl, .conditional (.ok c'), ⟨c', rfl, hbare⟩, ?_⟩
    simp [Makes, Build.item, hbuild, Build.betweenOf]
  · rintro _ items items' l' r' ⟨c', rfl, hbare⟩ hl' hr' hbare' hbare''
    refine ⟨_, (Derives.conditional c' (hl'.of_primary _) (hr'.of_primary _)).to_lambda, ?_⟩
    rw [Expr.bare, Expr.bare, hbare, hbare', hbare'']

end Two

/-! ### Chains of comparisons -/

/-- The nodes are the links of a chain, but for spans and parentheses. -/
def LinksRead (links : List (CompareOp × Expr)) (ts : List (Tree Rule)) : Prop :=
  ∃ ls : List Link, Build.items ts = Link.allItems ls ∧ (∀ l ∈ ls, Derives .bitOr l.items l.tree) ∧
    ls.map (fun l => (l.op, l.tree.bare)) = links.map fun l => (l.1, l.2.bare)

theorem ends_compare (op : CompareOp) (cs : List Char) :
    Ends (' ' :: (op.symbol.toList ++ cs)) (op.symbol.toList ++ cs) := by
  cases op <;> exact ends_blank (by decide) (by decide) _

theorem eatsMore_links {links : List (CompareOp × Expr)} (h : ∀ link ∈ links, Legible link.2)
    (rest : List Char) :
    ∃ mid, Ends (links.flatMap Expr.linkText ++ ')' :: rest) mid ∧
      EatsMore (infixPart ++ termPart) mid (')' :: rest) (LinksRead links) := by
  induction links with
  | nil =>
    have hstops : Stops (')' :: rest) (')' :: rest) := stops_mark (by simp) rest
    refine ⟨')' :: rest, hstops.toEnds, (hstops.between.more hstops.skips.solid).imp ?_⟩
    rintro _ rfl
    exact ⟨[], by rw [Build.items]; rfl, List.forall_mem_nil _, rfl⟩
  | cons link links ih =>
    obtain ⟨op, x⟩ := link
    obtain ⟨hx, hlinks⟩ := List.forall_mem_cons.mp h
    obtain ⟨mid, hends, hmore⟩ := ih hlinks
    have hpair := (eats_compare (hx.opens hends.cut.word) op).seq (hx.alone hends)
    rw [List.flatMap_cons, Expr.linkText, List.append_assoc, List.append_assoc, List.cons_append,
      List.cons_append]
    refine ⟨_, ends_compare op _, (EatsMore.cons hpair hmore).imp ?_⟩
    rintro _ ⟨_, vs, rfl, ⟨_, us, rfl, ⟨t, rfl, ht⟩, x', hx', hbare⟩, ls, hls, hderives, hlinks⟩
    refine ⟨⟨op, Build.items us, x'⟩ :: ls, ?_, List.forall_mem_cons.mpr ⟨hx'.of_primary _, hderives⟩,
      ?_⟩
    · rw [Build.items_append, hls, List.singleton_append, Build.items, ht]
      rfl
    · rw [List.map_cons, List.map_cons, hlinks, hbare]

theorem legible_compare (s : Span) {l : Expr} {links : List (CompareOp × Expr)} (hl : Legible l)
    (hsome : links ≠ []) (hlinks : ∀ link ∈ links, Legible link.2) :
    Legible (.compare s l links) := by
  refine Legible.grouped (Expr.chars_compare s l links) fun rest => ?_
  obtain ⟨mid, hends, hmore⟩ := eatsMore_links hlinks rest
  rw [List.append_assoc]
  refine ⟨(hl.opens hends.cut.word).solid, ?_⟩
  refine ((hl.alone hends).seq (hmore.many hends.skips.solid)).imp ?_
  rintro _ ⟨us, vs, rfl, ⟨l', hl', hbare⟩, ls, hls, hderives, hbares⟩
  have hne : ls ≠ [] := by
    rintro rfl
    exact hsome (List.map_eq_nil_iff.mp hbares.symm)
  refine ⟨Link.chain l' ls, ?_, ?_⟩
  · rw [Build.items_append, hls]
    exact (Derives.compare (hl'.of_primary .bitOr) hne hderives).to_lambda
  · rw [Link.chain, Expr.bare, Expr.bare, hbare, Expr.bareLinks_eq, Expr.bareLinks_eq, List.map_map,
      ← hbares]
    rfl

end SafeExpr
