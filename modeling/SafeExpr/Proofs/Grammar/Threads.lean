/-
  SafeExpr/Proofs/Grammar/Threads.lean
  ====================================
  **Reading goes from token to token.**

  What is read token by token is made of tokens with gaps between them (`Leads`), and its nodes
  stand on this way like beads on a thread (`Threads`).  A node begins with a token, since blanks
  are skipped before its rule is tried.  It ends with one, too, if its rule does.  But blanks are
  also skipped in front of a part that then turns out to be missing, and they stay skipped: a rule
  that ends with such a part, or with a rule of this kind, may end behind the gap (`trails`).
-/
import SafeExpr.Proofs.Grammar.Cutting

namespace SafeExpr.Grammar

open Outcome (matched failed)

/-! ### From token to token -/

/-- From `c` to `d` there are tokens and gaps. -/
inductive Leads : Cursor → Cursor → Prop
  | refl (c : Cursor) : Leads c c
  | token {c d e : Cursor} (h : TokenTo c d) (hrest : Leads d e) : Leads c e
  | gap {c e : Cursor} (hrest : Leads (expression.gap false c) e) : Leads c e

/-- From `c` to `d` there are tokens and gaps, a token last. -/
inductive Closes (c d : Cursor) : Prop
  | intro {mid : Cursor} (hlead : Leads c mid) (htoken : TokenTo mid d)

section Leads

variable {c d e : Cursor}

theorem TokenTo.leads (h : TokenTo c d) : Leads c d := .token h (.refl d)

theorem TokenTo.closes (h : TokenTo c d) : Closes c d := ⟨.refl c, h⟩

theorem leads_gap (c : Cursor) : Leads c (expression.gap false c) := .gap (.refl _)

theorem Leads.trans (h : Leads c d) (h' : Leads d e) : Leads c e := by
  induction h with
  | refl => exact h'
  | token htoken _ ih => exact .token htoken (ih h')
  | gap _ ih => exact .gap (ih h')

theorem Closes.prepend (h : Leads c d) (h' : Closes d e) : Closes c e := by
  obtain ⟨hlead, htoken⟩ := h'
  exact ⟨h.trans hlead, htoken⟩

theorem Leads.passes (h : Leads c d) : ∃ mid, c.Passes d mid := by
  induction h with
  | refl c => exact ⟨[], .refl c⟩
  | token htoken _ ih =>
    obtain ⟨hpasses, -, -⟩ := htoken
    obtain ⟨mid, hmid⟩ := ih
    exact ⟨_, hpasses.trans hmid⟩
  | @gap c e _ ih =>
    obtain ⟨blanks, hblanks⟩ := gap_passes false c
    obtain ⟨mid, hmid⟩ := ih
    exact ⟨_, hblanks.trans hmid⟩

/-- **What leads to a text that is cut into tokens is cut itself.** -/
theorem Leads.cuts (h : Leads c d) (hcuts : Cuts d.rest) : Cuts c.rest := by
  induction h with
  | refl => exact hcuts
  | token htoken _ ih =>
    obtain ⟨hpasses, ht, hfollows⟩ := htoken
    rw [hpasses.rest]
    exact (ih hcuts).cons ht hfollows
  | gap _ ih => exact (ih hcuts).of_gap

end Leads

/-! ### Rules that end behind a gap -/

/-- The rules whose nodes may end behind the gap that follows their last token, or have none. -/
def trailingRule : Rule → Bool
  | .endOfInput | .assignment | .expression | .lambdaParams | .callGenerator | .keywordArg | .slice
  | .sliceLower | .sliceUpper | .sliceStep | .dictEntry | .starred | .doubleStarred | .compFor
  | .compTarget | .compIf => true
  | _ => false

/-- May the pattern end behind a gap? -/
def trails : Pattern Rule → Bool
  | .rule r => trailingRule r
  | .seq _ q => !q.eats eatsRule || trails q
  | .choice p q => trails p || trails q
  | .optional p => trails p
  | .many p => !p.eats eatsRule || trails p
  | .text _ | .char _ | .unless _ | .endOfText => false

def Goal.trails : Goal Rule → Bool
  | .one p => Grammar.trails p
  | .more p => Grammar.trails (.many p)

theorem trailingRule_of_trails {r : Rule} (hr : isInner r = true) (hsolid : isSolid r = false)
    (h : trails (rulePattern r) = true) : trailingRule r = true := by
  cases r with
  | before op => cases op <;> first | exact absurd h (by decide) | cases hsolid
  | between op => cases op <;> first | exact absurd h (by decide) | cases hsolid
  | source | statement | statementBody | statementKeyword => cases hr
  | assignOp | memberName | float | integer | string | boolean | none | ident | keyword =>
    cases hsolid
  | _ => first | rfl | exact absurd h (by decide)

theorem eatsRule_of_trailingRule {r : Rule} (hr : isInner r = true) (h : trailingRule r = false) :
    eatsRule r = true := by
  cases r with
  | endOfInput => cases h
  | statementBody => cases hr
  | _ => rfl

/-! ### Nodes on the way -/

/-- The nodes stand on the way from `c` to `d`, each from the beginning of a token on. -/
inductive Threads : Cursor → Cursor → List (Tree Rule) → Prop
  | nil {c d : Cursor} (h : Leads c d) : Threads c d []
  | leaf {c d e f : Cursor} {r : Rule} {cs : List Char} {ts : List (Tree Rule)}
    (hlead : Leads c d) (htoken : TokenTo d e) (hrest : Threads e f ts) :
    Threads c f (.leaf r ⟨d.pos, e.pos⟩ cs :: ts)
  | node {c d e f : Cursor} {r : Rule} {children ts : List (Tree Rule)} (hlead : Leads c d)
    (hsolid : Solid d.rest) (hlt : eatsRule r = true → d.pos < e.pos)
    (hcloses : trailingRule r = false → Closes d e)
    (hchildren : Threads d e children) (hrest : Threads e f ts) :
    Threads c f (.node r ⟨d.pos, e.pos⟩ children :: ts)

namespace Threads

variable {c d e : Cursor} {ts us : List (Tree Rule)}

theorem leads (h : Threads c d ts) : Leads c d := by
  induction h with
  | nil h => exact h
  | leaf hlead htoken _ ih => exact hlead.trans (.token htoken ih)
  | node hlead _ _ _ _ _ ihchildren ih => exact hlead.trans (ihchildren.trans ih)

theorem prepend (h : Leads c d) (h' : Threads d e ts) : Threads c e ts := by
  cases h' with
  | nil h' => exact .nil (h.trans h')
  | leaf hlead htoken hrest => exact .leaf (h.trans hlead) htoken hrest
  | node hlead hsolid hlt hcloses hchildren hrest =>
    exact .node (h.trans hlead) hsolid hlt hcloses hchildren hrest

theorem append (h : Threads c d ts) (h' : Threads d e us) : Threads c e (ts ++ us) := by
  induction h with
  | nil h => exact h'.prepend h
  | leaf hlead htoken _ ih => exact .leaf hlead htoken (ih h')
  | node hlead hsolid hlt hcloses hchildren _ _ ih =>
    exact .node hlead hsolid hlt hcloses hchildren (ih h')

end Threads

/-- A gap ends where no further one begins. -/
theorem solid_gap (c : Cursor) : Solid (expression.gap false c).rest := by
  obtain ⟨g, rest, hc, hgap, hsolid⟩ := exists_gap c.rest
  rwa [hgap.skip_rest hsolid hc]

/-- Blanks are skipped before a pattern is tried; further repetitions skip them on their own. -/
def Goal.SolidAt : Goal Rule → Cursor → Prop
  | .one _, c => Solid c.rest
  | .more _, _ => True

theorem ne_of_eats {p : Pattern Rule} {c d : Cursor} {ts : List (Tree Rule)}
    (hp : p.eats eatsRule = true) (h : Reads expression false (.one p) c (matched d ts)) :
    d ≠ c := by
  rintro rfl
  exact absurd ((length_of_reads expressionRanking h d ts rfl).2 hp) (Nat.lt_irrefl _)

/-- What a pattern reads from `c` to `d`: its nodes stand on the way, and if nothing at its end may
be missing, it ends with a token or takes nothing. -/
structure Threaded (goal : Goal Rule) (c d : Cursor) (ts : List (Tree Rule)) : Prop where
  threads : Threads c d ts
  closes : goal.trails = false → d = c ∨ Closes c d

section Patterns

variable {p q : Pattern Rule} {r : Rule} {c d e : Cursor} {ts us : List (Tree Rule)}

theorem Threaded.nothing (goal : Goal Rule) (c : Cursor) : Threaded goal c c [] :=
  ⟨.nil (.refl c), fun _ => Or.inl rfl⟩

theorem Threaded.choice (h : Threaded (.one p) c d ts) : Threaded (.one (.choice p q)) c d ts :=
  ⟨h.threads, fun htrail => h.closes (Bool.or_eq_false_iff.mp htrail).1⟩

theorem Threaded.choiceLater (h : Threaded (.one q) c d ts) :
    Threaded (.one (.choice p q)) c d ts :=
  ⟨h.threads, fun htrail => h.closes (Bool.or_eq_false_iff.mp htrail).2⟩

theorem Threaded.seq (hp : Threaded (.one p) c d ts)
    (hq : Threaded (.one q) (expression.gap false d) e us)
    (h : Reads expression false (.one q) (expression.gap false d) (matched e us)) :
    Threaded (.one (.seq p q)) c e (ts ++ us) := by
  refine ⟨hp.threads.append (hq.threads.prepend (leads_gap d)), fun htrail => Or.inr ?_⟩
  obtain ⟨heats, htrail⟩ := Bool.or_eq_false_iff.mp htrail
  have hne := ne_of_eats ((Bool.not_eq_false' _).mp heats) h
  exact ((hq.closes htrail).resolve_left hne).prepend (hp.threads.leads.trans (leads_gap d))

theorem Threaded.many (hp : Threaded (.one p) c d ts) (hmore : Threaded (.more p) d e us) :
    Threaded (.one (.many p)) c e (ts ++ us) := by
  refine ⟨hp.threads.append hmore.threads, fun htrail => ?_⟩
  rcases hmore.closes htrail with rfl | hlast
  · exact hp.closes (Bool.or_eq_false_iff.mp htrail).2
  · exact Or.inr (hlast.prepend hp.threads.leads)

theorem Threaded.more (hp : Threaded (.one p) (expression.gap false c) d ts)
    (hmore : Threaded (.more p) d e us)
    (h : Reads expression false (.one p) (expression.gap false c) (matched d ts)) :
    Threaded (.more p) c e (ts ++ us) := by
  refine ⟨(hp.threads.prepend (leads_gap c)).append hmore.threads, fun htrail => Or.inr ?_⟩
  obtain ⟨heats, htrail'⟩ := Bool.or_eq_false_iff.mp htrail
  rcases hmore.closes htrail with rfl | hlast
  · have hne := ne_of_eats ((Bool.not_eq_false' _).mp heats) h
    exact ((hp.closes htrail').resolve_left hne).prepend (leads_gap c)
  · exact hlast.prepend ((leads_gap c).trans hp.threads.leads)

/-- A rule that is read as one piece. -/
theorem Threaded.piece (hr : isSolid r = true) (htoken : TokenTo c d) :
    Threaded (.one (.rule r)) c d (expression.leaves false r c d ts) := by
  have hpiece : expression.isToken r = true := hr
  have hleaves : expression.leaves false r c d ts = [.leaf r ⟨c.pos, d.pos⟩ (c.upTo d)] := by
    simp [leaves, hpiece]
  rw [hleaves]
  exact ⟨.leaf (.refl c) htoken (.nil (.refl d)), fun _ => Or.inr htoken.closes⟩

/-- The node of a rule around the nodes of its pattern. -/
theorem Threaded.node (hr : isInner r = true) (hsolid : isSolid r = false) (hc : Solid c.rest)
    (h : Reads expression false (.one (rulePattern r)) c (matched d ts))
    (hts : Threaded (.one (rulePattern r)) c d ts) :
    Threaded (.one (.rule r)) c d (expression.leaves false r c d ts) := by
  have hclosed : trailingRule r = false → Closes c d := fun htrail => by
    have heats := expressionRanking.eats_pattern r (eatsRule_of_trailingRule hr htrail)
    have hpattern : trails (rulePattern r) = false := by
      rw [← Bool.not_eq_true] at htrail ⊢
      exact fun h => htrail (trailingRule_of_trails hr hsolid h)
    exact (hts.closes hpattern).resolve_left (ne_of_eats heats h)
  have hleaves : expression.leaves false r c d ts = [.node r ⟨c.pos, d.pos⟩ ts] := by
    have htoken : expression.isToken r = false := hsolid
    simp [leaves, htoken]
  rw [hleaves]
  exact ⟨.node (.refl c) hc (fun heats => pos_lt_of_reads heats h) hclosed hts.threads
    (.nil (.refl d)), fun htrail => Or.inr (hclosed htrail)⟩

/-- A point, and the name behind it. -/
theorem threaded_memberOp
    (h : Reads expression false (.one (rulePattern .memberOp)) c (matched d ts)) :
    Threaded (.one (rulePattern .memberOp)) c d ts := by
  obtain ⟨mid, cs, hpoint, hname, rfl⟩ := memberOp_of_reads h
  have hlead : Leads c (expression.gap false mid) := .token hpoint (leads_gap mid)
  exact ⟨.leaf hlead hname (.nil (.refl d)), fun _ => Or.inr (hname.closes.prepend hlead)⟩

end Patterns

/-- **What is read token by token stands on a way of tokens and gaps**, the last of which is a
token if nothing at the end of the pattern may be missing. -/
theorem threads_of_reads {b : Bool} {goal : Goal Rule} {c : Cursor} {o : Outcome Rule}
    (h : Reads expression b goal c o) : ∀ d ts, o = matched d ts → b = false →
      goal.tokenwise = true → goal.Guard c → goal.safe = true →
      (goal.endsOpen = true → Cold d.rest) → goal.SolidAt c → Threaded goal c d ts := by
  induction h with
  | textFails | charFails | endOfTextFails | seqFails | seqFailsLater | ruleFails
  | unlessFails =>
    intro d ts ho
    cases ho
  | text h =>
    rintro d ts ⟨⟩ - hp - - hcold -
    have htoken := tokenTo_of_take? hp h hcold
    exact ⟨.nil htoken.leads, fun _ => Or.inr htoken.closes⟩
  | char =>
    intro _ _ _ _ hp
    cases hp
  | endOfText | optionalSkips | «unless» | manySkips | moreEnds =>
    rintro d ts ⟨⟩ - - - - - -
    exact .nothing _ _
  | optional h ih =>
    rintro d ts ⟨⟩ hb hp - hsafe hcold hsolid
    obtain ⟨hp, hfree⟩ := tokenwise_optional hp
    obtain ⟨hts, hcloses⟩ := ih _ _ rfl hb hp (guard_one hfree) hsafe hcold hsolid
    exact ⟨hts, hcloses⟩
  | choice hp ihp =>
    rintro d ts ⟨⟩ hb hpq hguard hsafe hcold hsolid
    obtain ⟨hp, -, -⟩ := tokenwise_choice hpq
    exact (ihp _ _ rfl hb hp hguard (safe_choice.mp hsafe).1
      (fun hopen => hcold (endsOpen_choice.mpr (Or.inl hopen))) hsolid).choice
  | choiceLater hp hq ihp ihq =>
    rintro d ts rfl hb hpq hguard hsafe hcold hsolid
    obtain ⟨-, hqw, hlater⟩ := tokenwise_choice hpq
    subst hb
    exact (ihq _ _ rfl rfl hqw (fun hguarded => hlater hguarded ▸ hp) (safe_choice.mp hsafe).2
      (fun hopen => hcold (endsOpen_choice.mpr (Or.inr hopen))) hsolid).choiceLater
  | @seq _ p q c d e ts us hp hq ihp ihq =>
    rintro _ _ ⟨⟩ rfl hpq - hsafe hcold hsolid
    obtain ⟨hpw, hqw, hfree, hfree'⟩ := tokenwise_seq hpq
    obtain ⟨hsafe, hsafe', hopen⟩ := safe_seq hsafe
    have hus := ihq _ _ rfl rfl hqw (guard_one hfree') hsafe'
      (fun hopen => hcold (endsOpen_seq hopen)) (solid_gap d)
    have hts := ihp _ _ rfl rfl hpw (guard_one hfree) hsafe (cold_of_seq hopen hq hcold) hsolid
    exact hts.seq hus hq
  | @many _ p c d e ts us hp hmore ihp ihmore =>
    rintro _ _ ⟨⟩ rfl hpw - hsafe hcold hsolid
    obtain ⟨hpw', hfree⟩ := tokenwise_many hpw
    have hus := ihmore _ _ rfl rfl hpw guard_more hsafe hcold trivial
    obtain ⟨hsafe, hfails⟩ := safe_many hsafe
    have hts := ihp _ _ rfl rfl hpw' (guard_one hfree) hsafe
      (fun hopen => cold_of_more (hfails hopen) hmore (hcold hopen)) hsolid
    exact hts.many hus
  | @more _ p c d e ts us hp hmore ihp ihmore =>
    rintro _ _ ⟨⟩ rfl hpw - hsafe hcold -
    obtain ⟨hpw', hfree⟩ := tokenwise_many hpw
    have hus := ihmore _ _ rfl rfl hpw guard_more hsafe hcold trivial
    obtain ⟨hsafe, hfails⟩ := safe_many hsafe
    have hts := ihp _ _ rfl rfl hpw' (guard_one hfree) hsafe
      (fun hopen => cold_of_more (hfails hopen) hmore (hcold hopen)) (solid_gap c)
    exact hts.more hus hp
  | @rule b r c d ts h ih =>
    rintro _ _ ⟨⟩ rfl hr hguard - hcold hsolid
    rcases rule_kind hr with ⟨hpiece, hbody⟩ | rfl | ⟨hopen, hp, hfree⟩
    · have htoken : expression.isToken r = true := hpiece
      rw [htoken] at h
      exact .piece hpiece (token_of_piece hpiece hbody h (fun heq => hguard (by rw [heq]; rfl))
        (fun heq => hcold (by rw [heq]; rfl)))
    · exact .node hr rfl hsolid h (threaded_memberOp h)
    · have htoken : expression.isToken r = false := hopen
      rw [htoken] at h ih
      obtain ⟨hsafe, hends⟩ := safe_rulePattern hr hopen
      exact .node hr hopen hsolid h
        (ih _ _ rfl rfl hp (guard_one hfree) hsafe (fun h => hcold (hends h)) hsolid)

end SafeExpr.Grammar
