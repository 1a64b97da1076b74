/-
  SafeExpr/Proofs/Tightness.lean
  ==============================
  **The nodes of a tree begin and end with tokens, but for some.**

  A source that is no statement is cut into tokens in one way.  Every node of its tree begins with
  a token, and ends with one (`spans_tight`).  The exceptions are assignments, slices, unpackings,
  generators and keyword arguments: these may go on behind their last token, as far as the gap goes
  that follows it.  Each of them does so somewhere (`spans_trail`).
-/
import SafeExpr.Proofs.Layout
import SafeExpr.Proofs.Parse.Edges
import SafeExpr.Proofs.Spans

namespace SafeExpr

open Grammar (Tokens Lexeme Longest Gap Solid TokenTo TokenText Leads Closes Threads expression
  spell spell_append trailingRule eatsRule)

/-! ### Places in a row of tokens -/

section Places

variable (lead : List Char) (ls : List Lexeme)

/-- A token begins at this byte. -/
def TokenStarts (pos : Nat) : Prop :=
  ∃ front l behind, ls = front ++ l :: behind ∧ pos = byteLength (lead ++ spell front)

/-- A token ends at this byte. -/
def TokenStops (pos : Nat) : Prop :=
  ∃ front l behind, ls = front ++ l :: behind ∧ pos = byteLength (lead ++ spell front ++ l.text)

/-- The gap behind a token ends at this byte. -/
def GapStops (pos : Nat) : Prop :=
  ∃ front l behind, ls = front ++ l :: behind ∧
    pos = byteLength (lead ++ spell front ++ l.text ++ l.gap)

def edgesOf : Edges := ⟨TokenStarts lead ls, TokenStops lead ls, GapStops lead ls⟩

/-- The cursor stands in front of a token, or at the end of the text, or right behind a token. -/
inductive OnRow : Cursor → Prop
  | inFront {front behind : List Lexeme} (h : ls = front ++ behind) :
    OnRow ⟨byteLength (lead ++ spell front), spell behind⟩
  | behind {front behind : List Lexeme} {l : Lexeme} (h : ls = front ++ l :: behind) :
    OnRow ⟨byteLength (lead ++ spell front ++ l.text), l.gap ++ spell behind⟩

end Places

section Row

variable {lead : List Char} {ls : List Lexeme} (hrow : Tokens Longest ls) {c d : Cursor}
include hrow

theorem OnRow.inFront_of_solid (h : OnRow lead ls c) (hsolid : Solid c.rest) :
    ∃ front behind, ls = front ++ behind ∧
      c = ⟨byteLength (lead ++ spell front), spell behind⟩ := by
  cases h with
  | @inFront front behind h => exact ⟨front, behind, h, rfl⟩
  | @behind front behind l h =>
    subst h
    cases hrow.of_append with
    | @cons t g _ _ _ hgap hrest =>
      -- a gap that is not skipped is empty
      obtain ⟨rfl, -⟩ := hgap.unique (.nil _) hrest.solid hsolid rfl
      refine ⟨front ++ [⟨t, []⟩], behind, by simp, ?_⟩
      simp only [spell_append, spell, List.append_nil, List.nil_append, List.append_assoc]

theorem OnRow.gap (h : OnRow lead ls c) : OnRow lead ls (expression.gap false c) := by
  cases h with
  | @inFront front behind h =>
    subst h
    rw [hrow.of_append.solid.gap_eq]
    exact .inFront rfl
  | @behind front behind l h =>
    subst h
    cases hrow.of_append with
    | @cons t g _ _ _ hgap hrest =>
      have hskip : expression.gap false
          ⟨byteLength (lead ++ spell front ++ t), g ++ spell behind⟩ = ⟨_, _⟩ :=
        hgap.skip hrest.solid _
      have hplace : byteLength (lead ++ spell front ++ t) + byteLength g =
          byteLength (lead ++ spell (front ++ [⟨t, g⟩])) := by
        simp only [spell_append, spell, byteLength_append, List.append_nil]
        omega
      rw [hskip, hplace]
      exact .inFront (by simp)

/-- A token that is read is one of the row. -/
theorem OnRow.token (h : OnRow lead ls c) (htoken : TokenTo c d) :
    ∃ front l behind, ls = front ++ l :: behind ∧
      c.pos = byteLength (lead ++ spell front) ∧
      d = ⟨byteLength (lead ++ spell front ++ l.text), l.gap ++ spell behind⟩ := by
  obtain @⟨t, hpasses, ht, hfollows⟩ := htoken
  have hsolid : Solid c.rest := hpasses.rest ▸ ht.solid _
  obtain ⟨front, behind, rfl, rfl⟩ := h.inFront_of_solid hrow hsolid
  obtain ⟨pos, rest⟩ := d
  obtain rfl := hpasses.pos
  have htext : spell behind = t ++ rest := hpasses.rest
  cases hrow.of_append with
  | nil => exact absurd (List.append_eq_nil_iff.mp htext.symm).1 ht.ne_nil
  | @cons t' g ls ht' hlongest hgap hrest =>
    have htext : t' ++ (g ++ spell ls) = t ++ rest := htext
    have hle : t <+: t' := hlongest t ht (htext ▸ List.prefix_append t rest)
    have hge : t' <+: t := hfollows.longest t' ht' (htext ▸ List.prefix_append t' _)
    cases hle.eq_of_length_le hge.length_le
    obtain rfl := List.append_cancel_left htext
    refine ⟨front, ⟨t, g⟩, ls, rfl, rfl, ?_⟩
    rw [byteLength_append (lead ++ spell front)]

theorem OnRow.leads (h : OnRow lead ls c) (hlead : Leads c d) : OnRow lead ls d := by
  induction hlead with
  | refl => exact h
  | token htoken _ ih =>
    obtain ⟨front, l, behind, hls, -, rfl⟩ := h.token hrow htoken
    exact ih (.behind hls)
  | gap _ ih => exact ih (h.gap hrow)

theorem tight_of_token (h : OnRow lead ls c) (htoken : TokenTo c d) :
    (Span.mk c.pos d.pos).Tight (edgesOf lead ls) := by
  obtain ⟨front, l, behind, hls, hc, rfl⟩ := h.token hrow htoken
  exact ⟨⟨front, l, behind, hls, hc⟩, ⟨front, l, behind, hls, rfl⟩⟩

/-- What takes some text from the beginning of a token on ends with a token, or with a gap behind
one. -/
theorem trails_of_leads (h : OnRow lead ls c) (hsolid : Solid c.rest) (hlead : Leads c d)
    (hlt : c.pos < d.pos) : (Span.mk c.pos d.pos).Trails (edgesOf lead ls) := by
  have hd := h.leads hrow hlead
  obtain ⟨front, behind, hls, rfl⟩ := h.inFront_of_solid hrow hsolid
  constructor
  · cases behind with
    | cons l behind => exact ⟨front, l, behind, hls, rfl⟩
    | nil =>
      -- nothing is left to be taken
      exfalso
      obtain ⟨mid, hmid⟩ := hlead.passes
      have hnil := (List.append_eq_nil_iff.mp hmid.rest.symm).1
      have hpos := hmid.pos
      rw [hnil] at hpos
      exact absurd hlt (hpos ▸ Nat.lt_irrefl _)
  · cases hd with
    | @behind front' behind' l h' => exact Or.inl ⟨front', l, behind', h', rfl⟩
    | @inFront front' behind' h' =>
      rcases List.eq_nil_or_concat front' with rfl | ⟨init, l, rfl⟩
      · simp only [spell, List.append_nil, byteLength_append] at hlt
        omega
      · refine Or.inr ⟨init, l, behind', by simpa using h', ?_⟩
        simp only [List.concat_eq_append, spell_append, spell, List.append_nil,
          List.append_assoc]

theorem tight_of_closes (h : OnRow lead ls c) (hsolid : Solid c.rest) (hcloses : Closes c d) :
    (Span.mk c.pos d.pos).Tight (edgesOf lead ls) := by
  obtain ⟨hlead, htoken⟩ := hcloses
  have hlast := tight_of_token hrow (h.leads hrow hlead) htoken
  refine ⟨(trails_of_leads hrow h hsolid (hlead.trans htoken.leads) ?_).start, hlast.stop⟩
  obtain ⟨mid, hmid⟩ := hlead.passes
  obtain ⟨hpasses, ht, -⟩ := htoken
  refine Nat.lt_of_le_of_lt hmid.pos_le (hpasses.pos_lt ?_)
  rw [hpasses.rest, List.length_append]
  have := List.length_pos_iff.mpr ht.ne_nil
  omega

/-- **The nodes on the way begin with tokens**, and end with them unless their rules may trail. -/
theorem edged_of_threads {ts : List (Tree Rule)} (h : OnRow lead ls c) (hthreads : Threads c d ts) :
    ∀ t ∈ ts, t.Edged (edgesOf lead ls) := by
  induction hthreads with
  | nil => exact List.forall_mem_nil _
  | leaf hlead htoken _ ih =>
    have hd := h.leads hrow hlead
    refine List.forall_mem_cons.mpr ⟨.leaf (tight_of_token hrow hd htoken), ih ?_⟩
    exact hd.leads hrow htoken.leads
  | node hlead hsolid hlt hcloses hchildren _ ihchildren ih =>
    have hd := h.leads hrow hlead
    refine List.forall_mem_cons.mpr ⟨.node (fun heats => ?_) (fun htrail => ?_) (ihchildren hd),
      ih (hd.leads hrow hchildren.leads)⟩
    · exact trails_of_leads hrow hd hsolid hchildren.leads (hlt heats)
    · exact tight_of_closes hrow hd hsolid (hcloses htrail)

end Row

/-! ### Whole texts -/

theorem edged_of_cut {source : List Char} {tree : Tree Rule} {e : Expr} {lead : List Char}
    {ls : List Lexeme} (h : matchSource source = .ok tree) (hbody : tree.IsExpression)
    (hbuild : Build.source tree = .ok e) (hcut : CutInto source lead ls) :
    e.AllEdged (edgesOf lead ls) := by
  obtain ⟨d, t, s, s', hthreads, -, rfl⟩ := Grammar.threads_of_matchSource h hbody
  have hstart : OnRow lead ls (Grammar.bodyStart source) := by
    rw [hcut.text, Grammar.bodyStart_append hcut.gap hcut.row.solid]
    have hfront : OnRow lead ls ⟨byteLength (lead ++ spell []), spell ls⟩ := .inFront rfl
    rwa [spell, List.append_nil] at hfront
  have ht := edged_of_threads hcut.row hstart hthreads t (List.mem_singleton_self t)
  refine (Build.source_edged ht ?_).of_ok hbuild
  obtain ⟨u, hu, hrule⟩ := hbody
  simp only [Tree.children, List.mem_cons, List.not_mem_nil, or_false] at hu
  rintro hstatement
  rcases hu with rfl | rfl
  · rw [hstatement] at hrule
    rcases hrule with hrule | hrule <;> cases hrule
  · rcases hrule with hrule | hrule <;> cases hrule

/-- **Where nodes begin and end.**  A source that is no statement is cut into tokens, in one way.
Each node of its tree begins with a token and ends with one; assignments, slices, unpackings,
generators and keyword arguments may also end with the gap behind a token. -/
theorem spans_tight {maxDepth : Nat} {source : String} {e : Expr}
    (h : parseWith maxDepth source = .ok e) (he : ∀ span keyword, e ≠ .statement span keyword) :
    (∃ lead ls, CutInto source.toList lead ls) ∧
    ∀ lead ls, CutInto source.toList lead ls → ∀ n ∈ e.nodes,
      (TokenStarts lead ls n.span.start ∧ (TokenStops lead ls n.span.stop ∨
        n.trails = true ∧ GapStops lead ls n.span.stop)) ∧
      ∀ s ∈ n.keywordSpans, TokenStarts lead ls s.start ∧
        (TokenStops lead ls s.stop ∨ GapStops lead ls s.stop) := by
  obtain ⟨-, tree, hmatch, -, hbuild, -⟩ := parseWith_ok_iff.mp h
  rcases expression_or_statement hmatch hbuild with ⟨hexpr, -⟩ | ⟨_, _, _, _, heq, -⟩
  · obtain ⟨lead, ls, hcut, -⟩ := exists_cut hmatch hexpr
    refine ⟨⟨lead, ls, hcut⟩, fun lead ls hcut n hn => ?_⟩
    obtain ⟨hspan, htight, hkeywords⟩ := edged_of_cut hmatch hexpr hbuild hcut n hn
    refine ⟨⟨hspan.start, ?_⟩, fun s hs => ⟨(hkeywords s hs).start, (hkeywords s hs).stop⟩⟩
    cases htrails : n.trails with
    | false => exact Or.inl (htight htrails).stop
    | true => exact hspan.stop.imp_right fun hstop => ⟨rfl, hstop⟩
  · exact absurd heq (he _ _)

/-- A node or a keyword argument of the source has the span, which covers the text. -/
def MarksText (source : String) (s : Span) (text : String) : Prop :=
  (∃ e, parse source = .ok e ∧ e.Marks s) ∧ s.slice source = text

theorem marksText_of_any {source text : String} {s : Span}
    (hparse : (parse source).toOption.any (fun e => e.nodes.any fun n =>
      n.span = s || n.keywordSpans.contains s) = true)
    (htext : s.slice source = text) : MarksText source s text := by
  obtain ⟨e, he, hnodes⟩ := (Option.any_eq_true _ _).mp hparse
  rw [Except.toOption_eq_some_iff] at he
  obtain ⟨n, hn, hspan⟩ := List.any_eq_true.mp hnodes
  simp only [Bool.or_eq_true, decide_eq_true_eq, List.contains_iff_mem] at hspan
  exact ⟨⟨e, he, n, hn, hspan.imp_left Eq.symm⟩, htext⟩

/-- A keyword argument, an assignment, an unpacking, a generator and a slice that go on behind
their last tokens. -/
theorem spans_trail :
    MarksText "f(b=2 )" ⟨2, 6⟩ "b=2 " ∧
    MarksText "x = 1 " ⟨0, 6⟩ "x = 1 " ∧
    MarksText "[*x ]" ⟨1, 4⟩ "*x " ∧
    MarksText "f(x for x in y )" ⟨2, 15⟩ "x for x in y " ∧
    MarksText "a[1: ]" ⟨2, 5⟩ "1: " := by
  refine ⟨?_, ?_, ?_, ?_, ?_⟩ <;> exact marksText_of_any (by decide +kernel) (by decide +kernel)

end SafeExpr
