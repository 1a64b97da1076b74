/-
  SafeExpr/Proofs/Grammar/Placed.lean
  ===================================
  **Where the nodes of a text stand.**

  Reading only goes forward, from one character to a later one.  The nodes that it leaves
  stand one behind the other, the children of each within its span, and each knows what
  pattern it was read with (`Laid`).  The place at which a failed reading got stuck is a
  boundary of the text, too.
-/
import SafeExpr.Proofs.Grammar.Shape
import SafeExpr.Proofs.Grammar.Source
import SafeExpr.Proofs.Syntax.Placed

namespace SafeExpr

/-! ### Going forward -/

namespace Cursor

/-- The cursor stands in the text. -/
def In (source : List Char) (c : Cursor) : Prop :=
  ∃ before, source = before ++ c.rest ∧ byteLength before = c.pos

/-- From `c` to `d` the characters `mid` are passed. -/
structure Passes (c d : Cursor) (mid : List Char) : Prop where
  rest : c.rest = mid ++ d.rest
  pos : d.pos = c.pos + byteLength mid

variable {source : List Char} {c d e : Cursor} {mid mid' : List Char}

theorem In.start (source : List Char) : (Cursor.start source).In source := ⟨[], rfl, rfl⟩

theorem In.boundary (h : c.In source) : IsBoundary source c.pos := by
  obtain ⟨before, hsource, hpos⟩ := h
  exact ⟨before, c.rest, hsource, hpos⟩

theorem In.passes (h : c.In source) (hpasses : c.Passes d mid) : d.In source := by
  obtain ⟨before, hsource, hpos⟩ := h
  refine ⟨before ++ mid, ?_, ?_⟩
  · rw [hsource, hpasses.rest, List.append_assoc]
  · rw [byteLength_append, hpos, hpasses.pos]

namespace Passes

theorem refl (c : Cursor) : c.Passes c [] := ⟨rfl, rfl⟩

theorem trans (h : c.Passes d mid) (h' : d.Passes e mid') : c.Passes e (mid ++ mid') := by
  constructor
  · rw [h.rest, h'.rest, List.append_assoc]
  · rw [h'.pos, h.pos, byteLength_append, Nat.add_assoc]

theorem pos_le (h : c.Passes d mid) : c.pos ≤ d.pos := by
  rw [h.pos]
  exact Nat.le_add_right _ _

/-- Where characters are taken, bytes are. -/
theorem pos_lt (h : c.Passes d mid) (hlength : d.rest.length < c.rest.length) :
    c.pos < d.pos := by
  rw [h.pos]
  cases mid with
  | nil =>
    rw [h.rest, List.nil_append] at hlength
    exact absurd hlength (Nat.lt_irrefl _)
  | cons x mid =>
    have := x.utf8Size_pos
    rw [byteLength_cons]
    omega

theorem upTo_eq (h : c.Passes d mid) : c.upTo d = mid := by
  rw [upTo, h.rest, h.pos, Nat.add_sub_cancel_left, takeBytes_byteLength]

/-- Characters in front of a place. -/
theorem prepend {pos : Nat} {rest : List Char} (cs : List Char)
    (h : (Cursor.mk (pos + byteLength cs) rest).Passes d mid) :
    (Cursor.mk pos (cs ++ rest)).Passes d (cs ++ mid) :=
  Passes.trans ⟨rfl, rfl⟩ h

end Passes

theorem passes_of_take? {cs : List Char} (h : c.take? cs = some d) : c.Passes d cs := by
  unfold take? at h
  split at h
  · next hprefix =>
    cases h
    refine ⟨?_, rfl⟩
    obtain ⟨more, hmore⟩ := List.isPrefixOf_iff_prefix.mp hprefix
    rw [← hmore, List.drop_left]
  · cases h

theorem passes_of_char? {accepts : Char → Bool} (h : c.char? accepts = some d) :
    ∃ x, accepts x = true ∧ c.Passes d [x] := by
  unfold char? at h
  split at h
  · next x rest hrest =>
    split at h
    · next hx =>
      cases h
      exact ⟨x, hx, hrest, by simp [byteLength]⟩
    · cases h
  · cases h

end Cursor

namespace Grammar

open Outcome (matched failed)
open Cursor (Passes In)

theorem skip_passes (n : Nat) : ∀ pos (cs : List Char), cs.length ≤ n →
    (∃ mid, (Cursor.mk pos cs).Passes (skipLayout pos cs) mid) ∧
      ∃ mid, (Cursor.mk pos cs).Passes (skipComment pos cs) mid := by
  induction n with
  | zero =>
    intro pos cs hcs
    rw [List.length_eq_zero_iff.mp (Nat.le_zero.mp hcs)]
    refine ⟨⟨[], ?_⟩, ⟨[], ?_⟩⟩
    · simpa [skipLayout] using Passes.refl ⟨pos, []⟩
    · simpa [skipComment] using Passes.refl ⟨pos, []⟩
  | succ n ih =>
    intro pos cs hcs
    constructor
    · -- what is skipped as one piece, and then the rest
      have hskip : ∀ piece rest, rest.length ≤ n →
          ∃ mid, (Cursor.mk pos (piece ++ rest)).Passes
            (skipLayout (pos + byteLength piece) rest) mid := by
        intro piece rest hrest
        obtain ⟨mid, hmid⟩ := (ih (pos + byteLength piece) rest hrest).1
        exact ⟨piece ++ mid, hmid.prepend piece⟩
      unfold skipLayout
      split
      · exact hskip [' '] _ (Nat.le_of_succ_le_succ hcs)
      · exact hskip ['\t'] _ (Nat.le_of_succ_le_succ hcs)
      · exact hskip ['\r'] _ (Nat.le_of_succ_le_succ hcs)
      · exact hskip ['\n'] _ (Nat.le_of_succ_le_succ hcs)
      · exact hskip ['\\', '\n'] _ (Nat.le_of_succ_le (Nat.le_of_succ_le_succ hcs))
      · exact hskip ['\\', '\r', '\n'] _
          (Nat.le_of_succ_le (Nat.le_of_succ_le (Nat.le_of_succ_le_succ hcs)))
      · next rest =>
        obtain ⟨mid, hmid⟩ := (ih (pos + 1) rest (Nat.le_of_succ_le_succ hcs)).2
        exact ⟨['#'] ++ mid, Passes.prepend ['#'] hmid⟩
      · exact ⟨[], .refl _⟩
    · unfold skipComment
      split
      · exact ⟨[], .refl _⟩
      · next rest =>
        obtain ⟨mid, hmid⟩ := (ih (pos + 1) rest (Nat.le_of_succ_le_succ hcs)).1
        exact ⟨['\n'] ++ mid, Passes.prepend ['\n'] hmid⟩
      · next x rest _ =>
        obtain ⟨mid, hmid⟩ := (ih (pos + x.utf8Size) rest (Nat.le_of_succ_le_succ hcs)).2
        exact ⟨[x] ++ mid, Passes.prepend [x] hmid⟩

theorem gap_passes (b : Bool) (c : Cursor) : ∃ mid, c.Passes (expression.gap b c) mid := by
  unfold gap
  split
  · exact ⟨[], .refl c⟩
  · exact (skip_passes _ c.pos c.rest (Nat.le_refl _)).1

/-- **A match goes forward.** -/
theorem reads_passes {b : Bool} {goal : Goal Rule} {c : Cursor} {o : Outcome Rule}
    (h : Reads expression b goal c o) :
    ∀ d ts, o = matched d ts → ∃ mid, c.Passes d mid := by
  induction h with
  | textFails | charFails | endOfTextFails | seqFails | seqFailsLater | ruleFails
  | unlessFails =>
    intro d ts ho
    cases ho
  | text h =>
    rintro d ts ⟨⟩
    exact ⟨_, Cursor.passes_of_take? h⟩
  | char h =>
    rintro d ts ⟨⟩
    obtain ⟨x, -, hx⟩ := Cursor.passes_of_char? h
    exact ⟨[x], hx⟩
  | endOfText | optionalSkips | «unless» | manySkips | moreEnds =>
    rintro d ts ⟨⟩
    exact ⟨[], .refl _⟩
  | optional hp ih | choice hp ih | rule hp ih =>
    rintro d ts ⟨⟩
    exact ih _ _ rfl
  | choiceLater hp hq ihp ihq => exact ihq
  | @seq b p q c d e ts us hp hq ihp ihq =>
    rintro _ _ ⟨⟩
    obtain ⟨mid, hmid⟩ := ihp _ _ rfl
    obtain ⟨blanks, hblanks⟩ := gap_passes b d
    obtain ⟨mid', hmid'⟩ := ihq _ _ rfl
    exact ⟨_, hmid.trans (hblanks.trans hmid')⟩
  | many hp hmore ihp ihmore =>
    rintro _ _ ⟨⟩
    obtain ⟨mid, hmid⟩ := ihp _ _ rfl
    obtain ⟨mid', hmid'⟩ := ihmore _ _ rfl
    exact ⟨_, hmid.trans hmid'⟩
  | @more b p c d e ts us hp hmore ihp ihmore =>
    rintro _ _ ⟨⟩
    obtain ⟨blanks, hblanks⟩ := gap_passes b c
    obtain ⟨mid, hmid⟩ := ihp _ _ rfl
    obtain ⟨mid', hmid'⟩ := ihmore _ _ rfl
    exact ⟨_, hblanks.trans (hmid.trans hmid')⟩

section Source

variable {source : List Char} {b : Bool} {c d : Cursor} {ts us : List (Tree Rule)}

theorem in_of_reads {goal : Goal Rule} (hc : c.In source)
    (h : Reads expression b goal c (matched d ts)) : d.In source := by
  obtain ⟨mid, hmid⟩ := reads_passes h d ts rfl
  exact hc.passes hmid

theorem gap_in (b : Bool) (hc : c.In source) : (expression.gap b c).In source := by
  obtain ⟨mid, hmid⟩ := gap_passes b c
  exact hc.passes hmid

/-- A rule that eats covers some text. -/
theorem pos_lt_of_reads {r : Rule} (hr : eatsRule r = true)
    (h : Reads expression b (.one (rulePattern r)) c (matched d ts)) : c.pos < d.pos := by
  obtain ⟨mid, hmid⟩ := reads_passes h d ts rfl
  apply hmid.pos_lt
  exact (length_of_reads expressionRanking h d ts rfl).2 (expressionRanking.eats_pattern r hr)

/-! ### The nodes of a text -/

/-- The nodes stand in the text one behind the other, between two bytes, and each has been
    read with the pattern of its rule. -/
inductive Laid (source : List Char) : Nat → Nat → List (Tree Rule) → Prop
  | nil {a z : Nat} (h : a ≤ z) : Laid source a z []
  | leaf {a z : Nat} {r : Rule} {c d : Cursor} {ts us : List (Tree Rule)} (hc : c.In source)
    (hstart : a ≤ c.pos) (hread : Reads expression true (.one (rulePattern r)) c (matched d us))
    (hrest : Laid source d.pos z ts) :
    Laid source a z (.leaf r ⟨c.pos, d.pos⟩ (c.upTo d) :: ts)
  | node {a z : Nat} {r : Rule} {c d : Cursor} {ts children : List (Tree Rule)}
    (hc : c.In source) (hstart : a ≤ c.pos)
    (hread : Reads expression false (.one (rulePattern r)) c (matched d children))
    (hchildren : Laid source c.pos d.pos children) (hrest : Laid source d.pos z ts) :
    Laid source a z (.node r ⟨c.pos, d.pos⟩ children :: ts)

namespace Laid

variable {a z : Nat}

theorem le (h : Laid source a z ts) : a ≤ z := by
  induction h with
  | nil h => exact h
  | leaf _ hstart hread _ ih =>
    obtain ⟨mid, hmid⟩ := reads_passes hread _ _ rfl
    exact Nat.le_trans hstart (Nat.le_trans hmid.pos_le ih)
  | node _ hstart hread _ _ _ ih =>
    obtain ⟨mid, hmid⟩ := reads_passes hread _ _ rfl
    exact Nat.le_trans hstart (Nat.le_trans hmid.pos_le ih)

theorem widen {a' z' : Nat} (h : Laid source a z ts) (ha : a' ≤ a) (hz : z ≤ z') :
    Laid source a' z' ts := by
  induction h generalizing a' with
  | nil h => exact .nil (Nat.le_trans ha (Nat.le_trans h hz))
  | leaf hc hstart hread _ ih =>
    exact .leaf hc (Nat.le_trans ha hstart) hread (ih (Nat.le_refl _) hz)
  | node hc hstart hread hchildren _ _ ih =>
    exact .node hc (Nat.le_trans ha hstart) hread hchildren (ih (Nat.le_refl _) hz)

theorem append {m : Nat} (hts : Laid source a m ts) (hus : Laid source m z us) :
    Laid source a z (ts ++ us) := by
  induction hts with
  | nil h => exact hus.widen h (Nat.le_refl z)
  | leaf hc hstart hread _ ih => exact .leaf hc hstart hread (ih hus)
  | node hc hstart hread hchildren _ _ ih => exact .node hc hstart hread hchildren (ih hus)

variable {r : Rule} {s : Span} {t : Tree Rule} {children : List (Tree Rule)}

/-- A node and its children, and what stands behind it. -/
theorem of_node (h : Laid source a z (.node r s children :: ts)) :
    a ≤ s.start ∧ Laid source s.start s.stop children ∧ Laid source s.stop z ts ∧
      s.PointsInto source ∧ (eatsRule r = true → s.start < s.stop) := by
  cases h with
  | node hc hstart hread hchildren hrest =>
    exact ⟨hstart, hchildren, hrest,
      Span.pointsInto hchildren.le hc.boundary (in_of_reads hc hread).boundary,
      fun hr => pos_lt_of_reads hr hread⟩

/-- A node has been read with the pattern of its rule. -/
theorem reads_node (h : Laid source a z (.node r s children :: ts)) :
    ∃ c d, Reads expression false (.one (rulePattern r)) c (matched d children) := by
  cases h with
  | node hc hstart hread hchildren hrest => exact ⟨_, _, hread⟩

theorem shape_node (h : Laid source a z (.node r s children :: ts)) :
    Shape (rulePattern r) children := by
  obtain ⟨c, d, hread⟩ := h.reads_node
  exact shape_of_reads_rule hread

/-- The first of several trees, and the others. -/
theorem of_cons (h : Laid source a z (t :: ts)) :
    a ≤ t.span.start ∧ Laid source a t.span.stop [t] ∧ Laid source t.span.stop z ts ∧
      t.span.PointsInto source := by
  cases h with
  | leaf hc hstart hread hrest =>
    obtain ⟨mid, hmid⟩ := reads_passes hread _ _ rfl
    exact ⟨hstart, .leaf hc hstart hread (.nil (Nat.le_refl _)), hrest,
      Span.pointsInto hmid.pos_le hc.boundary (in_of_reads hc hread).boundary⟩
  | node hc hstart hread hchildren hrest =>
    exact ⟨hstart, .node hc hstart hread hchildren (.nil (Nat.le_refl _)), hrest,
      Span.pointsInto hchildren.le hc.boundary (in_of_reads hc hread).boundary⟩

theorem tail (h : Laid source a z (t :: ts)) : Laid source a z ts := by
  obtain ⟨hstart, -, hrest, hspan⟩ := h.of_cons
  exact hrest.widen (Nat.le_trans hstart hspan.start_le_stop) (Nat.le_refl z)

/-- A leaf stands where its text does. -/
theorem of_leaf {cs : List Char} (h : Laid source a z (.leaf r s cs :: ts)) :
    ∃ before behind, source = before ++ cs ++ behind ∧
      s = ⟨byteLength before, byteLength before + byteLength cs⟩ := by
  cases h with
  | @leaf _ _ _ c d _ us hc hstart hread hrest =>
    obtain ⟨before, hsource, hpos⟩ := hc
    obtain ⟨mid, hmid⟩ := reads_passes hread _ _ rfl
    refine ⟨before, d.rest, ?_, ?_⟩
    · rw [hmid.upTo_eq, hsource, hmid.rest, List.append_assoc]
    · rw [hmid.upTo_eq, hpos, hmid.pos]

/-- Nodes in two groups. -/
theorem of_append (h : Laid source a z (ts ++ us)) :
    ∃ m, Laid source a m ts ∧ Laid source m z us := by
  induction ts generalizing a with
  | nil => exact ⟨a, .nil (Nat.le_refl a), h⟩
  | cons t ts ih =>
    obtain ⟨-, hfirst, hrest, -⟩ := h.of_cons
    obtain ⟨m, hts, hus⟩ := ih hrest
    exact ⟨m, hfirst.append hts, hus⟩

end Laid

/-- **The nodes that a match leaves are laid where it has matched.** -/
theorem laid_of_reads {goal : Goal Rule} {o : Outcome Rule}
    (h : Reads expression b goal c o) :
    ∀ d ts, o = matched d ts → c.In source → Laid source c.pos d.pos ts := by
  induction h with
  | textFails | charFails | endOfTextFails | seqFails | seqFailsLater | ruleFails
  | unlessFails =>
    intro d ts ho
    cases ho
  | text h =>
    rintro d ts ⟨⟩ -
    exact .nil (Cursor.passes_of_take? h).pos_le
  | char h =>
    rintro d ts ⟨⟩ -
    obtain ⟨x, -, hx⟩ := Cursor.passes_of_char? h
    exact .nil hx.pos_le
  | endOfText | optionalSkips | «unless» | manySkips | moreEnds =>
    rintro d ts ⟨⟩ -
    exact .nil (Nat.le_refl _)
  | optional hp ih | choice hp ih =>
    rintro d ts ⟨⟩
    exact ih _ _ rfl
  | choiceLater hp hq ihp ihq => exact ihq
  | @seq b p q c d e ts us hp hq ihp ihq =>
    rintro _ _ ⟨⟩ hc
    obtain ⟨blanks, hblanks⟩ := gap_passes b d
    have hsecond := ihq _ _ rfl (gap_in b (in_of_reads hc hp))
    exact (ihp _ _ rfl hc).append (hsecond.widen hblanks.pos_le (Nat.le_refl _))
  | many hp hmore ihp ihmore =>
    rintro _ _ ⟨⟩ hc
    exact (ihp _ _ rfl hc).append (ihmore _ _ rfl (in_of_reads hc hp))
  | @more b p c d e ts us hp hmore ihp ihmore =>
    rintro _ _ ⟨⟩ hc
    obtain ⟨blanks, hblanks⟩ := gap_passes b c
    have hfirst := ihp _ _ rfl (gap_in b hc)
    have hrest := ihmore _ _ rfl (in_of_reads (gap_in b hc) hp)
    exact (hfirst.append hrest).widen hblanks.pos_le (Nat.le_refl _)
  | @rule b r c d ts hp ih =>
    rintro _ _ ⟨⟩ hc
    obtain ⟨mid, hmid⟩ := reads_passes hp _ _ rfl
    unfold leaves
    split
    · exact .nil hmid.pos_le
    · next hb =>
      split
      · next htoken =>
        rw [htoken, Bool.or_true] at hp
        exact .leaf hc (Nat.le_refl _) hp (.nil (Nat.le_refl _))
      · next htoken =>
        have hplain : (b || expression.isToken r) = false := by simp [hb, htoken]
        rw [hplain] at hp
        exact .node hc (Nat.le_refl _) hp (ih _ _ rfl hc) (.nil (Nat.le_refl _))

/-! ### The place of a failure -/

/-- A run leaves its trail at a boundary of the text. -/
def TrailsIn (source : List Char) (fuel : Nat) : Prop :=
  ∀ b p c t, c.In source → IsBoundary source t.pos →
    IsBoundary source (expression.run fuel b p c t).2.pos

def TrailsAgainIn (source : List Char) (fuel : Nat) : Prop :=
  ∀ b p found c t, c.In source → IsBoundary source t.pos →
    IsBoundary source (expression.runAgain fuel b p found c t).2.pos

theorem fail_boundary {before after : Trail Rule} {pos : Nat} {r : Rule}
    (hafter : IsBoundary source after.pos) (hpos : IsBoundary source pos) :
    IsBoundary source (before.fail after pos r).pos := by
  unfold Trail.fail
  split
  · exact hafter
  · split
    · exact hafter
    · exact hpos

theorem in_of_run {fuel : Nat} {p : Pattern Rule} {t t' : Trail Rule} (hc : c.In source)
    (h : expression.run fuel b p c t = (matched d ts, t')) : d.In source :=
  in_of_reads hc ((runsRead_all expression fuel).1 b p c t _ _ h (fun hfuel => by cases hfuel))

theorem TrailsIn.seq {fuel : Nat} (ih : TrailsIn source fuel) {p q : Pattern Rule}
    {t : Trail Rule} (hc : c.In source) (ht : IsBoundary source t.pos) :
    IsBoundary source (expression.run (fuel + 1) b (.seq p q) c t).2.pos := by
  have hfirst := ih b p c t hc ht
  simp only [run]
  rcases hp : expression.run fuel b p c t with ⟨o, u⟩
  rw [hp] at hfirst
  cases o with
  | matched d ts =>
    have hsecond := ih b q (expression.gap b d) u (gap_in b (in_of_run hc hp)) hfirst
    dsimp only
    rcases hq : expression.run fuel b q (expression.gap b d) u with ⟨o, v⟩
    rw [hq] at hsecond
    cases o <;> exact hsecond
  | failed => exact hfirst
  | outOfFuel => exact hfirst

theorem TrailsIn.step {fuel : Nat} (ih : TrailsIn source fuel)
    (ihAgain : TrailsAgainIn source fuel) : TrailsIn source (fuel + 1) := by
  intro b p c t hc ht
  cases p with
  | text cs | char accepts =>
    simp only [run]
    split
    · exact ht
    · exact ht
  | endOfText => exact ht
  | seq p q => exact ih.seq hc ht
  | rule r =>
    have hinner := ih (b || expression.isToken r) (rulePattern r) c t hc ht
    simp only [run]
    rcases hp : expression.run fuel (b || expression.isToken r) (expression.pattern r) c t with
      ⟨o, u⟩
    rw [show expression.pattern r = rulePattern r from rfl] at hp
    rw [hp] at hinner
    cases o with
    | matched d ts =>
      dsimp only
      split
      · exact hinner
      · split <;> exact hinner
    | failed =>
      dsimp only
      split
      · exact hinner
      · exact fail_boundary hinner hc.boundary
    | outOfFuel => exact hinner
  | choice p q =>
    have hfirst := ih b p c t hc ht
    simp only [run]
    rcases hp : expression.run fuel b p c t with ⟨o, u⟩
    rw [hp] at hfirst
    cases o with
    | failed => exact ih b q c u hc hfirst
    | matched d ts => exact hfirst
    | outOfFuel => exact hfirst
  | optional p | «unless» p =>
    have hfirst := ih b p c t hc ht
    simp only [run]
    rcases hp : expression.run fuel b p c t with ⟨o, u⟩
    rw [hp] at hfirst
    cases o <;> exact hfirst
  | many p =>
    have hfirst := ih b p c t hc ht
    simp only [run]
    rcases hp : expression.run fuel b p c t with ⟨o, u⟩
    rw [hp] at hfirst
    cases o with
    | matched d ts => exact ihAgain b p ts.reverse d u (in_of_run hc hp) hfirst
    | failed => exact hfirst
    | outOfFuel => exact hfirst

theorem trailsIn_all (source : List Char) (fuel : Nat) :
    TrailsIn source fuel ∧ TrailsAgainIn source fuel := by
  induction fuel with
  | zero => exact ⟨fun b p c t _ ht => ht, fun b p found c t _ ht => ht⟩
  | succ fuel ih =>
    obtain ⟨ih, ihAgain⟩ := ih
    refine ⟨ih.step ihAgain, ?_⟩
    intro b p found c t hc ht
    have hfirst := ih b p (expression.gap b c) t (gap_in b hc) ht
    simp only [runAgain]
    rcases hp : expression.run fuel b p (expression.gap b c) t with ⟨o, u⟩
    rw [hp] at hfirst
    cases o with
    | matched d ts => exact ihAgain b p _ d u (in_of_run (gap_in b hc) hp) hfirst
    | failed => exact hfirst
    | outOfFuel => exact hfirst

/-- **Reading gets stuck at a boundary of the text.** -/
theorem readSource_trail (source : List Char) : IsBoundary source (readSource source).2.pos :=
  (trailsIn_all source _).1 _ _ _ _ (.start source) (.zero source)

end Source

end Grammar

end SafeExpr
