/-
  SafeExpr/Proofs/Parse/Literal.lean
  ==================================
  **Where a literal stands, and where it goes wrong.**

  A literal covers its token.  A number that does not fit is reported with the whole token,
  an escape that goes wrong from its backslash to the place where it does; the offsets of
  escapes are counted along the text, and end on characters wherever decoding stops.
-/
import SafeExpr.Parse.Build
import SafeExpr.Proofs.Except
import SafeExpr.Proofs.Grammar.Quoted

namespace SafeExpr

open Cursor (In Passes)

variable {source : List Char}

/-! ### Escapes -/

theorem utf8Size_of_le {d : Char} (h : d ≤ 'z') : d.utf8Size = 1 := by
  have hz : 'z'.val ≤ 0x7f := by decide
  exact if_pos (UInt32.le_trans h hz)

theorem utf8Size_of_isHex {d : Char} (h : decodeText.isHex d = true) : d.utf8Size = 1 := by
  apply utf8Size_of_le
  simp only [decodeText.isHex, digitValue?] at h
  split at h
  · next hd =>
    simp only [Char.isDigit, Bool.and_eq_true, decide_eq_true_eq] at hd
    exact UInt32.le_trans hd.2 (by decide)
  · split at h
    · next hd =>
      simp only [Bool.and_eq_true, decide_eq_true_eq] at hd
      exact hd.2
    · split at h
      · next hd =>
        simp only [Bool.and_eq_true, decide_eq_true_eq] at hd
        exact Char.le_trans hd.2 (by decide)
      · cases h

theorem utf8Size_of_escapeWidth? {c : Char} {width : Nat} (h : escapeWidth? c = some width) :
    c.utf8Size = 1 := by
  unfold escapeWidth? at h
  split at h
  · rfl
  · rfl
  · rfl
  · cases h

/-- The escape has been read up to byte `pos`. -/
def OpenEscape.ReadTo (source : List Char) (pos : Nat) (o : OpenEscape) : Prop :=
  IsBoundary source o.start ∧ o.start + 2 + o.digits.length = pos

theorem OpenEscape.ReadTo.error {o : OpenEscape} {pos : Nat} (h : o.ReadTo source pos)
    (hpos : IsBoundary source pos) : o.error.span.PointsInto source := by
  obtain ⟨hstart, rfl⟩ := h
  refine Span.pointsInto ?_ hstart hpos
  simp only [OpenEscape.error]
  omega

theorem in_behind {pos : Nat} {c : Char} {rest : List Char}
    (h : (Cursor.mk pos (c :: rest)).In source) :
    (Cursor.mk (pos + c.utf8Size) rest).In source := by
  have hpasses : (Cursor.mk pos (c :: rest)).Passes ⟨pos + c.utf8Size, rest⟩ [c] :=
    ⟨rfl, by simp [byteLength]⟩
  exact h.passes hpasses

/-- A bad escape is reported from its backslash to where it goes wrong. -/
theorem decodeText_placed (o : Option OpenEscape) (pos : Nat) (cs behind : List Char)
    (hin : (Cursor.mk pos (cs ++ behind)).In source) (ho : ∀ e ∈ o, e.ReadTo source pos) :
    (decodeText o pos cs).Satisfies (fun _ => True) fun err => err.span.PointsInto source := by
  have hnone : ∀ pos, ∀ e ∈ (none : Option OpenEscape), e.ReadTo source pos := by
    intro pos e he
    cases he
  -- an escape takes one more digit
  have hdigit : ∀ {o : OpenEscape} {pos : Nat} {d : Char}, o.ReadTo source pos →
      ({ o with digits := o.digits ++ [d] } : OpenEscape).ReadTo source (pos + 1) := by
    intro o pos d h
    refine ⟨h.1, ?_⟩
    rw [← h.2, List.length_append]
    rfl
  fun_induction decodeText o pos cs with
  | case1 => trivial
  | case2 o pos => exact (ho o rfl).error hin.boundary
  | case3 o pos d rest hd _ _ c _ ih =>
    have hbehind := in_behind hin
    rw [utf8Size_of_isHex hd] at hbehind
    exact (ih hbehind (hnone _)).map fun _ _ => trivial
  | case4 o pos d rest hd _ _ _ =>
    have hbehind := in_behind hin
    rw [utf8Size_of_isHex hd] at hbehind
    exact (hdigit (ho o rfl)).error hbehind.boundary
  | case5 o pos d rest hd _ _ ih =>
    have hbehind := in_behind hin
    rw [utf8Size_of_isHex hd] at hbehind
    refine ih hbehind ?_
    rintro e ⟨⟩
    exact hdigit (ho o rfl)
  | case6 o pos d rest hd => exact (ho o rfl).error hin.boundary
  | case7 => trivial
  | case8 pos c rest width hc ih =>
    have hbehind := in_behind (in_behind hin)
    rw [utf8Size_of_escapeWidth? hc] at hbehind
    refine ih hbehind ?_
    rintro e ⟨⟩
    exact ⟨hin.boundary, rfl⟩
  | case9 pos c rest _ ih => exact (ih (in_behind (in_behind hin)) (hnone _)).map fun _ _ => trivial
  | case10 pos c rest _ _ ih => exact (ih (in_behind hin) (hnone _)).map fun _ _ => trivial

/-! ### Literals -/

/-- The literal of a token stands where the token does. -/
theorem literal_placed {r : Rule} {c d : Cursor} {ts : List (Tree Rule)} (hc : c.In source)
    (h : Grammar.Reads Grammar.expression true (.one (Grammar.rulePattern r)) c (.matched d ts)) :
    (Build.literal r ⟨c.pos, d.pos⟩ (c.upTo d)).Satisfies
      (fun e => e.span = ⟨c.pos, d.pos⟩ ∧ e.children = [] ∧ e.keywordSpans = [] ∧
        Grammar.eatsRule r = true)
      fun err => err.span.PointsInto source := by
  have hspan : (Span.mk c.pos d.pos).PointsInto source := by
    obtain ⟨mid, hmid⟩ := Grammar.reads_passes h _ _ rfl
    exact Span.pointsInto hmid.pos_le hc.boundary (Grammar.in_of_reads hc h).boundary
  unfold Build.literal
  dsimp only
  split
  · split
    · exact ⟨rfl, rfl, rfl, rfl⟩
    · exact hspan
  · split
    · exact ⟨rfl, rfl, rfl, rfl⟩
    · exact hspan
  · obtain ⟨_, ⟨hq, -⟩, hpasses⟩ := Grammar.stringText_of_reads h
    rename_i q body
    have hbody : (Cursor.mk (c.pos + 1) (body ++ (q :: d.rest))).In source := by
      rw [← hq.utf8Size]
      apply in_behind
      obtain ⟨before, hsource, hpos⟩ := hc
      refine ⟨before, ?_, hpos⟩
      rw [hsource, hpasses.rest]
      simp
    have hread : (readQuoted c.pos (c.upTo d)).Satisfies (fun _ => True)
        fun err => err.span.PointsInto source := by
      rw [hpasses.upTo_eq, readQuoted, List.drop_one, List.tail_cons, List.dropLast_concat]
      refine (decodeText_placed none _ body _ hbody ?_).map fun _ _ => trivial
      rintro e ⟨⟩
    exact hread.map fun _ _ => ⟨rfl, rfl, rfl, rfl⟩
  · exact ⟨rfl, rfl, rfl, rfl⟩
  · exact ⟨rfl, rfl, rfl, rfl⟩
  · exact ⟨rfl, rfl, rfl, rfl⟩
  · exact Span.pointsInto_point (.zero source)

end SafeExpr
