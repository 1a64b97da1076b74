/-
  SafeExpr/Proofs/Syntax/Placed.lean
  ==================================
  **Nodes that stand in their place.**

  A span points into a text if it is a range of bytes of the text that cuts no character.
  `Row source a b es` says that the trees `es` stand in the text one behind the other,
  between two bytes, and that the same holds of the parts of each within its own span.
  Trees are put together by putting rows together.
-/
import SafeExpr.Syntax.Expr

namespace SafeExpr

variable {source : List Char}

/-! ### Places in a text -/

/-- A character of the text starts at this byte, or the text ends there. -/
def IsBoundary (source : List Char) (pos : Nat) : Prop :=
  ∃ before behind, source = before ++ behind ∧ byteLength before = pos

theorem IsBoundary.zero (source : List Char) : IsBoundary source 0 := ⟨[], source, rfl, rfl⟩

theorem IsBoundary.le_length {pos : Nat} (h : IsBoundary source pos) :
    pos ≤ byteLength source := by
  obtain ⟨before, behind, rfl, rfl⟩ := h
  rw [byteLength_append]
  exact Nat.le_add_right _ _

/-- A range of bytes of the text, between the boundaries of characters. -/
structure Span.PointsInto (source : List Char) (s : Span) : Prop where
  start_le_stop : s.start ≤ s.stop
  stop_le_length : s.stop ≤ byteLength source
  start_boundary : IsBoundary source s.start
  stop_boundary : IsBoundary source s.stop

theorem Span.pointsInto {s : Span} (hle : s.start ≤ s.stop) (hstart : IsBoundary source s.start)
    (hstop : IsBoundary source s.stop) : s.PointsInto source :=
  ⟨hle, hstop.le_length, hstart, hstop⟩

theorem Span.pointsInto_point {pos : Nat} (h : IsBoundary source pos) :
    (Span.point pos).PointsInto source :=
  Span.pointsInto (Nat.le_refl pos) h h

theorem dropBytes_byteLength (cs ds : List Char) : dropBytes (byteLength cs) (cs ++ ds) = ds := by
  induction cs with
  | nil =>
    cases ds with
    | nil => rfl
    | cons d ds => rfl
  | cons c cs ih =>
    have hpos := c.utf8Size_pos
    rw [List.cons_append, byteLength_cons, dropBytes, if_neg (by omega), Nat.add_sub_cancel_left,
      ih]

/-- A span covers what stands between its two ends. -/
theorem Span.slice_of_append {source : String} {before cs : List Char} (behind : List Char)
    (h : source.toList = before ++ cs ++ behind) :
    (Span.mk (byteLength before) (byteLength before + byteLength cs)).slice source =
      String.ofList cs := by
  rw [Span.slice, h, List.append_assoc, dropBytes_byteLength, Nat.add_sub_cancel_left,
    takeBytes_byteLength]

/-! ### Rows of trees -/

/-- The span of a keyword argument, its name included. -/
def Argument.span? : Argument Expr → Option Span
  | .keyword span _ _ => some span
  | .positional _ => none

def Expr.keywordSpans : Expr → List Span
  | .call _ _ args => args.filterMap Argument.span?
  | _ => []

inductive Row (source : List Char) : Nat → Nat → List Expr → Prop
  | nil {a b} (h : a ≤ b) : Row source a b []
  | cons {a b e es} (hstart : a ≤ e.span.start) (hne : e.span.start < e.span.stop)
    (hspan : e.span.PointsInto source) (hkeywords : ∀ s ∈ e.keywordSpans, s.PointsInto source)
    (hparts : Row source e.span.start e.span.stop e.children)
    (hrest : Row source e.span.stop b es) : Row source a b (e :: es)

namespace Row

variable {a b c : Nat} {e : Expr} {es fs : List Expr}

theorem le (h : Row source a b es) : a ≤ b := by
  induction h with
  | nil h => exact h
  | cons hstart hne _ _ _ _ _ ih =>
    exact Nat.le_trans hstart (Nat.le_trans (Nat.le_of_lt hne) ih)

theorem widen {a' b' : Nat} (h : Row source a b es) (ha : a' ≤ a) (hb : b ≤ b') :
    Row source a' b' es := by
  induction h generalizing a' with
  | nil h => exact .nil (Nat.le_trans ha (Nat.le_trans h hb))
  | cons hstart hne hspan hkeywords hparts _ _ ih =>
    exact .cons (Nat.le_trans ha hstart) hne hspan hkeywords hparts (ih (Nat.le_refl _) hb)

theorem append (hes : Row source a b es) (hfs : Row source b c fs) :
    Row source a c (es ++ fs) := by
  induction hes with
  | nil h => exact hfs.widen h (Nat.le_refl c)
  | cons hstart hne hspan hkeywords hparts _ _ ih =>
    exact .cons hstart hne hspan hkeywords hparts (ih hfs)

/-- One tree that is wider than its parts. -/
theorem single (hne : e.span.start < e.span.stop) (hspan : e.span.PointsInto source)
    (hkeywords : ∀ s ∈ e.keywordSpans, s.PointsInto source)
    (hparts : Row source e.span.start e.span.stop e.children) :
    Row source e.span.start e.span.stop [e] :=
  .cons (Nat.le_refl _) hne hspan hkeywords hparts (.nil (Nat.le_refl _))

theorem bounds (h : Row source a b es) (he : e ∈ es) :
    a ≤ e.span.start ∧ e.span.stop ≤ b := by
  induction h with
  | nil => cases he
  | cons hstart hne _ _ _ hrest _ ih =>
    rcases List.mem_cons.mp he with rfl | he
    · exact ⟨hstart, hrest.le⟩
    · obtain ⟨hlower, hupper⟩ := ih he
      exact ⟨Nat.le_trans hstart (Nat.le_trans (Nat.le_of_lt hne) hlower), hupper⟩

theorem pairwise (h : Row source a b es) :
    es.Pairwise fun c d => c.span.stop ≤ d.span.start := by
  induction h with
  | nil => exact .nil
  | cons _ _ _ _ _ hrest _ ih => exact .cons (fun d hd => (hrest.bounds hd).1) ih

end Row

/-! ### Nodes -/

/-- A node covers some text, and its children stand within it, one behind the other. -/
structure Expr.WellPlaced (source : List Char) (n : Expr) : Prop where
  nonempty : n.span.start < n.span.stop
  span : n.span.PointsInto source
  inside : ∀ c ∈ n.children, n.span.start ≤ c.span.start ∧ c.span.stop ≤ n.span.stop
  ordered : n.children.Pairwise fun c d => c.span.stop ≤ d.span.start
  keywords : ∀ s ∈ n.keywordSpans, s.PointsInto source

/-- **Every node of the trees of a row stands in its place.** -/
theorem Row.wellPlaced {a b : Nat} {es : List Expr} (h : Row source a b es) :
    ∀ e ∈ es, ∀ n ∈ e.nodes, n.WellPlaced source := by
  induction h with
  | nil => exact List.forall_mem_nil _
  | @cons a b e es hstart hne hspan hkeywords hparts hrest ihparts ihrest =>
    refine List.forall_mem_cons.mpr ⟨?_, ihrest⟩
    intro n hn
    rw [Expr.nodes_eq] at hn
    rcases List.mem_cons.mp hn with rfl | hn
    · exact ⟨hne, hspan, fun c hc => hparts.bounds hc, hparts.pairwise, hkeywords⟩
    · obtain ⟨c, hc, hn⟩ := List.mem_flatMap.mp hn
      exact ihparts c hc n hn

end SafeExpr
