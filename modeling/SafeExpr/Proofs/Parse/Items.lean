/-
  SafeExpr/Proofs/Parse/Items.lean
  ================================
  **What resolution keeps.**

  Resolution does nothing to trees but to put operators around them.  A property that all
  operators keep, as far as they meet some condition of their own, is a property of whatever the
  items resolve to, if the operands among them have it (`OperatorClosed.resolve`).

  The places of the trees are kept in another way.  The items of a flat expression stand one
  behind the other (`Run`).  While resolution goes through them, the operators that wait,
  outermost last, and the operand that they wait with stand in the order of the text as well
  (`Waits`).  Whatever operator takes its operands then has a row of parts.
-/
import SafeExpr.Parse.Precedence
import SafeExpr.Proofs.Except
import SafeExpr.Proofs.Syntax.Placed

namespace SafeExpr

/-! ### Properties that all operators keep -/

/-- A property of trees, and what operators have to meet to keep it. -/
structure OperatorClosed where
  tree : Expr → Prop
  before : Nat → Before → Prop
  between : Between → Prop
  after : Nat → After → Prop
  before_node {start : Nat} {op : Before} {e : Expr} : before start op → tree e →
    tree (op.node start e)
  between_node {op : Between} {l r : Expr} : between op → tree l → tree r →
    (op.node l r).Ensures tree
  after_node {stop : Nat} {op : After} {e : Expr} : after stop op → tree e →
    (op.node e stop).Ensures tree

namespace OperatorClosed

variable (closed : OperatorClosed)

/-- An operand that has the property if it is built, or an operator that keeps it. -/
def ItemMeets : Item → Prop
  | .before start op => closed.before start op
  | .operand e => e.Ensures closed.tree
  | .between op => closed.between op
  | .after stop op => closed.after stop op

def WaitingMeets : Waiting → Prop
  | .before start op => closed.before start op
  | .between left op => left.Ensures closed.tree ∧ closed.between op

variable {closed} {w : Waiting} {ws : List Waiting} {e : Built Expr} {items : List Item}

theorem take (hw : closed.WaitingMeets w) (he : e.Ensures closed.tree) :
    (w.take e).Ensures closed.tree := by
  cases w with
  | before start op => exact Except.Satisfies.map he fun x hx => closed.before_node hw hx
  | between left op =>
    exact Except.Satisfies.bind hw.1 fun l hl => Except.Satisfies.bind he fun r hr =>
      closed.between_node hw.2 hl hr

theorem settle {k : Level} (hws : ∀ w ∈ ws, closed.WaitingMeets w) (he : e.Ensures closed.tree) :
    (∀ w ∈ (SafeExpr.settle k ws e).1, closed.WaitingMeets w) ∧
      (SafeExpr.settle k ws e).2.Ensures closed.tree := by
  induction ws generalizing e with
  | nil => exact ⟨hws, he⟩
  | cons w ws ih =>
    obtain ⟨hw, hrest⟩ := List.forall_mem_cons.mp hws
    unfold SafeExpr.settle
    split
    · exact ih hrest (take hw he)
    · exact ⟨hws, he⟩

theorem finish (hws : ∀ w ∈ ws, closed.WaitingMeets w) (he : e.Ensures closed.tree) :
    (SafeExpr.finish ws e).Ensures closed.tree := by
  induction ws generalizing e with
  | nil => exact he
  | cons w ws ih =>
    obtain ⟨hw, hrest⟩ := List.forall_mem_cons.mp hws
    exact ih hrest (take hw he)

/-- One pass over the items, with an operand expected or with one just read. -/
theorem next (hitems : ∀ i ∈ items, closed.ItemMeets i) :
    (∀ ws, (∀ w ∈ ws, closed.WaitingMeets w) →
      (operandNext ws items).Ensures closed.tree) ∧
    ∀ ws e, (∀ w ∈ ws, closed.WaitingMeets w) → e.Ensures closed.tree →
      (operatorNext ws e items).Ensures closed.tree := by
  induction items with
  | nil => exact ⟨fun _ _ => trivial, fun ws e hws he => finish hws he⟩
  | cons item items ih =>
    obtain ⟨hitem, hrest⟩ := List.forall_mem_cons.mp hitems
    obtain ⟨ihOperand, ihOperator⟩ := ih hrest
    constructor
    · intro ws hws
      cases item with
      | before start op => exact ihOperand _ (List.forall_mem_cons.mpr ⟨hitem, hws⟩)
      | operand e => exact ihOperator ws e hws hitem
      | between op => trivial
      | after stop op => trivial
    · intro ws e hws he
      cases item with
      | before start op => trivial
      | operand e => trivial
      | between op =>
        obtain ⟨hws', he'⟩ := settle (k := op.level) hws he
        exact ihOperand _ (List.forall_mem_cons.mpr ⟨⟨he', hitem⟩, hws'⟩)
      | after stop op =>
        obtain ⟨hws', he'⟩ := settle (k := After.level) hws he
        exact ihOperator _ _ hws' (Except.Satisfies.bind he' fun x hx =>
          closed.after_node hitem hx)

/-- **What the items resolve to has the property**, if it is built. -/
theorem resolve (closed : OperatorClosed) {items : List Item}
    (h : ∀ i ∈ items, closed.ItemMeets i) : (SafeExpr.resolve items).Ensures closed.tree :=
  (next h).1 [] (List.forall_mem_nil _)

end OperatorClosed

/-! ### Trees in their place -/

/-- What is built has its parts in a row between two bytes of the text, and a failure points
    into the text. -/
def Stands {α : Type} (source : List Char) (parts : α → List Expr) (a z : Nat)
    (m : Built α) : Prop :=
  m.Satisfies (fun x => Row source a z (parts x)) fun err => err.span.PointsInto source

variable {source : List Char} {a m z : Nat}

theorem Stands.widen {α : Type} {parts : α → List Expr} {x : Built α} {a' z' : Nat}
    (h : Stands source parts a z x) (ha : a' ≤ a) (hz : z ≤ z') : Stands source parts a' z' x :=
  Except.Satisfies.imp h fun _ hrow => hrow.widen ha hz

theorem stands_malformed {α : Type} (source : List Char) (parts : α → List Expr) (a z : Nat) :
    Stands source parts a z (.error malformed) :=
  Span.pointsInto_point (.zero source)

/-- A single tree in its place. -/
abbrev StandsOne (source : List Char) (a z : Nat) (e : Built Expr) : Prop :=
  Stands source (fun e => [e]) a z e

/-! ### Items in a row -/

def Between.Stands (source : List Char) (a z : Nat) : Between → Prop
  | .conditional condition => StandsOne source a z condition
  | _ => True

/-- The arguments of a call, and its keywords. -/
def StandsArguments (source : List Char) (a z : Nat) (args : Built (List (Argument Expr))) :
    Prop :=
  args.Satisfies
    (fun as => Row source a z (as.map Argument.value) ∧
      ∀ s ∈ as.filterMap Argument.span?, s.PointsInto source)
    fun err => err.span.PointsInto source

def After.Stands (source : List Char) (a z : Nat) : After → Prop
  | .call args => StandsArguments source a z args
  | .subscript index => StandsOne source a z index
  | .member _ => True

inductive Run (source : List Char) : Nat → Nat → List Item → Prop
  | nil {a z : Nat} (h : a ≤ z) : Run source a z []
  | before {a z start : Nat} {op : Before} {items : List Item} (hle : a ≤ start)
    (hstart : IsBoundary source start) (hrest : Run source start z items) :
    Run source a z (.before start op :: items)
  | operand {a m z : Nat} {e : Built Expr} {items : List Item} (hle : a ≤ m)
    (he : StandsOne source a m e) (hrest : Run source m z items) :
    Run source a z (.operand e :: items)
  | between {a m z : Nat} {op : Between} {items : List Item} (hle : a ≤ m)
    (hop : op.Stands source a m) (hrest : Run source m z items) :
    Run source a z (.between op :: items)
  | after {a stop z : Nat} {op : After} {items : List Item} (hle : a ≤ stop)
    (hop : op.Stands source a stop) (hstop : IsBoundary source stop)
    (hrest : Run source stop z items) : Run source a z (.after stop op :: items)

theorem Between.Stands.widen {op : Between} {a' z' : Nat} (h : op.Stands source a z)
    (ha : a' ≤ a) (hz : z ≤ z') : op.Stands source a' z' := by
  cases op with
  | conditional condition => exact SafeExpr.Stands.widen h ha hz
  | _ => trivial

theorem After.Stands.widen {op : After} {a' z' : Nat} (h : op.Stands source a z) (ha : a' ≤ a)
    (hz : z ≤ z') : op.Stands source a' z' := by
  cases op with
  | call args => exact Except.Satisfies.imp h fun _ hargs => ⟨hargs.1.widen ha hz, hargs.2⟩
  | subscript index => exact SafeExpr.Stands.widen h ha hz
  | member attr => trivial

theorem Run.widen {items : List Item} {a' : Nat} (h : Run source a z items) (ha : a' ≤ a) :
    Run source a' z items := by
  cases h with
  | nil h => exact .nil (Nat.le_trans ha h)
  | before hle hstart hrest => exact .before (Nat.le_trans ha hle) hstart hrest
  | operand hle he hrest =>
    exact .operand (Nat.le_trans ha hle) (he.widen ha (Nat.le_refl _)) hrest
  | between hle hop hrest =>
    exact .between (Nat.le_trans ha hle) (hop.widen ha (Nat.le_refl _)) hrest
  | after hle hop hstop hrest =>
    exact .after (Nat.le_trans ha hle) (hop.widen ha (Nat.le_refl _)) hstop hrest

theorem Run.le {items : List Item} (h : Run source a z items) : a ≤ z := by
  induction h with
  | nil h => exact h
  | before hle _ _ ih => exact Nat.le_trans hle ih
  | operand hle _ _ ih => exact Nat.le_trans hle ih
  | between hle _ _ ih => exact Nat.le_trans hle ih
  | after hle _ _ _ ih => exact Nat.le_trans hle ih

/-! ### Nodes of operators -/

theorem Row.of_single {e : Expr} (h : Row source a z [e]) :
    a ≤ e.span.start ∧ e.span.start < e.span.stop ∧ e.span.stop ≤ z ∧
      e.span.PointsInto source ∧ Row source e.span.start e.span.stop [e] ∧
      Row source e.span.start e.span.stop e.children := by
  cases h with
  | cons hstart hne hspan hkeywords hparts hrest =>
    exact ⟨hstart, hne, hrest.le, hspan, .single hne hspan hkeywords hparts, hparts⟩

/-- A node from the start of one part to the end of another. -/
theorem Row.node {e : Expr} {start stop : Nat} (hspan : e.span = ⟨start, stop⟩)
    (hne : start < stop) (hstart : IsBoundary source start) (hstop : IsBoundary source stop)
    (hkeywords : ∀ s ∈ e.keywordSpans, s.PointsInto source)
    (hparts : Row source start stop e.children) (ha : a ≤ start) (hz : stop ≤ z) :
    Row source a z [e] := by
  have hpoints : (Span.mk start stop).PointsInto source :=
    Span.pointsInto (Nat.le_of_lt hne) hstart hstop
  have hrow : Row source e.span.start e.span.stop [e] := by
    refine .single ?_ ?_ hkeywords ?_
    · rw [hspan]
      exact hne
    · rw [hspan]
      exact hpoints
    · rw [hspan]
      exact hparts
  rw [hspan] at hrow
  exact hrow.widen ha hz

theorem Before.node_row {op : Before} {start : Nat} {e : Expr} (ha : a ≤ start)
    (hstart : IsBoundary source start) (he : Row source start z [e]) :
    Row source a z [op.node start e] := by
  obtain ⟨hle, hne, hz, hspan, hrow, -⟩ := he.of_single
  have hparts := hrow.widen hle (Nat.le_refl _)
  cases op with
  | unary op =>
    exact .node rfl (Nat.lt_of_le_of_lt hle hne) hstart hspan.stop_boundary
      (List.forall_mem_nil _) hparts ha hz
  | lambda params =>
    exact .node rfl (Nat.lt_of_le_of_lt hle hne) hstart hspan.stop_boundary
      (List.forall_mem_nil _) hparts ha hz

/-- The operands of an operator, with what it encloses between them. -/
theorem Between.node_row {op : Between} {b : Nat} {l r : Expr} (hl : Row source a m [l])
    (hop : op.Stands source m b) (hle : m ≤ b) (hr : Row source b z [r]) :
    StandsOne source a z (op.node l r) := by
  obtain ⟨hla, hlne, hlm, hlspan, hlrow, hlparts⟩ := hl.of_single
  obtain ⟨hrb, hrne, hrz, hrspan, hrrow, -⟩ := hr.of_single
  have hmid : l.span.stop ≤ r.span.start := Nat.le_trans hlm (Nat.le_trans hle hrb)
  have hne : l.span.start < r.span.stop := by omega
  -- a node whose children are a row that ends with the right operand
  have hnode : ∀ (e : Expr) (before : List Expr), e.span = ⟨l.span.start, r.span.stop⟩ →
      e.keywordSpans = [] → e.children = before ++ [r] →
        Row source l.span.start r.span.start before → Row source a z [e] := by
    intro e before hspan hkeywords hchildren hbefore
    refine .node hspan hne hlspan.start_boundary hrspan.stop_boundary ?_ ?_ hla hrz
    · rw [hkeywords]
      exact List.forall_mem_nil _
    · rw [hchildren]
      exact hbefore.append hrrow
  have hleft : Row source l.span.start r.span.start [l] := hlrow.widen (Nat.le_refl _) hmid
  cases op with
  | binary op => exact hnode _ [l] rfl rfl rfl hleft
  | boolOp op => exact hnode _ [l] rfl rfl rfl hleft
  | named => exact hnode _ [l] rfl rfl rfl hleft
  | compare op =>
    simp only [Between.node]
    split
    · next s first links =>
      refine hnode _ (first :: links.map Prod.snd) rfl rfl ?_ (hlparts.widen (Nat.le_refl _) hmid)
      simp [Expr.children]
    · exact hnode _ [l] rfl rfl rfl hleft
  | conditional condition =>
    refine Except.Satisfies.map hop fun c hc => ?_
    exact hnode _ [l, c] rfl rfl rfl (hlrow.append (hc.widen hlm hrb))

theorem After.node_row {op : After} {stop : Nat} {e : Expr} (he : Row source a m [e])
    (hop : op.Stands source m stop) (hle : m ≤ stop) (hstop : IsBoundary source stop) :
    StandsOne source a stop (op.node e stop) := by
  obtain ⟨hae, hne, hem, hspan, hrow, -⟩ := he.of_single
  have hlt : e.span.start < stop := by omega
  have hz := Nat.le_refl stop
  cases op with
  | call args =>
    refine Except.Satisfies.map hop fun as has => ?_
    exact .node rfl hlt hspan.start_boundary hstop has.2 (hrow.append (has.1.widen hem hz)) hae hz
  | subscript index =>
    refine Except.Satisfies.map hop fun i hi => ?_
    exact .node rfl hlt hspan.start_boundary hstop (List.forall_mem_nil _)
      (hrow.append (hi.widen hem hz)) hae hz
  | member attr =>
    exact Row.node rfl hlt hspan.start_boundary hstop (List.forall_mem_nil _)
      (hrow.widen (Nat.le_refl _) (Nat.le_trans hem hle)) hae hz

/-! ### Waiting operators -/

/-- The operators wait for an operand behind byte `b`; all that they have stands behind
    byte `a`. -/
inductive Waits (source : List Char) (a : Nat) : Nat → List Waiting → Prop
  | nil {b : Nat} (h : a ≤ b) : Waits source a b []
  | before {b start : Nat} {op : Before} {ws : List Waiting} (hle : start ≤ b)
    (hstart : IsBoundary source start) (hrest : Waits source a start ws) :
    Waits source a b (.before start op :: ws)
  | between {b l m : Nat} {left : Built Expr} {op : Between} {ws : List Waiting}
    (hl : StandsOne source l m left) (hle : m ≤ b) (hop : op.Stands source m b)
    (hrest : Waits source a l ws) : Waits source a b (.between left op :: ws)

theorem Waits.widen {b b' : Nat} {ws : List Waiting} (h : Waits source a b ws) (hb : b ≤ b') :
    Waits source a b' ws := by
  cases h with
  | nil h => exact .nil (Nat.le_trans h hb)
  | before hle hstart hrest => exact .before (Nat.le_trans hle hb) hstart hrest
  | between hl hle hop hrest =>
    exact .between hl (Nat.le_trans hle hb) (hop.widen (Nat.le_refl _) hb) hrest

/-- An operator takes its operand, and leaves a wider one. -/
theorem Waits.take {b : Nat} {w : Waiting} {ws : List Waiting} {e : Built Expr}
    (h : Waits source a b (w :: ws)) (he : StandsOne source b z e) :
    ∃ b', Waits source a b' ws ∧ StandsOne source b' z (w.take e) := by
  cases h with
  | before hle hstart hrest =>
    refine ⟨_, hrest, ?_⟩
    exact Except.Satisfies.map he fun x hx =>
      Before.node_row (Nat.le_refl _) hstart (hx.widen hle (Nat.le_refl _))
  | between hl hle hop hrest =>
    refine ⟨_, hrest, ?_⟩
    exact Except.Satisfies.bind hl fun l hl => Except.Satisfies.bind he fun r hr =>
      Between.node_row hl hop hle hr

theorem Waits.settle {b : Nat} {ws : List Waiting} {e : Built Expr} (k : Level)
    (h : Waits source a b ws) (he : StandsOne source b z e) :
    ∃ b', Waits source a b' (settle k ws e).1 ∧ StandsOne source b' z (settle k ws e).2 := by
  induction ws generalizing b e with
  | nil => exact ⟨b, h, he⟩
  | cons w ws ih =>
    unfold SafeExpr.settle
    split
    · obtain ⟨b', hws, he'⟩ := h.take he
      exact ih hws he'
    · exact ⟨b, h, he⟩

theorem Waits.finish {b : Nat} {ws : List Waiting} {e : Built Expr} (h : Waits source a b ws)
    (he : StandsOne source b z e) : StandsOne source a z (finish ws e) := by
  induction ws generalizing b e with
  | nil =>
    cases h with
    | nil h => exact he.widen h (Nat.le_refl _)
  | cons w ws ih =>
    obtain ⟨b', hws, he'⟩ := h.take he
    exact ih hws he'

/-- One pass over the items, with an operand expected or with one just read. -/
theorem next_stands (items : List Item) :
    (∀ ws b, Waits source a b ws → Run source b z items →
      StandsOne source a z (operandNext ws items)) ∧
    ∀ ws b m e, Waits source a b ws → StandsOne source b m e → m ≤ z → Run source m z items →
      StandsOne source a z (operatorNext ws e items) := by
  induction items with
  | nil =>
    constructor
    · exact fun _ _ _ _ => stands_malformed _ _ _ _
    · exact fun ws b m e hws he hz _ => hws.finish (he.widen (Nat.le_refl _) hz)
  | cons item items ih =>
    obtain ⟨ihOperand, ihOperator⟩ := ih
    constructor
    · intro ws b hws hrun
      cases hrun with
      | @before _ _ start op _ hle hstart hrest =>
        exact ihOperand _ start (.before (Nat.le_refl _) hstart (hws.widen hle)) hrest
      | operand hle he hrest => exact ihOperator ws b _ _ hws he hrest.le hrest
      | between => exact stands_malformed _ _ _ _
      | after => exact stands_malformed _ _ _ _
    · intro ws b m e hws he hz hrun
      cases hrun with
      | before => exact stands_malformed _ _ _ _
      | operand => exact stands_malformed _ _ _ _
      | @between _ m' _ op _ hle hop hrest =>
        obtain ⟨b', hws', he'⟩ := hws.settle op.level he
        exact ihOperand _ m' (.between he' hle hop hws') hrest
      | @after _ stop _ op _ hle hop hstop hrest =>
        obtain ⟨b', hws', he'⟩ := hws.settle After.level he
        refine ihOperator _ b' stop _ hws' ?_ hrest.le hrest
        exact Except.Satisfies.bind he' fun x hx => After.node_row hx hop hle hstop

/-- **Items in a row resolve to a tree in their place.** -/
theorem resolve_stands {items : List Item} (h : Run source a z items) :
    StandsOne source a z (resolve items) :=
  (next_stands items).1 [] a (.nil (Nat.le_refl a)) h

end SafeExpr
