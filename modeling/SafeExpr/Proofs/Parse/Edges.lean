/-
  SafeExpr/Proofs/Parse/Edges.lean
  ================================
  **Where the nodes of a tree begin and end.**

  The nodes that the grammar leaves begin where tokens begin; they end where tokens end, or some
  of them where the gap behind a token ends.  Building puts their ends together in new ways: an
  operator before an operand begins with its own token and ends with the operand, an operator
  between two operands goes from one to the other, one behind an operand ends with its own token.
  None of these takes an end from a node that may trail.  But slices, unpackings, generators in
  calls, keyword arguments and assignments have the spans of such nodes (`Expr.trails`).

  The three kinds of places are parameters here (`Edges`).
-/
import SafeExpr.Parse.Build
import SafeExpr.Proofs.Grammar.Threads
import SafeExpr.Proofs.Parse.Items

namespace SafeExpr

open Except (Ensures)
open Grammar (eatsRule trailingRule)

/-- Where tokens begin, where they end, and where the gaps behind them end. -/
structure Edges where
  starts : Nat → Prop
  stops : Nat → Prop
  gapStops : Nat → Prop

/-- The span begins and ends with tokens. -/
structure Span.Tight (E : Edges) (s : Span) : Prop where
  start : E.starts s.start
  stop : E.stops s.stop

/-- The span begins with a token, and ends with one or behind the gap that follows it. -/
structure Span.Trails (E : Edges) (s : Span) : Prop where
  start : E.starts s.start
  stop : E.stops s.stop ∨ E.gapStops s.stop

theorem Span.Tight.trails {E : Edges} {s : Span} (h : s.Tight E) : s.Trails E :=
  ⟨h.start, Or.inl h.stop⟩

namespace Expr

/-- The nodes that may end behind the gap that follows their last token. -/
def trails : Expr → Bool
  | assign .. | slice .. | starred .. | comprehension _ .generator .. => true
  | _ => false

/-- The node and the keyword arguments in it have the ends that they may have. -/
structure Edged (E : Edges) (n : Expr) : Prop where
  span : n.span.Trails E
  tight : n.trails = false → n.span.Tight E
  keywords : ∀ s ∈ n.keywordSpans, s.Trails E

def AllEdged (E : Edges) (e : Expr) : Prop := ∀ n ∈ e.nodes, n.Edged E

/-- The tree begins and ends with tokens. -/
structure Whole (E : Edges) (e : Expr) : Prop where
  tight : e.span.Tight E
  nodes : e.AllEdged E

variable {E : Edges} {e : Expr}

theorem allEdged_of_trails (hspan : e.span.Trails E) (htrails : e.trails = true)
    (hkeywords : e.keywordSpans = []) (hchildren : ∀ c ∈ e.children, c.AllEdged E) :
    e.AllEdged E := by
  refine forall_nodes_iff.mpr ⟨⟨hspan, fun h => ?_, ?_⟩, hchildren⟩
  · rw [htrails] at h
    cases h
  · rw [hkeywords]
    exact List.forall_mem_nil _

theorem whole_of_tight (hspan : e.span.Tight E) (hkeywords : ∀ s ∈ e.keywordSpans, s.Trails E)
    (hchildren : ∀ c ∈ e.children, c.AllEdged E) : e.Whole E :=
  ⟨hspan, forall_nodes_iff.mpr ⟨⟨hspan.trails, fun _ => hspan, hkeywords⟩, hchildren⟩⟩

theorem Whole.children (h : e.Whole E) : ∀ c ∈ e.children, c.AllEdged E :=
  (forall_nodes_iff.mp h.nodes).2

end Expr

/-! ### Operators -/

section Operators

variable (E : Edges)

def ArgumentsEdged (args : List (Argument Expr)) : Prop :=
  (∀ s ∈ args.filterMap Argument.span?, s.Trails E) ∧ ∀ e ∈ args.map Argument.value, e.AllEdged E

def Between.Edged : Between → Prop
  | .conditional condition => condition.Ensures (Expr.Whole E)
  | _ => True

def After.Edged (stop : Nat) : After → Prop
  | .call args => E.stops stop ∧ args.Ensures (ArgumentsEdged E)
  | .subscript index => E.stops stop ∧ index.Ensures (Expr.AllEdged E)
  | .member _ => E.stops stop

variable {E}

theorem Before.node_whole {op : Before} {start : Nat} {e : Expr} (hstart : E.starts start)
    (he : e.Whole E) : (op.node start e).Whole E := by
  have hchildren : ∀ c ∈ [e], c.AllEdged E := List.forall_mem_singleton.mpr he.nodes
  cases op <;> exact Expr.whole_of_tight ⟨hstart, he.tight.stop⟩ (List.forall_mem_nil _) hchildren

theorem Between.node_whole {op : Between} {l r : Expr} (hop : op.Edged E) (hl : l.Whole E)
    (hr : r.Whole E) : (op.node l r).Ensures (Expr.Whole E) := by
  have hspan : (l.span.combine r.span).Tight E := ⟨hl.tight.start, hr.tight.stop⟩
  have htwo : ∀ c ∈ [l, r], c.AllEdged E :=
    List.forall_mem_cons.mpr ⟨hl.nodes, List.forall_mem_singleton.mpr hr.nodes⟩
  cases op with
  | binary op => exact Expr.whole_of_tight hspan (List.forall_mem_nil _) htwo
  | boolOp op => exact Expr.whole_of_tight hspan (List.forall_mem_nil _) htwo
  | named => exact Expr.whole_of_tight hspan (List.forall_mem_nil _) htwo
  | compare op =>
    simp only [Between.node]
    split
    · refine Expr.whole_of_tight hspan (List.forall_mem_nil _) ?_
      rw [Expr.children, List.map_append, ← List.cons_append]
      exact List.forall_mem_append.mpr ⟨hl.children, List.forall_mem_singleton.mpr hr.nodes⟩
    · exact Expr.whole_of_tight hspan (List.forall_mem_nil _) htwo
  | conditional condition =>
    refine Except.Satisfies.map hop fun c hc => ?_
    refine Expr.whole_of_tight hspan (List.forall_mem_nil _) ?_
    simp only [Expr.children, List.forall_mem_cons]
    exact ⟨hl.nodes, hc.nodes, hr.nodes, List.forall_mem_nil _⟩

theorem After.node_whole {op : After} {stop : Nat} {e : Expr} (hop : op.Edged E stop)
    (he : e.Whole E) : (op.node e stop).Ensures (Expr.Whole E) := by
  cases op with
  | call args =>
    refine Except.Satisfies.map hop.2 fun as has => ?_
    exact Expr.whole_of_tight ⟨he.tight.start, hop.1⟩ has.1
      (List.forall_mem_cons.mpr ⟨he.nodes, has.2⟩)
  | subscript index =>
    refine Except.Satisfies.map hop.2 fun i hi => ?_
    exact Expr.whole_of_tight ⟨he.tight.start, hop.1⟩ (List.forall_mem_nil _)
      (List.forall_mem_cons.mpr ⟨he.nodes, List.forall_mem_singleton.mpr hi⟩)
  | member attr =>
    have hchildren : ∀ c ∈ [e], c.AllEdged E := List.forall_mem_singleton.mpr he.nodes
    exact Expr.whole_of_tight ⟨he.tight.start, hop⟩ (List.forall_mem_nil _) hchildren

/-- Operators whose own tokens are in their places make whole trees of whole ones. -/
def wholeClosed (E : Edges) : OperatorClosed where
  tree := Expr.Whole E
  before start _ := E.starts start
  between op := op.Edged E
  after stop op := op.Edged E stop
  before_node hop he := Before.node_whole hop he
  between_node hop hl hr := Between.node_whole hop hl hr
  after_node hop he := After.node_whole hop he

end Operators

/-! ### Nodes of the grammar -/

/-- The nodes begin with tokens, and end with them unless their rules may trail. -/
inductive Tree.Edged (E : Edges) : Tree Rule → Prop
  | leaf {r : Rule} {s : Span} {cs : List Char} (hs : s.Tight E) : Edged E (.leaf r s cs)
  | node {r : Rule} {s : Span} {ts : List (Tree Rule)} (hs : eatsRule r = true → s.Trails E)
    (htight : trailingRule r = false → s.Tight E) (hts : ∀ t ∈ ts, Edged E t) :
    Edged E (.node r s ts)

section Nodes

variable {E : Edges} {r : Rule} {s : Span} {ts : List (Tree Rule)}

theorem Tree.Edged.children {t : Tree Rule} (h : t.Edged E) : ∀ u ∈ t.children, u.Edged E := by
  cases h with
  | leaf => exact List.forall_mem_nil _
  | node _ _ hts => exact hts

theorem Tree.Edged.trails (h : (Tree.node r s ts).Edged E) (hr : eatsRule r = true) :
    s.Trails E := by
  cases h with
  | node hs => exact hs hr

theorem Tree.Edged.tight (h : (Tree.node r s ts).Edged E) (hr : trailingRule r = false) :
    s.Tight E := by
  cases h with
  | node _ htight => exact htight hr

end Nodes

namespace Build

variable {E : Edges}

/-- The tree of an expression node is whole. -/
def BuildsWhole (E : Edges) (t : Tree Rule) : Prop :=
  t.Edged E → (expr t).Ensures (Expr.Whole E)

theorem literal_whole {r : Rule} {s : Span} {cs : List Char} (hs : s.Tight E) :
    (literal r s cs).Ensures (Expr.Whole E) := by
  have hplain : ∀ {e : Expr}, e.span = s → e.keywordSpans = [] → e.children = [] →
      e.Whole E := by
    rintro e rfl hkeywords hchildren
    refine Expr.whole_of_tight hs ?_ ?_
    · rw [hkeywords]
      exact List.forall_mem_nil _
    · rw [hchildren]
      exact List.forall_mem_nil _
  unfold literal
  cases r with
  | integer =>
    dsimp only
    split
    · exact hplain rfl rfl rfl
    · trivial
  | float =>
    dsimp only
    split
    · exact hplain rfl rfl rfl
    · trivial
  | string =>
    have hread : (readQuoted s.start cs).Ensures fun _ => True := by
      cases readQuoted s.start cs <;> trivial
    exact Except.Satisfies.map hread fun _ _ => hplain rfl rfl rfl
  | boolean => exact hplain rfl rfl rfl
  | none => exact hplain rfl rfl rfl
  | ident => exact hplain rfl rfl rfl
  | _ => trivial

/-- A starred node, single or double, around what it unpacks. -/
theorem starred_edged {s : Span} {double : Bool} {e : Expr} (hs : s.Trails E)
    (he : e.Whole E) : (Expr.starred s double e).AllEdged E :=
  Expr.allEdged_of_trails hs rfl rfl (List.forall_mem_singleton.mpr he.nodes)

/-- An operand that covers its node and has the parts that are built from it. -/
theorem display_whole {α : Type} {partsOf : α → List Expr} {m : Built α} {make : α → Expr}
    {s : Span} (hs : s.Tight E) (hm : m.Ensures fun x => ∀ e ∈ partsOf x, e.AllEdged E)
    (hmake : ∀ x, (make x).span = s ∧ (make x).keywordSpans = [] ∧
      (make x).children = partsOf x) : (m.map make).Ensures (Expr.Whole E) := by
  refine Except.Satisfies.map hm fun x hx => ?_
  obtain ⟨hspan, hkeywords, hchildren⟩ := hmake x
  refine Expr.whole_of_tight (hspan ▸ hs) ?_ (hchildren ▸ hx)
  rw [hkeywords]
  exact List.forall_mem_nil _

section Parts

variable {n : Nat} (hbelow : ∀ t, sizeOf t < n → BuildsWhole E t)
include hbelow

theorem elements_edged (ts : List (Tree Rule)) (hn : sizeOf ts ≤ n) (hts : ∀ t ∈ ts, t.Edged E) :
    (elements ts).Ensures fun es => ∀ e ∈ es, e.AllEdged E := by
  induction ts with
  | nil =>
    rw [elements]
    exact List.forall_mem_nil _
  | cons t ts ih =>
    obtain ⟨ht, hts⟩ := List.forall_mem_cons.mp hts
    have hrest := ih (Nat.le_trans (by simp) hn) hts
    unfold elements
    split
    · next heq => cases heq
    · next s value rest heq =>
      cases heq
      have hvalue := hbelow value (by simp at hn; omega) (ht.children _ List.mem_cons_self)
      refine Except.Satisfies.bind hvalue fun e he => Except.Satisfies.bind hrest fun es hes => ?_
      exact List.forall_mem_cons.mpr ⟨starred_edged (ht.trails rfl) he, hes⟩
    · next t' rest _ heq =>
      cases heq
      have hvalue := hbelow t (by simp at hn; omega) ht
      refine Except.Satisfies.bind hvalue fun e he => Except.Satisfies.bind hrest fun es hes => ?_
      exact List.forall_mem_cons.mpr ⟨he.nodes, hes⟩

/-- A key and a value. -/
theorem entry_edged {s : Span} {key value : Tree Rule}
    (hn : sizeOf (Tree.node .dictEntry s [key, value]) ≤ n)
    (h : (Tree.node .dictEntry s [key, value]).Edged E) :
    (expr key).Ensures (Expr.Whole E) ∧ (expr value).Ensures (Expr.Whole E) := by
  have hparts := h.children
  simp only [Tree.node.sizeOf_spec, List.cons.sizeOf_spec] at hn
  exact ⟨hbelow key (by omega) (hparts key List.mem_cons_self),
    hbelow value (by omega) (hparts value (List.mem_cons_of_mem _ List.mem_cons_self))⟩

theorem entries_edged (ts : List (Tree Rule)) (hn : sizeOf ts ≤ n) (hts : ∀ t ∈ ts, t.Edged E) :
    (entries ts).Ensures fun es => ∀ e ∈ es.flatMap (fun (k, v) => [k, v]), e.AllEdged E := by
  induction ts with
  | nil =>
    rw [entries]
    exact List.forall_mem_nil _
  | cons t ts ih =>
    obtain ⟨ht, hts⟩ := List.forall_mem_cons.mp hts
    have hrest := ih (Nat.le_trans (by simp) hn) hts
    unfold entries
    split
    · next heq => cases heq
    · next s key value rest heq =>
      cases heq
      obtain ⟨hkey, hvalue⟩ := entry_edged hbelow (Nat.le_trans (by simp; omega) hn) ht
      refine Except.Satisfies.bind hkey fun k hk => Except.Satisfies.bind hvalue fun v hv => ?_
      refine Except.Satisfies.bind hrest fun es hes => ?_
      exact List.forall_mem_cons.mpr ⟨hk.nodes, List.forall_mem_cons.mpr ⟨hv.nodes, hes⟩⟩
    · trivial

theorem conditions_edged (ts : List (Tree Rule)) (hn : sizeOf ts ≤ n)
    (hts : ∀ t ∈ ts, t.Edged E) :
    (conditions ts).Ensures fun es => ∀ e ∈ es, e.AllEdged E := by
  induction ts with
  | nil =>
    rw [conditions]
    exact List.forall_mem_nil _
  | cons t ts ih =>
    obtain ⟨ht, hts⟩ := List.forall_mem_cons.mp hts
    have hrest := ih (Nat.le_trans (by simp) hn) hts
    unfold conditions
    split
    · next heq => cases heq
    · next s word test rest heq =>
      cases heq
      have htest := hbelow test (by simp at hn; omega)
        (ht.children _ (List.mem_cons_of_mem _ List.mem_cons_self))
      refine Except.Satisfies.bind htest fun e he => Except.Satisfies.bind hrest fun es hes => ?_
      exact List.forall_mem_cons.mpr ⟨he.nodes, hes⟩
    · trivial

theorem clauses_edged (ts : List (Tree Rule)) (hn : sizeOf ts ≤ n) (hts : ∀ t ∈ ts, t.Edged E) :
    (clauses ts).Ensures fun cs => ∀ e ∈ cs.flatMap Expr.clauseParts, e.AllEdged E := by
  induction ts with
  | nil =>
    rw [clauses]
    exact List.forall_mem_nil _
  | cons t ts ih =>
    obtain ⟨ht, hts⟩ := List.forall_mem_cons.mp hts
    have hrest := ih (Nat.le_trans (by simp) hn) hts
    unfold clauses
    split
    · next heq => cases heq
    · next s word targets word' iter tests rest heq =>
      cases heq
      have hparts := ht.children
      simp only [Tree.children, List.forall_mem_cons] at hparts
      obtain ⟨-, -, -, hiter, htests⟩ := hparts
      have hi := hbelow iter (by simp at hn; omega) hiter
      have hcs := conditions_edged hbelow tests (by simp at hn; omega) htests
      refine Except.Satisfies.bind hi fun i hi => Except.Satisfies.bind hcs fun cs hcs => ?_
      refine Except.Satisfies.bind hrest fun es hes => ?_
      exact List.forall_mem_append.mpr ⟨List.forall_mem_cons.mpr ⟨hi.nodes, hcs⟩, hes⟩
    · trivial

/-- The span and the parts of a comprehension. -/
theorem comprehension_parts (kind : ComprehensionKind) {s : Span} {ts : List (Tree Rule)}
    (hn : sizeOf ts ≤ n) (hts : ∀ t ∈ ts, t.Edged E) :
    (comprehension kind s ts).Ensures fun e => (∃ x v cs, e = .comprehension s kind x v cs) ∧
      ∀ c ∈ e.children, c.AllEdged E := by
  unfold comprehension
  split
  · next s' key value rest =>
    obtain ⟨hhead, hrest⟩ := List.forall_mem_cons.mp hts
    obtain ⟨hkey, hvalue⟩ := entry_edged hbelow (Nat.le_trans (by simp; omega) hn) hhead
    have hclauses := clauses_edged hbelow rest (Nat.le_trans (by simp) hn) hrest
    refine Except.Satisfies.bind hkey fun k hk => Except.Satisfies.bind hvalue fun v hv => ?_
    refine Except.Satisfies.bind hclauses fun cs hcs => ⟨⟨k, some v, cs, rfl⟩, ?_⟩
    exact List.forall_mem_cons.mpr ⟨hk.nodes, List.forall_mem_cons.mpr ⟨hv.nodes, hcs⟩⟩
  · next head rest _ =>
    obtain ⟨hhead, hrest⟩ := List.forall_mem_cons.mp hts
    have hclauses := clauses_edged hbelow rest (Nat.le_trans (by simp) hn) hrest
    have hx := hbelow head (by simp at hn; omega) hhead
    refine Except.Satisfies.bind hx fun x hx => ?_
    refine Except.Satisfies.bind hclauses fun cs hcs => ⟨⟨x, none, cs, rfl⟩, ?_⟩
    exact List.forall_mem_cons.mpr ⟨hx.nodes, hcs⟩
  · trivial

theorem comprehension_whole (kind : ComprehensionKind) {s : Span} {ts : List (Tree Rule)}
    (hn : sizeOf ts ≤ n) (hs : s.Tight E) (hts : ∀ t ∈ ts, t.Edged E) :
    (comprehension kind s ts).Ensures (Expr.Whole E) := by
  refine (comprehension_parts hbelow kind hn hts).imp ?_
  rintro _ ⟨⟨x, v, cs, rfl⟩, hchildren⟩
  exact Expr.whole_of_tight hs (List.forall_mem_nil _) hchildren

theorem arguments_edged (ts : List (Tree Rule)) (seen : Bool) (hn : sizeOf ts ≤ n)
    (hts : ∀ t ∈ ts, t.Edged E) : (arguments seen ts).Ensures (ArgumentsEdged E) := by
  induction ts generalizing seen with
  | nil =>
    rw [arguments]
    exact ⟨List.forall_mem_nil _, List.forall_mem_nil _⟩
  | cons t ts ih =>
    obtain ⟨ht, hts⟩ := List.forall_mem_cons.mp hts
    have hrest := fun seen => ih seen (Nat.le_trans (by simp) hn) hts
    -- an argument by position in front of the others
    have hcons : ∀ {e : Expr} {seen : Bool}, e.AllEdged E →
        (do return Argument.positional e :: (← arguments seen ts) :
          Built (List (Argument Expr))).Ensures (ArgumentsEdged E) := by
      intro e seen he
      exact Except.Satisfies.bind (hrest seen) fun as has =>
        ⟨has.1, List.forall_mem_cons.mpr ⟨he, has.2⟩⟩
    unfold arguments
    split
    · next heq => cases heq
    · next s parts rest heq =>
      cases heq
      have hbuilt : ∀ t ∈ parts, t.Edged E := ht.children
      have hparts := comprehension_parts hbelow .generator (s := s) (by simp at hn; omega) hbuilt
      refine Except.Satisfies.bind hparts ?_
      rintro _ ⟨⟨x, v, cs, rfl⟩, hchildren⟩
      exact hcons (Expr.allEdged_of_trails (ht.trails rfl) rfl rfl hchildren)
    · next s r s' name value rest heq =>
      cases heq
      have hvalue := hbelow value (by simp at hn; omega)
        (ht.children _ (List.mem_cons_of_mem _ List.mem_cons_self))
      refine Except.Satisfies.bind hvalue fun e he => ?_
      refine Except.Satisfies.bind (hrest true) fun as has => ⟨?_, ?_⟩
      · exact List.forall_mem_cons.mpr ⟨ht.trails rfl, has.1⟩
      · exact List.forall_mem_cons.mpr ⟨he.nodes, has.2⟩
    · next s value rest heq =>
      cases heq
      have hvalue := hbelow value (by simp at hn; omega) (ht.children _ List.mem_cons_self)
      exact Except.Satisfies.bind hvalue fun e he => hcons (starred_edged (ht.trails rfl) he)
    · next s value rest heq =>
      cases heq
      have hvalue := hbelow value (by simp at hn; omega) (ht.children _ List.mem_cons_self)
      exact Except.Satisfies.bind hvalue fun e he => hcons (starred_edged (ht.trails rfl) he)
    · next heq =>
      cases heq
      split
      · trivial
      · have hvalue := hbelow t (by simp at hn; omega) ht
        exact Except.Satisfies.bind hvalue fun e he => hcons he.nodes

/-- The bounds that are still to come do not change the span of a slice. -/
theorem bounds_edged {s : Span} (hs : s.Trails E) (ts : List (Tree Rule)) (l u t : Option Expr)
    (hn : sizeOf ts ≤ n) (hts : ∀ t ∈ ts, t.Edged E)
    (hfound : ∀ e ∈ l.toList ++ u.toList ++ t.toList, e.AllEdged E) :
    (bounds s l u t ts).Ensures (Expr.AllEdged E) := by
  induction ts generalizing l u t with
  | nil =>
    rw [bounds]
    exact Expr.allEdged_of_trails hs rfl rfl hfound
  | cons b ts ih =>
    obtain ⟨hb, hts⟩ := List.forall_mem_cons.mp hts
    have hrest := fun l u t => ih l u t (Nat.le_trans (by simp) hn) hts
    simp only [List.forall_mem_append] at hfound hrest
    obtain ⟨⟨hl, hu⟩, ht⟩ := hfound
    have hone : ∀ {e : Expr}, e.Whole E → ∀ x ∈ (some e).toList, x.AllEdged E := fun he =>
      List.forall_mem_singleton.mpr he.nodes
    unfold bounds
    split
    · next heq => cases heq
    · next s' v rest heq =>
      cases heq
      have hv := hbelow v (by simp at hn; omega) (hb.children _ List.mem_cons_self)
      exact Except.Satisfies.bind hv fun e he => hrest _ _ _ ⟨⟨hone he, hu⟩, ht⟩
    · next s' v rest heq =>
      cases heq
      have hv := hbelow v (by simp at hn; omega) (hb.children _ List.mem_cons_self)
      exact Except.Satisfies.bind hv fun e he => hrest _ _ _ ⟨⟨hl, hone he⟩, ht⟩
    · next s' v rest heq =>
      cases heq
      have hv := hbelow v (by simp at hn; omega) (hb.children _ List.mem_cons_self)
      exact Except.Satisfies.bind hv fun e he => hrest _ _ _ ⟨⟨hl, hu⟩, hone he⟩
    · trivial

theorem item_edged {t : Tree Rule} (hn : sizeOf t ≤ n) (h : t.Edged E) :
    (wholeClosed E).ItemMeets (item t) := by
  have hbetween : ∀ {c : Built Expr} (op : Infix), c.Ensures (Expr.Whole E) →
      (betweenOf c op).Edged E := by
    intro c op hc
    cases op <;> first | exact hc | trivial
  have hparts : ∀ {r : Rule} {s : Span} {ts : List (Tree Rule)}, sizeOf (Tree.node r s ts) ≤ n →
      sizeOf ts ≤ n := fun hn => Nat.le_trans (by simp) hn
  unfold item
  split
  · cases h with
    | leaf hs => exact hs.start
  · exact (h.trails rfl).start
  · exact hbetween _ trivial
  · next op s word condition word' =>
    have hcondition := h.children condition (List.mem_cons_of_mem _ List.mem_cons_self)
    exact hbetween op (hbelow condition (by simp at hn; omega) hcondition)
  · exact hbetween _ trivial
  · next s args =>
    exact ⟨(h.tight rfl).stop, arguments_edged hbelow args false (hparts hn) h.children⟩
  · next s inner parts =>
    have hslice := h.children _ List.mem_cons_self
    exact ⟨(h.tight rfl).stop, bounds_edged hbelow (hslice.trails rfl) parts none none none
      (by simp at hn; omega) hslice.children (List.forall_mem_nil _)⟩
  · next s index _ =>
    have hindex := hbelow index (by simp at hn; omega) (h.children _ List.mem_cons_self)
    exact ⟨(h.tight rfl).stop, hindex.imp fun e he => he.nodes⟩
  · exact (h.tight rfl).stop
  · cases h with
    | leaf hs => exact literal_whole hs
  · next s inner =>
    have hinner := hbelow inner (by simp at hn; omega) (h.children _ List.mem_cons_self)
    exact display_whole (h.tight rfl)
      (hinner.imp fun e he => List.forall_mem_singleton.mpr he.nodes) fun _ => ⟨rfl, rfl, rfl⟩
  · exact display_whole (h.tight rfl) (elements_edged hbelow _ (hparts hn) h.children)
      fun _ => ⟨rfl, rfl, rfl⟩
  · exact display_whole (h.tight rfl) (elements_edged hbelow _ (hparts hn) h.children)
      fun _ => ⟨rfl, rfl, rfl⟩
  · exact display_whole (h.tight rfl) (elements_edged hbelow _ (hparts hn) h.children)
      fun _ => ⟨rfl, rfl, rfl⟩
  · exact display_whole (h.tight rfl) (entries_edged hbelow _ (hparts hn) h.children)
      fun _ => ⟨rfl, rfl, rfl⟩
  · exact comprehension_whole hbelow .generator (hparts hn) (h.tight rfl) h.children
  · exact comprehension_whole hbelow .list (hparts hn) (h.tight rfl) h.children
  · exact comprehension_whole hbelow .set (hparts hn) (h.tight rfl) h.children
  · exact comprehension_whole hbelow .dict (hparts hn) (h.tight rfl) h.children
  · trivial

theorem items_edged (ts : List (Tree Rule)) (hn : sizeOf ts ≤ n) (hts : ∀ t ∈ ts, t.Edged E) :
    ∀ i ∈ items ts, (wholeClosed E).ItemMeets i := by
  induction ts with
  | nil =>
    rw [items]
    exact List.forall_mem_nil _
  | cons t ts ih =>
    obtain ⟨ht, hts⟩ := List.forall_mem_cons.mp hts
    rw [items]
    refine List.forall_mem_cons.mpr ⟨?_, ih (Nat.le_trans (by simp) hn) hts⟩
    exact item_edged hbelow (Nat.le_trans (by simp; omega) hn) ht

end Parts

/-- **The tree of an expression begins and ends with tokens**, and its nodes end as they may. -/
theorem expr_whole (t : Tree Rule) : BuildsWhole E t := by
  induction hn : sizeOf t using Nat.strongRecOn generalizing t with
  | ind n ih =>
    subst hn
    intro h
    unfold expr
    split
    · next s parts =>
      have hsize : sizeOf parts ≤ sizeOf (Tree.node Rule.expression s parts) := by
        simp
      exact (wholeClosed E).resolve
        (items_edged (fun t ht => ih _ ht t rfl) parts hsize h.children)
    · trivial

/-- The tree of a whole source, where its first node is in its place. -/
theorem source_edged {r : Rule} {s : Span} {t : Tree Rule} {more : List (Tree Rule)}
    (ht : t.Edged E) (hrule : t.rule ≠ .statement) :
    (Build.source (.node r s (t :: more))).Ensures (Expr.AllEdged E) := by
  unfold Build.source
  split
  · next heq =>
    cases heq
    exact absurd rfl hrule
  · next span target r s' op value more heq =>
    cases heq
    have hparts := ht.children
    simp only [Tree.children, List.forall_mem_cons] at hparts
    obtain ⟨htarget, -, hvalue, -⟩ := hparts
    refine Except.Satisfies.bind (expr_whole target htarget) fun t ht' => ?_
    refine Except.Ensures.then fun op => ?_
    refine Except.Satisfies.bind (expr_whole value hvalue) fun v hv => ?_
    refine Expr.allEdged_of_trails (ht.trails rfl) rfl rfl ?_
    exact List.forall_mem_cons.mpr ⟨ht'.nodes, List.forall_mem_singleton.mpr hv.nodes⟩
  · next s' e more' _ _ heq =>
    cases heq
    exact (expr_whole t ht).imp fun e he => he.nodes
  · trivial

end Build

end SafeExpr
