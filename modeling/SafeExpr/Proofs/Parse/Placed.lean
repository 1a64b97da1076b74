/-
  SafeExpr/Proofs/Parse/Placed.lean
  =================================
  **Trees stand where the text has them.**

  Building a tree puts spans together in many ways: those of tokens and of whole nodes, from
  an operator to the end of its operand, from one operand to another.  Whatever is built from
  nodes that are laid between two bytes is a row between these bytes, and whatever fails to
  build says so at a place of the text (`Stands`).

  The functions that build follow the nodes, so each is taken for the smaller nodes below a
  bound, and `expr_stands` is an induction on the size of the node.
-/
import SafeExpr.Parse.Build
import SafeExpr.Proofs.Parse.Items
import SafeExpr.Proofs.Parse.Literal

namespace SafeExpr.Build

open Grammar (Laid Shape eatsRule isSolid rulePattern)

variable {source : List Char}

/-- The node of an expression is built in its place. -/
def TreeStands (source : List Char) (t : Tree Rule) : Prop :=
  ∀ a z, Laid source a z [t] → StandsOne source a z (expr t)

/-- A node that covers the whole of its span. -/
theorem row_whole {e : Expr} {s : Span} (hspan : e.span = s) (hne : s.start < s.stop)
    (hs : s.PointsInto source) (hkeywords : e.keywordSpans = [])
    (hparts : Row source s.start s.stop e.children) : Row source s.start s.stop [e] := by
  refine .node hspan hne hs.start_boundary hs.stop_boundary ?_ hparts (Nat.le_refl _)
    (Nat.le_refl _)
  rw [hkeywords]
  exact List.forall_mem_nil _

/-- A starred node, single or double, around what it unpacks. -/
theorem starred_row {r : Rule} {s : Span} {ts us : List (Tree Rule)} {a z : Nat} {e : Expr}
    (double : Bool) (hr : eatsRule r = true) (h : Laid source a z (.node r s ts :: us))
    (he : Row source s.start s.stop [e]) : Row source a s.stop [.starred s double e] := by
  obtain ⟨hle, -, -, hs, hne⟩ := h.of_node
  have hrow : Row source s.start s.stop [.starred s double e] := row_whole rfl (hne hr) hs rfl he
  exact hrow.widen hle (Nat.le_refl _)

/-- One argument in front of others. -/
theorem standsArguments_cons {a m z : Nat} {arg : Argument Expr}
    {rest : Built (List (Argument Expr))} (harg : Row source a m [arg.value])
    (hspan : ∀ s ∈ arg.span?, s.PointsInto source) (hrest : StandsArguments source m z rest) :
    StandsArguments source a z (do return arg :: (← rest)) := by
  refine Except.Satisfies.bind hrest fun as has => ⟨harg.append has.1, fun s hs => ?_⟩
  obtain ⟨arg', harg', harg's⟩ := List.mem_filterMap.mp hs
  rcases List.mem_cons.mp harg' with rfl | harg'
  · exact hspan s harg's
  · exact has.2 s (List.mem_filterMap.mpr ⟨arg', harg', harg's⟩)

/-! ### Slices -/

/-- A bound of a slice: one expression, or nothing. -/
def IsBound (r : Rule) (ts : List (Tree Rule)) : Prop := ts = [] ∨ ∃ s t, ts = [.node r s [t]]

theorem bound_shape {r : Rule} {ts : List (Tree Rule)} {a z : Nat} (hsolid : isSolid r = false)
    (hr : rulePattern r = Grammar.expr) (hshape : Shape (.optional (.rule r)) ts)
    (h : Laid source a z ts) : IsBound r ts := by
  rcases hshape with ⟨t, rfl, ht⟩ | rfl
  · obtain ⟨s, parts, rfl⟩ := ht.node hsolid
    have hparts := h.shape_node
    rw [hr] at hparts
    obtain ⟨t, rfl, -⟩ := hparts
    exact Or.inr ⟨s, t, rfl⟩
  · exact Or.inl rfl

/-- The parts of a slice are its bounds, in this order. -/
theorem slice_parts {s : Span} {parts ts : List (Tree Rule)} {a z : Nat}
    (h : Laid source a z (.node .slice s parts :: ts)) :
    ∃ lower upper step m m', parts = lower ++ (upper ++ step) ∧
      (IsBound .sliceLower lower ∧ Laid source s.start m lower) ∧
      (IsBound .sliceUpper upper ∧ Laid source m m' upper) ∧
      IsBound .sliceStep step ∧ Laid source m' s.stop step := by
  have hinner := h.of_node.2.1
  obtain ⟨_, step, rfl, ⟨_, upper, rfl, ⟨lower, _, rfl, hlower, rfl⟩, hupper⟩, hstep⟩ :=
    h.shape_node
  have hstep : Shape (.optional (.rule .sliceStep)) step := by
    rcases hstep with ⟨_, _, rfl, rfl, hstep⟩ | rfl
    · exact hstep
    · exact Or.inr rfl
  rw [List.append_nil, List.append_assoc] at hinner ⊢
  obtain ⟨m, hlaid, hmore⟩ := hinner.of_append
  obtain ⟨m', hlaid', hlaid''⟩ := hmore.of_append
  exact ⟨lower, upper, step, m, m', rfl, ⟨bound_shape rfl rfl hlower hlaid, hlaid⟩,
    ⟨bound_shape rfl rfl hupper hlaid', hlaid'⟩, bound_shape rfl rfl hstep hlaid'', hlaid''⟩

/-- The bound that the nodes stand for. -/
def boundOf : List (Tree Rule) → Built (Option Expr)
  | [.node _ _ [t]] => do return some (← expr t)
  | _ => .ok none

section Bounds

variable {ts : List (Tree Rule)} (span : Span) (l u : Option Expr) (rest : List (Tree Rule))

theorem bounds_lower (h : IsBound .sliceLower ts) :
    bounds span none none none (ts ++ rest) =
      boundOf ts >>= fun o => bounds span o none none rest := by
  rcases h with rfl | ⟨s, t, rfl⟩
  · rfl
  · rw [List.singleton_append, bounds, boundOf]
    cases expr t <;> rfl

theorem bounds_upper (h : IsBound .sliceUpper ts) :
    bounds span l none none (ts ++ rest) =
      boundOf ts >>= fun o => bounds span l o none rest := by
  rcases h with rfl | ⟨s, t, rfl⟩
  · rfl
  · rw [List.singleton_append, bounds, boundOf]
    cases expr t <;> rfl

theorem bounds_step (h : IsBound .sliceStep ts) :
    bounds span l u none ts = boundOf ts >>= fun o => .ok (.slice span l u o) := by
  rcases h with rfl | ⟨s, t, rfl⟩
  · rw [bounds]
    rfl
  · rw [bounds, boundOf]
    cases h : expr t with
    | error err => rfl
    | ok e =>
      change bounds span l u (some e) [] = _
      rw [bounds]
      rfl

end Bounds

/-! ### Parts of an expression -/

/-! Operands in their places, and what they are made of. -/

section Operands

variable {a z n : Nat} {r : Rule} {s : Span} {parts ts : List (Tree Rule)}

/-- The parts of a node, which are smaller than it. -/
theorem parts_laid (hn : sizeOf (Tree.node r s parts) ≤ n)
    (h : Laid source a z (.node r s parts :: ts)) :
    sizeOf parts ≤ n ∧ Laid source s.start s.stop parts := by
  refine ⟨Nat.le_trans ?_ hn, h.of_node.2.1⟩
  simp

theorem operand_run {e : Built Expr} (ha : a ≤ s.start) (hs : s.PointsInto source)
    (he : StandsOne source s.start s.stop e) (hrest : Run source s.stop z (items ts)) :
    Run source a z (.operand e :: items ts) :=
  .operand (Nat.le_trans ha hs.start_le_stop) (he.widen ha (Nat.le_refl _)) hrest

/-- An operand that covers its node and has the parts that are built from it. -/
theorem display_run {α : Type} {partsOf : α → List Expr} {m : Built α} (make : α → Expr)
    (hr : eatsRule r = true) (h : Laid source a z (.node r s parts :: ts))
    (hm : Stands source partsOf s.start s.stop m)
    (hmake : ∀ x, (make x).span = s ∧ (make x).keywordSpans = [] ∧ (make x).children = partsOf x)
    (hrest : Run source s.stop z (items ts)) :
    Run source a z (.operand (m.map make) :: items ts) := by
  obtain ⟨ha, -, -, hs, hne⟩ := h.of_node
  refine operand_run ha hs (Except.Satisfies.map hm fun x hx => ?_) hrest
  obtain ⟨hspan, hkeywords, hchildren⟩ := hmake x
  refine row_whole hspan (hne hr) hs hkeywords ?_
  rw [hchildren]
  exact hx

end Operands

section Parts

variable {z n : Nat} (hbelow : ∀ t, sizeOf t < n → TreeStands source t)
include hbelow

/-- The single node that some node encloses. -/
theorem inner_stands {r : Rule} {s : Span} {t : Tree Rule} {ts : List (Tree Rule)} {a : Nat}
    (hn : sizeOf (Tree.node r s [t] :: ts) ≤ n) (h : Laid source a z (.node r s [t] :: ts)) :
    StandsOne source s.start s.stop (expr t) := by
  refine hbelow t ?_ _ _ h.of_node.2.1
  simp only [List.cons.sizeOf_spec, Tree.node.sizeOf_spec] at hn
  omega

/-- The first of some nodes, where it is an expression. -/
theorem first_stands {t : Tree Rule} {ts : List (Tree Rule)} {a : Nat}
    (hn : sizeOf (t :: ts) ≤ n) (h : Laid source a z (t :: ts)) :
    StandsOne source a t.span.stop (expr t) := by
  refine hbelow t ?_ _ _ h.of_cons.2.1
  simp only [List.cons.sizeOf_spec] at hn
  omega

theorem elements_stands (ts : List (Tree Rule)) :
    ∀ a, sizeOf ts ≤ n → Laid source a z ts →
      Stands source (fun es => es) a z (elements ts) := by
  induction ts with
  | nil =>
    intro a _ h
    rw [elements]
    exact Row.nil h.le
  | cons t ts ih =>
    intro a hn hts
    have hrest := ih _ (Nat.le_trans (by simp) hn) hts.of_cons.2.2.1
    unfold elements
    split
    · next heq => cases heq
    · next heq =>
      cases heq
      refine Except.Satisfies.bind (inner_stands hbelow hn hts) fun e he => ?_
      exact Except.Satisfies.bind hrest fun es hes =>
        (starred_row false rfl hts he).append hes
    · next heq =>
      cases heq
      refine Except.Satisfies.bind (first_stands hbelow hn hts) fun e he => ?_
      exact Except.Satisfies.bind hrest fun es hes => he.append hes

/-- A key and a value. -/
theorem entry_stands {s : Span} {key value : Tree Rule} {ts : List (Tree Rule)} {a : Nat}
    (hn : sizeOf (Tree.node .dictEntry s [key, value] :: ts) ≤ n)
    (h : Laid source a z (.node .dictEntry s [key, value] :: ts)) :
    StandsOne source a key.span.stop (expr key) ∧
      StandsOne source key.span.stop s.stop (expr value) := by
  obtain ⟨hle, hinner, -, -, -⟩ := h.of_node
  have hsize : sizeOf [key, value] ≤ n := by
    simp only [List.cons.sizeOf_spec, Tree.node.sizeOf_spec] at hn ⊢
    omega
  constructor
  · exact (first_stands hbelow hsize hinner).widen hle (Nat.le_refl _)
  · refine hbelow value ?_ _ _ hinner.of_cons.2.2.1
    simp only [List.cons.sizeOf_spec] at hsize
    omega

theorem entries_stands (ts : List (Tree Rule)) :
    ∀ a, sizeOf ts ≤ n → Laid source a z ts →
      Stands source (fun es => es.flatMap fun (k, v) => [k, v]) a z (entries ts) := by
  induction ts with
  | nil =>
    intro a _ h
    rw [entries]
    exact Row.nil h.le
  | cons t ts ih =>
    intro a hn hts
    have hrest := ih _ (Nat.le_trans (by simp) hn) hts.of_cons.2.2.1
    unfold entries
    split
    · next heq => cases heq
    · next heq =>
      cases heq
      obtain ⟨hkey, hvalue⟩ := entry_stands hbelow hn hts
      refine Except.Satisfies.bind hkey fun k hk => Except.Satisfies.bind hvalue fun v hv => ?_
      exact Except.Satisfies.bind hrest fun es hes => hk.append (hv.append hes)
    · exact stands_malformed _ _ _ _

theorem conditions_stands (ts : List (Tree Rule)) :
    ∀ a, sizeOf ts ≤ n → Laid source a z ts →
      Stands source (fun es => es) a z (conditions ts) := by
  induction ts with
  | nil =>
    intro a _ h
    rw [conditions]
    exact Row.nil h.le
  | cons t ts ih =>
    intro a hn hts
    have hrest := ih _ (Nat.le_trans (by simp) hn) hts.of_cons.2.2.1
    unfold conditions
    split
    · next heq => cases heq
    · next s word test rest heq =>
      cases heq
      obtain ⟨hle, hinner, -, -, -⟩ := hts.of_node
      have hsize : sizeOf test < n := by
        simp only [List.cons.sizeOf_spec, Tree.node.sizeOf_spec] at hn
        omega
      refine Except.Satisfies.bind (hbelow test hsize _ _ hinner.tail) fun e he => ?_
      exact Except.Satisfies.bind hrest fun es hes =>
        (he.widen hle (Nat.le_refl _)).append hes
    · exact stands_malformed _ _ _ _

theorem clauses_stands (ts : List (Tree Rule)) :
    ∀ a, sizeOf ts ≤ n → Laid source a z ts →
      Stands source (fun cs => cs.flatMap Expr.clauseParts) a z (clauses ts) := by
  induction ts with
  | nil =>
    intro a _ h
    rw [clauses]
    exact Row.nil h.le
  | cons t ts ih =>
    intro a hn hts
    have hrest := ih _ (Nat.le_trans (by simp) hn) hts.of_cons.2.2.1
    unfold clauses
    split
    · next heq => cases heq
    · next s word targets word' iter tests rest heq =>
      cases heq
      obtain ⟨hle, hinner, -, -, -⟩ := hts.of_node
      have hsize : sizeOf (iter :: tests) ≤ n := by
        simp only [List.cons.sizeOf_spec, Tree.node.sizeOf_spec] at hn ⊢
        omega
      have hparts := hinner.tail.tail.tail
      have hiter := first_stands hbelow hsize hparts
      have htests := conditions_stands hbelow tests _ (Nat.le_trans (by simp) hsize)
        hparts.of_cons.2.2.1
      refine Except.Satisfies.bind hiter fun i hi => Except.Satisfies.bind htests fun cs hcs => ?_
      refine Except.Satisfies.bind hrest fun es hes => ?_
      exact ((hi.widen hle (Nat.le_refl _)).append hcs).append hes
    · exact stands_malformed _ _ _ _

/-- A comprehension, from its element to its last clause. -/
theorem comprehension_stands (kind : ComprehensionKind) {s : Span} {ts : List (Tree Rule)}
    (hn : sizeOf ts ≤ n) (hne : s.start < s.stop) (hs : s.PointsInto source)
    (h : Laid source s.start s.stop ts) :
    StandsOne source s.start s.stop (comprehension kind s ts) := by
  unfold comprehension
  split
  · next s' key value rest =>
    obtain ⟨hkey, hvalue⟩ := entry_stands hbelow hn h
    have hrest := clauses_stands hbelow rest _ (Nat.le_trans (by simp) hn) h.of_cons.2.2.1
    refine Except.Satisfies.bind hkey fun k hk => Except.Satisfies.bind hvalue fun v hv => ?_
    refine Except.Satisfies.bind hrest fun cs hcs => ?_
    exact row_whole rfl hne hs rfl (hk.append (hv.append hcs))
  · next head rest _ =>
    have hrest := clauses_stands hbelow rest _ (Nat.le_trans (by simp) hn) h.of_cons.2.2.1
    refine Except.Satisfies.bind (first_stands hbelow hn h) fun e he => ?_
    refine Except.Satisfies.bind hrest fun cs hcs => ?_
    exact row_whole rfl hne hs rfl (he.append hcs)
  · exact stands_malformed _ _ _ _

theorem arguments_stands (ts : List (Tree Rule)) :
    ∀ a seenKeyword, sizeOf ts ≤ n → Laid source a z ts →
      StandsArguments source a z (arguments seenKeyword ts) := by
  induction ts with
  | nil =>
    intro a seenKeyword _ h
    rw [arguments]
    exact ⟨Row.nil h.le, List.forall_mem_nil _⟩
  | cons t ts ih =>
    intro a seenKeyword hn hts
    have hrest := fun b => ih _ b (Nat.le_trans (by simp) hn) hts.of_cons.2.2.1
    unfold arguments
    split
    · next heq => cases heq
    · next s parts rest heq =>
      cases heq
      obtain ⟨hle, hinner, -, hs, hne⟩ := hts.of_node
      have hsize : sizeOf parts ≤ n := by
        simp only [List.cons.sizeOf_spec, Tree.node.sizeOf_spec] at hn
        omega
      refine Except.Satisfies.bind
        (comprehension_stands hbelow _ hsize (hne rfl) hs hinner) fun e he => ?_
      exact standsArguments_cons (he.widen hle (Nat.le_refl _)) (by rintro s ⟨⟩) (hrest _)
    · next s r s' name value rest heq =>
      cases heq
      obtain ⟨hle, hinner, -, hs, hne⟩ := hts.of_node
      have hsize : sizeOf value < n := by
        simp only [List.cons.sizeOf_spec, Tree.node.sizeOf_spec] at hn
        omega
      refine Except.Satisfies.bind (hbelow value hsize _ _ hinner.tail) fun e he => ?_
      refine standsArguments_cons (he.widen hle (Nat.le_refl _)) ?_ (hrest _)
      rintro s ⟨⟩
      exact hs
    · next s value rest heq =>
      cases heq
      refine Except.Satisfies.bind (inner_stands hbelow hn hts) fun e he => ?_
      exact standsArguments_cons (starred_row true rfl hts he) (by rintro s ⟨⟩) (hrest _)
    · next s value rest heq =>
      cases heq
      refine Except.Satisfies.bind (inner_stands hbelow hn hts) fun e he => ?_
      exact standsArguments_cons (starred_row false rfl hts he) (by rintro s ⟨⟩) (hrest _)
    · next heq =>
      cases heq
      split
      · exact hts.of_cons.2.2.2
      · refine Except.Satisfies.bind (first_stands hbelow hn hts) fun e he => ?_
        exact standsArguments_cons he (by rintro s ⟨⟩) (hrest _)

theorem boundOf_stands {r : Rule} {ts : List (Tree Rule)} {a : Nat} (hn : ∀ t ∈ ts, sizeOf t ≤ n)
    (hts : IsBound r ts) (h : Laid source a z ts) :
    Stands source Option.toList a z (boundOf ts) := by
  rcases hts with rfl | ⟨s, t, rfl⟩
  · exact Row.nil h.le
  · obtain ⟨hle, hinner, hrest, -, -⟩ := h.of_node
    have hsize : sizeOf t < n := by
      have := hn _ (List.mem_singleton_self _)
      simp only [List.cons.sizeOf_spec, Tree.node.sizeOf_spec] at this
      omega
    have ht := (hbelow t hsize _ _ hinner).widen hle hrest.le
    exact Except.Satisfies.bind ht fun e he => he

theorem slice_stands {s : Span} {parts ts : List (Tree Rule)} {a : Nat} (hn : sizeOf parts ≤ n)
    (h : Laid source a z (.node .slice s parts :: ts)) :
    StandsOne source s.start s.stop (bounds s none none none parts) := by
  obtain ⟨-, -, -, hs, hne⟩ := h.of_node
  obtain ⟨lower, upper, step, m, m', rfl, ⟨hlower, hlaid⟩, ⟨hupper, hlaid'⟩, hstep, hlaid''⟩ :=
    slice_parts h
  have hsize : ∀ t ∈ lower ++ (upper ++ step), sizeOf t ≤ n := fun t ht =>
    Nat.le_trans (Nat.le_of_lt (List.sizeOf_lt_of_mem ht)) hn
  rw [List.forall_mem_append, List.forall_mem_append] at hsize
  have hl := boundOf_stands hbelow hsize.1 hlower hlaid
  have hu := boundOf_stands hbelow hsize.2.1 hupper hlaid'
  have ht := boundOf_stands hbelow hsize.2.2 hstep hlaid''
  rw [bounds_lower _ _ hlower]
  refine Except.Satisfies.bind hl fun l hl => ?_
  rw [bounds_upper _ _ _ hupper]
  refine Except.Satisfies.bind hu fun u hu => ?_
  rw [bounds_step _ _ _ hstep]
  refine Except.Satisfies.bind ht fun t ht => ?_
  exact row_whole rfl (hne rfl) hs rfl ((hl.append hu).append ht)

theorem item_run {t : Tree Rule} {ts : List (Tree Rule)} {a : Nat} (hn : sizeOf t ≤ n)
    (h : Laid source a z (t :: ts)) (hrest : Run source t.span.stop z (items ts)) :
    Run source a z (item t :: items ts) := by
  obtain ⟨ha, -, -, hs⟩ := h.of_cons
  have hstop : a ≤ t.span.stop := Nat.le_trans ha hs.start_le_stop
  have hbetween : ∀ {c : Built Expr} (op : Infix), StandsOne source a t.span.stop c →
      (betweenOf c op).Stands source a t.span.stop := by
    intro c op hc
    cases op <;> first | exact hc | trivial
  have hcomprehension : ∀ {r s parts} kind, eatsRule r = true → t = .node r s parts →
      Run source a z (.operand (comprehension kind s parts) :: items ts) := by
    rintro r s parts kind hr rfl
    obtain ⟨hsize, hinner⟩ := parts_laid hn h
    have hne := h.of_node.2.2.2.2 hr
    exact operand_run ha hs (comprehension_stands hbelow kind hsize hne hs hinner) hrest
  unfold item
  split
  · exact .before ha hs.start_boundary (hrest.widen hs.start_le_stop)
  · exact .before ha hs.start_boundary (hrest.widen hs.start_le_stop)
  · exact .between hstop (hbetween _ (stands_malformed _ _ _ _)) hrest
  · next op s word condition word' =>
    obtain ⟨hsize, hinner⟩ := parts_laid hn h
    obtain ⟨-, hcondition, hlast, -⟩ := hinner.tail.of_cons
    have hc := hbelow condition (by simp at hsize; omega) _ _ hcondition
    exact .between hstop (hbetween _ (hc.widen ha hlast.le)) hrest
  · exact .between hstop (hbetween _ (stands_malformed _ _ _ _)) hrest
  · next s args =>
    obtain ⟨hsize, hinner⟩ := parts_laid hn h
    have hop : (After.call (arguments false args)).Stands source s.start s.stop :=
      arguments_stands hbelow args _ false hsize hinner
    exact .after hstop (hop.widen ha (Nat.le_refl _)) hs.stop_boundary hrest
  · next s inner parts =>
    obtain ⟨hsize, hinner⟩ := parts_laid hn h
    obtain ⟨hle, -, hlast, -, -⟩ := hinner.of_node
    have hslice := slice_stands hbelow (by simp at hsize; omega) hinner
    have hop : (After.subscript (bounds inner none none none parts)).Stands source a s.stop :=
      hslice.widen (Nat.le_trans ha hle) hlast.le
    exact .after hstop hop hs.stop_boundary hrest
  · next s index _ =>
    obtain ⟨hsize, hinner⟩ := parts_laid hn h
    have hop : (After.subscript (expr index)).Stands source s.start s.stop :=
      hbelow index (by simp at hsize; omega) _ _ hinner
    exact .after hstop (hop.widen ha (Nat.le_refl _)) hs.stop_boundary hrest
  · exact .after hstop trivial hs.stop_boundary hrest
  · next r s text _ _ =>
    refine operand_run ha hs ?_ hrest
    cases h with
    | leaf hc hstart hread _ =>
      refine Except.Satisfies.imp (literal_placed hc hread) fun e he => ?_
      obtain ⟨hspan, hchildren, hkeywords, hr⟩ := he
      refine row_whole hspan (Grammar.pos_lt_of_reads hr hread) hs hkeywords ?_
      rw [hchildren]
      exact .nil hs.start_le_stop
  · next s inner =>
    obtain ⟨hsize, hinner⟩ := parts_laid hn h
    have he := hbelow inner (by simp at hsize; omega) _ _ hinner
    exact display_run (.paren s) rfl h he (fun _ => ⟨rfl, rfl, rfl⟩) hrest
  · next s parts =>
    obtain ⟨hsize, hinner⟩ := parts_laid hn h
    have hes := elements_stands hbelow parts _ hsize hinner
    exact display_run (.tuple s) rfl h hes (fun _ => ⟨rfl, rfl, rfl⟩) hrest
  · next s parts =>
    obtain ⟨hsize, hinner⟩ := parts_laid hn h
    have hes := elements_stands hbelow parts _ hsize hinner
    exact display_run (.list s) rfl h hes (fun _ => ⟨rfl, rfl, rfl⟩) hrest
  · next s parts =>
    obtain ⟨hsize, hinner⟩ := parts_laid hn h
    have hes := elements_stands hbelow parts _ hsize hinner
    exact display_run (.set s) rfl h hes (fun _ => ⟨rfl, rfl, rfl⟩) hrest
  · next s parts =>
    obtain ⟨hsize, hinner⟩ := parts_laid hn h
    have hes := entries_stands hbelow parts _ hsize hinner
    exact display_run (.dict s) rfl h hes (fun _ => ⟨rfl, rfl, rfl⟩) hrest
  · exact hcomprehension .generator rfl rfl
  · exact hcomprehension .list rfl rfl
  · exact hcomprehension .set rfl rfl
  · exact hcomprehension .dict rfl rfl
  · exact operand_run ha hs (stands_malformed _ _ _ _) hrest

theorem items_run (ts : List (Tree Rule)) :
    ∀ a, sizeOf ts ≤ n → Laid source a z ts → Run source a z (items ts) := by
  induction ts with
  | nil =>
    intro a _ h
    rw [items]
    exact .nil h.le
  | cons t ts ih =>
    intro a hn hts
    have hrest := ih _ (Nat.le_trans (by simp) hn) hts.of_cons.2.2.1
    rw [items]
    exact item_run hbelow (Nat.le_trans (by simp; omega) hn) hts hrest

end Parts

/-- **The tree of an expression stands where its node does.** -/
theorem expr_stands (t : Tree Rule) : TreeStands source t := by
  induction hn : sizeOf t using Nat.strongRecOn generalizing t with
  | ind n ih =>
    subst hn
    intro a z h
    unfold expr
    split
    · next s parts =>
      obtain ⟨hle, hinner, hrest, -, -⟩ := h.of_node
      have hsize : sizeOf parts ≤ sizeOf (Tree.node Rule.expression s parts) := by
        simp
      have hrun := items_run (fun t ht => ih _ ht t rfl) parts s.start hsize hinner
      exact (resolve_stands hrun).widen hle hrest.le
    · exact stands_malformed _ _ _ _

end SafeExpr.Build
