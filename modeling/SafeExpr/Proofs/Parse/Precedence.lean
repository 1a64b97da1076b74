/-
  SafeExpr/Proofs/Parse/Precedence.lean
  =====================================
  **Resolution implements the grammar of precedence.**

  The grammar is given first, by itself: a `Tier` for each level of the language, and the
  derivations `Derives n items t` of flat runs of items at a tier.  Nothing in it mentions
  waiting operators or levels as numbers.

  The proof follows a derivation.  Resolution goes through the items of a tier without
  touching what waited before them, and leaves operators of its own waiting with an operand.
  These take the operand as soon as any operator comes up that may stand behind the tier,
  and then give the tree of the derivation (`Resolves`).
-/
import SafeExpr.Parse.Build
import Mathlib.Data.List.Induction

namespace SafeExpr

/-! ### The grammar -/

/-- The levels of the language, from loose to tight. -/
inductive Tier where
  | lambda | named | conditional | or | and | not | comparison
  | bitOr | bitXor | bitAnd | shift | sum | product | sign | power | primary
deriving DecidableEq, Repr

/-- The next level up. -/
def Tier.tighter : Tier → Tier
  | .lambda => .named
  | .named => .conditional
  | .conditional => .or
  | .or => .and
  | .and => .not
  | .not => .comparison
  | .comparison => .bitOr
  | .bitOr => .bitXor
  | .bitXor => .bitAnd
  | .bitAnd => .shift
  | .shift => .sum
  | .sum => .product
  | .product => .sign
  | .sign => .power
  | .power | .primary => .primary

def BoolOp.tier : BoolOp → Tier
  | .or => .or
  | .and => .and

def BinaryOp.tier : BinaryOp → Tier
  | .bitOr => .bitOr
  | .bitXor => .bitXor
  | .bitAnd => .bitAnd
  | .shl | .shr => .shift
  | .add | .sub => .sum
  | .mul | .div | .floorDiv | .mod => .product
  | .pow => .power

/-- Constants, names and whatever stands in brackets of its own. -/
def Expr.isOperand : Expr → Bool
  | .literal .. | .name .. | .paren .. | .list .. | .tuple .. | .set .. | .dict ..
  | .comprehension .. => true
  | _ => false

/-- One link of a comparison chain: the operator, and what it compares with, as items and
    as a tree. -/
structure Link where
  op : CompareOp
  items : List Item
  tree : Expr

namespace Link

def allItems (links : List Link) : List Item :=
  links.flatMap fun l => .between (.compare l.op) :: l.items

/-- The single node of a chain. -/
def chain (first : Expr) (links : List Link) : Expr :=
  .compare (first.span.combine (links.getLast?.elim first Link.tree).span) first
    (links.map fun l => (l.op, l.tree))

end Link

/-- The items are an expression of the tier, and this is its tree. -/
inductive Derives : Tier → List Item → Expr → Prop
  | operand {e} (he : e.isOperand = true) : Derives .primary [.operand (.ok e)] e
  | up {n items e} (h : Derives n.tighter items e) : Derives n items e
  | lambda {items body} (start : Nat) (params : List String) (h : Derives .lambda items body) :
    Derives .lambda (.before start (.lambda params) :: items)
      (.lambda ⟨start, body.span.stop⟩ params body)
  | named {items items' target value} (htarget : Derives .conditional items target)
    (hvalue : Derives .named items' value) :
    Derives .named (items ++ .between .named :: items')
      (.named (target.span.combine value.span) target value)
  | conditional {items items' yes no} (condition : Expr) (hyes : Derives .or items yes)
    (hno : Derives .conditional items' no) :
    Derives .conditional (items ++ .between (.conditional (.ok condition)) :: items')
      (.conditional (yes.span.combine no.span) condition yes no)
  | boolOp {items items' l r} (op : BoolOp) (hl : Derives op.tier items l)
    (hr : Derives op.tier.tighter items' r) :
    Derives op.tier (items ++ .between (.boolOp op) :: items')
      (.boolOp (l.span.combine r.span) op l r)
  | not {items e} (start : Nat) (h : Derives .not items e) :
    Derives .not (.before start (.unary .not) :: items) (.unary ⟨start, e.span.stop⟩ .not e)
  | compare {items first} {links : List Link} (hfirst : Derives .bitOr items first)
    (hsome : links ≠ []) (hlinks : ∀ l ∈ links, Derives .bitOr l.items l.tree) :
    Derives .comparison (items ++ Link.allItems links) (Link.chain first links)
  | binary {items items' l r} (op : BinaryOp) (hop : op ≠ .pow) (hl : Derives op.tier items l)
    (hr : Derives op.tier.tighter items' r) :
    Derives op.tier (items ++ .between (.binary op) :: items')
      (.binary (l.span.combine r.span) op l r)
  | sign {items e} (start : Nat) (op : UnaryOp) (hop : op ≠ .not) (h : Derives .sign items e) :
    Derives .sign (.before start (.unary op) :: items) (.unary ⟨start, e.span.stop⟩ op e)
  | power {items items' l r} (hl : Derives .primary items l) (hr : Derives .sign items' r) :
    Derives .power (items ++ .between (.binary .pow) :: items')
      (.binary (l.span.combine r.span) .pow l r)
  | call {items e} (stop : Nat) (args : List (Argument Expr)) (h : Derives .primary items e) :
    Derives .primary (items ++ [.after stop (.call (.ok args))])
      (.call ⟨e.span.start, stop⟩ e args)
  | subscript {items e} (stop : Nat) (index : Expr) (h : Derives .primary items e) :
    Derives .primary (items ++ [.after stop (.subscript (.ok index))])
      (.subscript ⟨e.span.start, stop⟩ e index)
  | member {items e} (stop : Nat) (attr : String) (h : Derives .primary items e) :
    Derives .primary (items ++ [.after stop (.member attr)])
      (.member ⟨e.span.start, stop⟩ e attr)

/-! ### The items of a tree -/

mutual

/-- The items of a tree from left to right.  Those of bracketed parts are not listed. -/
def Expr.listing : Expr → List Item
  | .unary s op e => .before s.start (.unary op) :: e.listing
  | .lambda s params e => .before s.start (.lambda params) :: e.listing
  | .binary _ op l r => l.listing ++ .between (.binary op) :: r.listing
  | .boolOp _ op l r => l.listing ++ .between (.boolOp op) :: r.listing
  | .named _ l r => l.listing ++ .between .named :: r.listing
  | .conditional _ c yes no => yes.listing ++ .between (.conditional (.ok c)) :: no.listing
  | .compare _ first links => first.listing ++ linkListing links
  | .call s f args => f.listing ++ [.after s.stop (.call (.ok args))]
  | .subscript s e i => e.listing ++ [.after s.stop (.subscript (.ok i))]
  | .member s e attr => e.listing ++ [.after s.stop (.member attr)]
  | e => [.operand (.ok e)]

def linkListing : List (CompareOp × Expr) → List Item
  | [] => []
  | (op, e) :: rest => .between (.compare op) :: (e.listing ++ linkListing rest)

end

theorem Expr.listing_of_isOperand {e : Expr} (h : e.isOperand = true) :
    e.listing = [.operand (.ok e)] := by
  cases e <;> first | rfl | cases h

theorem linkListing_links {links : List Link} (h : ∀ l ∈ links, l.tree.listing = l.items) :
    linkListing (links.map fun l => (l.op, l.tree)) = Link.allItems links := by
  induction links with
  | nil => rfl
  | cons l rest ih =>
    obtain ⟨hl, hrest⟩ := List.forall_mem_cons.mp h
    rw [List.map_cons, linkListing, hl, ih hrest]
    rfl

/-- **The tree of a derivation has all its items, each once and in order.** -/
theorem Derives.listing_eq {n : Tier} {items : List Item} {t : Expr} (h : Derives n items t) :
    t.listing = items := by
  induction h with
  | operand he => exact Expr.listing_of_isOperand he
  | up _ ih => exact ih
  | lambda _ _ _ ih | not _ _ ih | sign _ _ _ _ ih => rw [Expr.listing, ih]
  | named _ _ ih ih' | conditional _ _ _ ih ih' | boolOp _ _ _ ih ih' | binary _ _ _ _ ih ih'
  | power _ _ ih ih' => rw [Expr.listing, ih, ih']
  | compare _ _ _ ih ihlinks => rw [Link.chain, Expr.listing, ih, linkListing_links ihlinks]
  | call _ _ _ ih | subscript _ _ _ ih | member _ _ _ ih => rw [Expr.listing, ih]

/-! ### The chains of a tree -/

def Expr.isCompare : Expr → Bool
  | .compare .. => true
  | _ => false

mutual

/-- Is each comparison chain outside of brackets one node?  No comparison is then part of
    another one. -/
def Expr.chainsWhole : Expr → Bool
  | .unary _ _ e | .lambda _ _ e | .call _ e _ | .subscript _ e _ | .member _ e _ => e.chainsWhole
  | .binary _ _ l r | .boolOp _ _ l r | .named _ l r | .conditional _ _ l r =>
    l.chainsWhole && r.chainsWhole
  | .compare _ first links => !first.isCompare && first.chainsWhole && linksWhole links
  | _ => true

def linksWhole : List (CompareOp × Expr) → Bool
  | [] => true
  | (_, e) :: rest => !e.isCompare && e.chainsWhole && linksWhole rest

end

/-! ### Levels of tiers -/

namespace Tier

/-- The level of the loosest operator, between or after operands, that an expression of the
    tier has outside of brackets and of lambdas. -/
def floor : Tier → Level
  | .lambda | .named => 2
  | .conditional => 3
  | .or => 4
  | .and => 5
  | .not | .comparison => 7
  | .bitOr => 8
  | .bitXor => 9
  | .bitAnd => 10
  | .shift => 11
  | .sum => 12
  | .product => 13
  | .sign | .power => 15
  | .primary => 16

/-- The level of the tightest operator that may stand behind an expression of the tier. -/
def ceiling : Tier → Level
  | .lambda => 0
  | .named => 1
  | .conditional => 2
  | .or => 4
  | .and | .not => 5
  | .comparison => 7
  | .bitOr => 8
  | .bitXor => 9
  | .bitAnd => 10
  | .shift => 11
  | .sum => 12
  | .product | .sign | .power => 13
  | .primary => 16

theorem floor_le_tighter (n : Tier) : n.floor ≤ n.tighter.floor := by
  cases n <;> decide

theorem ceiling_le_tighter (n : Tier) : n.ceiling ≤ n.tighter.ceiling := by
  cases n <;> decide

end Tier

/-! ### Waiting operators -/

/-- Whatever operator of this level or above comes up, the innermost operator waits on. -/
def WaitsOn (floor : Level) (ws : List Waiting) : Prop :=
  ∀ w ∈ ws.head?, ∀ k, floor ≤ k → w.binds k = false

theorem WaitsOn.mono {k k' : Level} {ws : List Waiting} (h : WaitsOn k ws) (hle : k ≤ k') :
    WaitsOn k' ws :=
  fun w hw i hi => h w hw i (Nat.le_trans hle hi)

theorem WaitsOn.cons {floor : Level} {w : Waiting} {ws : List Waiting}
    (h : ∀ k, floor ≤ k → w.binds k = false) : WaitsOn floor (w :: ws) := by
  intro w' hw'
  cases hw'
  exact h

theorem settle_of_waitsOn {k : Level} {ws : List Waiting} (h : WaitsOn k ws) (e : Built Expr) :
    settle k ws e = (ws, e) := by
  cases ws with
  | nil => rfl
  | cons w ws =>
    rw [settle, if_neg]
    simpa using h w rfl k (Nat.le_refl k)

/-- Operators that all take their operands are done with. -/
theorem settle_append {k : Level} {own : List Waiting} (h : ∀ w ∈ own, w.binds k = true)
    (ws : List Waiting) (e : Built Expr) :
    settle k (own ++ ws) e = settle k ws (finish own e) := by
  induction own generalizing e with
  | nil => rfl
  | cons w own ih =>
    obtain ⟨hw, hown⟩ := List.forall_mem_cons.mp h
    rw [List.cons_append, settle, if_pos hw, ih hown]
    rfl

theorem finish_append (own ws : List Waiting) (e : Built Expr) :
    finish (own ++ ws) e = finish ws (finish own e) := List.foldl_append

/-- How resolution goes through the items of a tier: whatever waits before them waits on,
    and the operators that they leave waiting give the tree. -/
def Resolves (n : Tier) (items : List Item) (t : Expr) : Prop :=
  ∃ own e, finish own e = .ok t ∧ (∀ w ∈ own, ∀ k ≤ n.ceiling, w.binds k = true) ∧
    ∀ ws rest, WaitsOn n.floor ws →
      operandNext ws (items ++ rest) = operatorNext (own ++ ws) e rest

namespace Resolves

variable {n m : Tier} {items items' : List Item} {l r t : Expr}

/-- Behind an expression, an operator takes its tree as left operand. -/
theorem settle_eq {own : List Waiting} {e : Built Expr} {k : Level} {ws : List Waiting}
    (hfinish : finish own e = .ok t) (hbinds : ∀ w ∈ own, ∀ k ≤ n.ceiling, w.binds k = true)
    (hk : k ≤ n.ceiling) (hws : WaitsOn k ws) : settle k (own ++ ws) e = (ws, .ok t) := by
  rw [settle_append fun w hw => hbinds w hw k hk, hfinish, settle_of_waitsOn hws]

theorem up (h : Resolves n.tighter items t) : Resolves n items t := by
  obtain ⟨own, e, hfinish, hbinds, hreads⟩ := h
  refine ⟨own, e, hfinish, ?_, ?_⟩
  · intro w hw k hk
    exact hbinds w hw k (Nat.le_trans hk n.ceiling_le_tighter)
  · intro ws rest hws
    exact hreads ws rest (hws.mono n.floor_le_tighter)

/-- An operator before an expression of its own tier. -/
theorem before (start : Nat) (op : Before) (hfloor : op.level < n.floor)
    (hceiling : n.ceiling < op.level) (h : Resolves n items t) :
    Resolves n (.before start op :: items) (op.node start t) := by
  obtain ⟨own, e, hfinish, hbinds, hreads⟩ := h
  refine ⟨own ++ [.before start op], e, ?_, ?_, ?_⟩
  · rw [finish_append, hfinish]
    rfl
  · intro w hw k hk
    rcases List.mem_append.mp hw with hw | hw
    · exact hbinds w hw k hk
    · rw [List.mem_singleton.mp hw, Waiting.binds, decide_eq_true_iff]
      exact Nat.lt_of_le_of_lt hk hceiling
  · intro ws rest hws
    rw [List.cons_append, operandNext, List.append_assoc]
    apply hreads
    refine .cons fun k hk => ?_
    rw [Waiting.binds, decide_eq_false_iff_not]
    exact Nat.not_lt.mpr (Nat.le_trans (Nat.le_of_lt hfloor) hk)

/-- An operator between two expressions.  The left one must be complete when the operator
    comes up, the right one must not be cut short by it. -/
theorem between {n' : Tier} {op : Between} (hl : Resolves n items l) (hr : Resolves n' items' r)
    (hnode : op.node l r = .ok t) (hcomplete : op.level ≤ n.ceiling)
    (hm : m.floor ≤ op.level ∧ m.floor ≤ n.floor ∧ m.ceiling ≤ n'.ceiling)
    (hright : ∀ k, n'.floor ≤ k → (Waiting.between (.ok l) op).binds k = false)
    (htakes : ∀ k ≤ m.ceiling, (Waiting.between (.ok l) op).binds k = true) :
    Resolves m (items ++ .between op :: items') t := by
  obtain ⟨own, e, hfinish, hbinds, hreads⟩ := hl
  obtain ⟨own', e', hfinish', hbinds', hreads'⟩ := hr
  refine ⟨own' ++ [.between (.ok l) op], e', ?_, ?_, ?_⟩
  · rw [finish_append, hfinish']
    exact hnode
  · intro w hw k hk
    rcases List.mem_append.mp hw with hw | hw
    · exact hbinds' w hw k (Nat.le_trans hk hm.2.2)
    · rw [List.mem_singleton.mp hw]
      exact htakes k hk
  · intro ws rest hws
    rw [List.append_assoc, hreads ws _ (hws.mono hm.2.1), List.cons_append, operatorNext,
      settle_eq hfinish hbinds hcomplete (hws.mono hm.1), List.append_assoc]
    exact hreads' _ rest (.cons hright)

/-- An operator after an expression of the tightest tier. -/
theorem after {stop : Nat} {op : After} (h : Resolves .primary items l)
    (hnode : op.node l stop = .ok t) : Resolves .primary (items ++ [.after stop op]) t := by
  obtain ⟨own, e, hfinish, hbinds, hreads⟩ := h
  refine ⟨[], .ok t, rfl, fun w hw => absurd hw List.not_mem_nil, ?_⟩
  intro ws rest hws
  have hsettle : settle After.level (own ++ ws) e = (ws, .ok l) :=
    settle_eq hfinish hbinds (Nat.le_refl _) hws
  rw [List.append_assoc, hreads ws _ hws, List.singleton_append, operatorNext, hsettle]
  exact congrArg (operatorNext ws · rest) hnode

end Resolves

/-- An operator of a tier that associates to the left. -/
theorem Resolves.left {n : Tier} {op : Between} {items items' : List Item} {l r t : Expr}
    (hl : Resolves n items l) (hr : Resolves n.tighter items' r) (hnode : op.node l r = .ok t)
    (hop : op.isLeft = true ∧ op.level = n.ceiling ∧ n.floor = op.level ∧
      op.level < n.tighter.floor) :
    Resolves n (items ++ .between op :: items') t := by
  obtain ⟨hleft, hceiling, hfloor, htighter⟩ := hop
  refine hl.between hr hnode (Nat.le_of_eq hceiling)
    ⟨Nat.le_of_eq hfloor, Nat.le_refl _, n.ceiling_le_tighter⟩ ?_ ?_
  · intro k hk
    rw [Waiting.binds, if_pos hleft, decide_eq_false_iff_not]
    exact Nat.not_le.mpr (Nat.lt_of_lt_of_le htighter hk)
  · intro k hk
    rw [Waiting.binds, if_pos hleft, decide_eq_true_iff, hceiling]
    exact hk

/-- An operator that associates to the right. -/
theorem Resolves.right {n n' m : Tier} {op : Between} {items items' : List Item} {l r t : Expr}
    (hl : Resolves n items l) (hr : Resolves n' items' r) (hnode : op.node l r = .ok t)
    (hop : op.isLeft = false ∧ op.level ≤ n.ceiling ∧ op.level ≤ n'.floor)
    (hm : m.floor ≤ op.level ∧ m.floor ≤ n.floor ∧ m.ceiling ≤ n'.ceiling ∧
      m.ceiling < op.level) :
    Resolves m (items ++ .between op :: items') t := by
  obtain ⟨hright, hcomplete, hfloor⟩ := hop
  obtain ⟨hlevel, hleftFloor, hceiling, htakes⟩ := hm
  refine hl.between hr hnode hcomplete ⟨hlevel, hleftFloor, hceiling⟩ ?_ ?_
  · intro k hk
    rw [Waiting.binds, if_neg (by simp [hright]), decide_eq_false_iff_not]
    exact Nat.not_lt.mpr (Nat.le_trans hfloor hk)
  · intro k hk
    rw [Waiting.binds, if_neg (by simp [hright]), decide_eq_true_iff]
    exact Nat.lt_of_le_of_lt hk htakes

/-! ### Comparison chains -/

/-- What a chain compares is no comparison, unless it stands in parentheses. -/
theorem Derives.isCompare_eq_false {n : Tier} {items : List Item} {t : Expr}
    (h : Derives n items t) (hn : Tier.bitOr.floor ≤ n.floor) : t.isCompare = false := by
  induction h with
  | @operand e he => cases e <;> first | rfl | cases he
  | @up n _ _ _ ih => exact ih (Nat.le_trans hn n.floor_le_tighter)
  | compare => simp [Tier.floor] at hn
  | _ => rfl

theorem linksWhole_links {links : List Link}
    (h : ∀ l ∈ links, l.tree.isCompare = false ∧ l.tree.chainsWhole = true) :
    linksWhole (links.map fun l => (l.op, l.tree)) = true := by
  induction links with
  | nil => rfl
  | cons l rest ih =>
    obtain ⟨⟨hsimple, hl⟩, hrest⟩ := List.forall_mem_cons.mp h
    simp [linksWhole, hsimple, hl, ih hrest]

/-- **Each chain of a derived expression is one node**, unless parentheses break it. -/
theorem Derives.chainsWhole_eq {n : Tier} {items : List Item} {t : Expr}
    (h : Derives n items t) : t.chainsWhole = true := by
  induction h with
  | @operand e he => cases e <;> first | rfl | cases he
  | up _ ih => exact ih
  | lambda _ _ _ ih | not _ _ ih | sign _ _ _ _ ih | call _ _ _ ih | subscript _ _ _ ih
  | member _ _ _ ih => rw [Expr.chainsWhole, ih]
  | named _ _ ih ih' | conditional _ _ _ ih ih' | boolOp _ _ _ ih ih' | binary _ _ _ _ ih ih'
  | power _ _ ih ih' => rw [Expr.chainsWhole, ih, ih', Bool.and_self]
  | @compare _ _ links hfirst _ hlinks ih ihlinks =>
    have hrest : linksWhole (links.map fun l => (l.op, l.tree)) = true :=
      linksWhole_links fun l hl =>
        ⟨(hlinks l hl).isCompare_eq_false (Nat.le_refl _), ihlinks l hl⟩
    simp [Link.chain, Expr.chainsWhole, hfirst.isCompare_eq_false (Nat.le_refl _), ih, hrest]

theorem Link.chain_node {first r : Expr} (links : List Link) (op : CompareOp) (items : List Item)
    (hfirst : first.isCompare = false) :
    Between.node (if links = [] then first else Link.chain first links) r (.compare op) =
      .ok (Link.chain first (links ++ [⟨op, items, r⟩])) := by
  by_cases hnone : links = []
  · rw [if_pos hnone, hnone]
    cases first <;> first | rfl | cases hfirst
  · rw [if_neg hnone]
    simp [Link.chain, Between.node, Span.combine]

theorem Resolves.chain {items : List Item} {first : Expr} {links : List Link}
    (hfirst : Resolves .bitOr items first) (hsimple : first.isCompare = false)
    (hlinks : ∀ l ∈ links, Resolves .bitOr l.items l.tree) :
    Resolves .comparison (items ++ Link.allItems links)
      (if links = [] then first else Link.chain first links) := by
  induction links using List.reverseRecOn with
  | nil =>
    simpa [Link.allItems] using hfirst.up (n := .comparison)
  | append_singleton links l ih =>
    obtain ⟨hlinks, hl⟩ := List.forall_mem_append.mp hlinks
    have hnode := Link.chain_node (r := l.tree) links l.op l.items hsimple
    have hall := (ih hlinks).left (hl l (by simp)) hnode ⟨rfl, rfl, rfl, Nat.lt_add_one 7⟩
    simpa [Link.allItems] using hall

/-! ### Resolution of derivations -/

theorem Derives.resolves {n : Tier} {items : List Item} {t : Expr} (h : Derives n items t) :
    Resolves n items t := by
  induction h with
  | @operand e he =>
    refine ⟨[], .ok e, rfl, fun w hw => absurd hw List.not_mem_nil, ?_⟩
    intro ws rest _
    rfl
  | up _ ih => exact ih.up
  | lambda start params _ ih =>
    exact ih.before start (.lambda params) (Nat.lt_add_one 1) Nat.one_pos
  | named _ _ ih ih' => exact ih.right ih' rfl (by decide) (by decide)
  | conditional condition _ _ ih ih' =>
    refine ih.right ih' rfl ?_ ?_
    · simp [Between.isLeft, Between.level, Tier.ceiling, Tier.floor]
    · simp [Between.level, Tier.ceiling, Tier.floor]
  | boolOp op _ _ ih ih' =>
    refine ih.left ih' rfl ?_
    cases op <;> decide
  | not start _ ih => exact ih.before start (.unary .not) (by decide) (by decide)
  | compare hfirst hsome _ ih ihlinks =>
    have hchain := Resolves.chain ih (hfirst.isCompare_eq_false (by decide)) ihlinks
    rwa [if_neg hsome] at hchain
  | binary op hop _ _ ih ih' =>
    refine ih.left ih' rfl ?_
    cases op <;> first | decide | exact absurd rfl hop
  | sign start op hop _ ih =>
    refine ih.before start (.unary op) ?_ ?_
    · cases op <;> decide
    · cases op <;> first | decide | exact absurd rfl hop
  | power _ _ ih ih' => exact ih.right ih' rfl (by decide) (by decide)
  | call stop args _ ih => exact ih.after rfl
  | subscript stop index _ ih => exact ih.after rfl
  | member stop attr _ ih => exact ih.after rfl

/-- A derivation determines its tree. -/
theorem Derives.resolve_eq {items : List Item} {t : Expr} (h : Derives .lambda items t) :
    resolve items = .ok t := by
  obtain ⟨own, e, hfinish, -, hreads⟩ := h.resolves
  have hnone : WaitsOn Tier.lambda.floor [] := by
    intro w hw
    cases hw
  have hread := hreads [] [] hnone
  rw [List.append_nil, List.append_nil, operatorNext, hfinish] at hread
  exact hread

/-- **A flat expression that the grammar of precedence derives has exactly the tree of the
    derivation.**  That tree has exactly the items of the expression, in their order, and one
    node for each comparison chain. -/
theorem expr_of_derives {parts : List (Tree Rule)} {t : Expr}
    (h : Derives .lambda (Build.items parts) t) (span : Span) :
    Build.expr (.node .expression span parts) = .ok t ∧ t.listing = Build.items parts ∧
      t.chainsWhole = true := by
  refine ⟨?_, h.listing_eq, h.chainsWhole_eq⟩
  rw [Build.expr]
  exact h.resolve_eq

/-- A sign before a power, and a chain of two comparisons with a conjunction behind it. -/
theorem expr_of_derives_chain :
    let name (start : Nat) (c : Char) : Tree Rule := .leaf .ident ⟨start, start + 1⟩ [c]
    let between (op : Infix) : Tree Rule := .leaf (.between op) ⟨0, 0⟩ []
    -- -a ** b < c <= d and e
    let parts : List (Tree Rule) :=
      [.leaf (.before .neg) ⟨0, 1⟩ ['-'], name 1 'a', between .pow, name 6 'b', between .lt,
        name 10 'c', between .le, name 15 'd', between .and, name 21 'e']
    let power : Expr := .binary ⟨1, 7⟩ .pow (.name ⟨1, 2⟩ "a") (.name ⟨6, 7⟩ "b")
    Build.expr (.node .expression ⟨0, 22⟩ parts) =
      .ok (.boolOp ⟨0, 22⟩ .and
        (.compare ⟨0, 16⟩ (.unary ⟨0, 7⟩ .neg power)
          [(.lt, .name ⟨10, 11⟩ "c"), (.le, .name ⟨15, 16⟩ "d")])
        (.name ⟨21, 22⟩ "e")) := by
  intro name between parts power
  have hname : ∀ (span : Span) (s : String), Derives .primary [.operand (.ok (.name span s))]
      (.name span s) := fun _ _ => .operand rfl
  have htight : ∀ span s, Derives .bitOr [.operand (.ok (.name span s))] (.name span s) :=
    fun span s => .up (.up (.up (.up (.up (.up (.up (.up (hname span s))))))))
  have hpower := Derives.power (hname ⟨1, 2⟩ "a") (.up (.up (hname ⟨6, 7⟩ "b")))
  have hsign := Derives.sign 0 .neg (by decide) (.up hpower)
  let link (op : CompareOp) (start : Nat) (s : String) : Link :=
    ⟨op, [.operand (.ok (.name ⟨start, start + 1⟩ s))], .name ⟨start, start + 1⟩ s⟩
  have hlinks : ∀ l ∈ [link .lt 10 "c", link .le 15 "d"], Derives .bitOr l.items l.tree := by
    simp [link, htight]
  have hchain := Derives.compare (.up (.up (.up (.up (.up (.up hsign)))))) (by simp) hlinks
  have hand := Derives.boolOp .and (.up (.up hchain)) (.up (.up (htight ⟨21, 22⟩ "e")))
  have hall : Derives .lambda (Build.items parts) _ := .up (.up (.up (.up hand)))
  exact (expr_of_derives hall ⟨0, 22⟩).1

end SafeExpr
