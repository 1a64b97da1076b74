/-
  SafeExpr/Proofs/Parse/Fits.lean
  ===============================
  **What is built has a text.**

  The grammar leaves each construct in its place only: slices in subscripts, unpackings in
  displays and calls, names that are no reserved words.  The trees built from its nodes
  therefore fit (`Expr.Fits`), each node of them.  The first part is about resolution, which
  adds operators around what is built; the second part follows the nodes.
-/
import Mathlib.Tactic.ByContra
import SafeExpr.Proofs.Grammar.Number
import SafeExpr.Proofs.Number.Exact
import SafeExpr.Proofs.Parse.Spans

namespace SafeExpr

open Except (Ensures)

/-! ### Fractions -/

/-- What begins with a digit or a point is read as a fraction: it has no sign, and is no word for
    an infinity or for not a number. -/
theorem readDouble?_of_head {cs : List Char} (h : ∀ c ∈ cs.head?, c.isDigit = true ∨ c = '.') :
    readDouble? cs = readFraction? false cs := by
  have hmember : ∀ c ∈ cs.head?, c ∈ "0123456789.".toList := by
    intro c hc
    rcases h c hc with hdigit | rfl
    · exact List.mem_append_left ['.'] (mem_of_isDigit hdigit)
    · decide
  have hplain : ∀ c ∈ "0123456789.".toList,
      c ≠ '-' ∧ c ≠ '+' ∧ c.toLower ≠ 'i' ∧ c.toLower ≠ 'n' := by
    intro c hc
    have hall : "0123456789.".toList.all (fun c =>
        c != '-' && c != '+' && c.toLower != 'i' && c.toLower != 'n') = true := by decide
    simpa only [Bool.and_eq_true, bne_iff_ne, and_assoc] using List.all_eq_true.mp hall c hc
  have hword : ∀ {x : Char} {w : List Char}, x = 'i' ∨ x = 'n' → cs.map Char.toLower ≠ x :: w := by
    intro x w hx heq
    obtain ⟨c, rest, rfl, hc, -⟩ := List.map_eq_cons_iff.mp heq
    obtain ⟨-, -, hi, hn⟩ := hplain c (hmember c rfl)
    rcases hx with rfl | rfl
    · exact hi hc
    · exact hn hc
  unfold readDouble?
  dsimp only
  split
  · next rest => exact absurd rfl (hplain '-' (hmember '-' rfl)).1
  · next rest => exact absurd rfl (hplain '+' (hmember '+' rfl)).2.1
  · next body _ _ =>
    rw [if_neg, if_neg]
    · exact hword (Or.inr rfl)
    · rw [Bool.or_eq_true, decide_eq_true_iff, decide_eq_true_iff]
      exact not_or_intro (hword (Or.inl rfl)) (hword (Or.inl rfl))

/-- A float literal stands for a number without sign, or an infinity. -/
theorem readDouble?_of_floatLiteral {cs : List Char} (h : Grammar.FloatLiteral cs) {x : Double}
    (hx : readDouble? (withoutUnderscores cs) = some x) :
    x.isNegative = false ∧ x.isNaN = false := by
  have hkept : ∀ (c : Char) (rest : List Char), c.isDigit = true ∨ c = '.' →
      ∀ d ∈ (withoutUnderscores (c :: rest)).head?, d.isDigit = true ∨ d = '.' := by
    intro c rest hc d hd
    have hne : c ≠ '_' := by
      rintro rfl
      rcases hc with hc | hc <;> cases hc
    rw [withoutUnderscores, List.filter_cons_of_pos (by simpa using hne)] at hd
    cases hd
    exact hc
  have hhead : ∀ d ∈ (withoutUnderscores cs).head?, d.isDigit = true ∨ d = '.' := by
    cases h with
    | point hwhole =>
      rcases hwhole with rfl | hwhole
      · exact hkept _ _ (Or.inr rfl)
      · obtain ⟨d, more, rfl, hd⟩ := hwhole.head
        exact hkept _ _ (Or.inl hd)
    | exponent hwhole =>
      obtain ⟨d, more, rfl, hd⟩ := hwhole.head
      exact hkept _ _ (Or.inl hd)
  rw [readDouble?_of_head hhead, readFraction?] at hx
  dsimp only at hx
  split at hx
  · next n e _ _ =>
    obtain ⟨m, hm, heq⟩ := Double.ofDecimal_eq false n _
    rw [Option.some.injEq, heq] at hx
    rw [← hx]
    exact ⟨Double.isNegative_ofMagnitude (Nat.lt_of_le_of_lt hm (by decide)),
      Double.isNaN_ofMagnitude hm⟩
  · cases hx

/-- The tree may stand in such a place, and all its nodes fit. -/
def FitsAs (place : Expr → Bool) (e : Expr) : Prop := place e = true ∧ e.AllFit

abbrev Fitting : Expr → Prop := FitsAs Expr.isExpression

theorem isItem_of_isExpression {e : Expr} (h : e.isExpression = true) : e.isItem = true := by
  cases e <;> first | exact h | cases h

theorem isArgument_of_isExpression {e : Expr} (h : e.isExpression = true) :
    e.isArgument = true := by
  cases e <;> first | exact h | cases h

theorem isIndex_of_isExpression {e : Expr} (h : e.isExpression = true) : e.isIndex = true := by
  cases e <;> first | exact h | cases h

theorem isSource_of_isExpression {e : Expr} (h : e.isExpression = true) : e.isSource = true := by
  cases e <;> first | exact h | cases h

/-! ### Items that fit -/

def Before.Fits : Before → Prop
  | .lambda params => ∀ n ∈ params, isName n = true
  | .unary _ => True

def Between.Fits : Between → Prop
  | .conditional condition => condition.Ensures Fitting
  | _ => True

def ArgumentsFit (seen : Bool) (args : List (Argument Expr)) : Prop :=
  Expr.argumentsOrdered seen args = true ∧ ∀ arg ∈ args, arg.Fits ∧ arg.value.AllFit

def After.Fits : After → Prop
  | .call args => args.Ensures (ArgumentsFit false)
  | .subscript index => index.Ensures (FitsAs Expr.isIndex)
  | .member attr => isWord attr.toList = true

def Item.Fits : Item → Prop
  | .before _ op => op.Fits
  | .operand e => e.Ensures Fitting
  | .between op => op.Fits
  | .after _ op => op.Fits

theorem Before.node_fits {op : Before} {start : Nat} {e : Expr} (hop : op.Fits)
    (he : Fitting e) : Fitting (op.node start e) := by
  obtain ⟨hplain, hall⟩ := he
  cases op with
  | unary op => exact ⟨rfl, Expr.allFit_iff.mpr ⟨hplain, List.forall_mem_singleton.mpr hall⟩⟩
  | lambda params =>
    exact ⟨rfl, Expr.allFit_iff.mpr ⟨⟨hop, hplain⟩, List.forall_mem_singleton.mpr hall⟩⟩

theorem fitting_of_two {e l r : Expr} (hplain : e.isExpression = true) (hfits : e.Fits)
    (hchildren : e.children = [l, r]) (hl : l.AllFit) (hr : r.AllFit) : Fitting e := by
  refine ⟨hplain, Expr.allFit_iff.mpr ⟨hfits, ?_⟩⟩
  rw [hchildren]
  exact List.forall_mem_cons.mpr ⟨hl, List.forall_mem_singleton.mpr hr⟩

theorem Between.node_fits {op : Between} {l r : Expr} (hop : op.Fits) (hl : Fitting l)
    (hr : Fitting r) : (op.node l r).Ensures Fitting := by
  obtain ⟨hlplain, hl⟩ := hl
  obtain ⟨hrplain, hr⟩ := hr
  cases op with
  | binary op => exact fitting_of_two rfl ⟨hlplain, hrplain⟩ rfl hl hr
  | boolOp op => exact fitting_of_two rfl ⟨hlplain, hrplain⟩ rfl hl hr
  | named => exact fitting_of_two rfl ⟨hlplain, hrplain⟩ rfl hl hr
  | compare op =>
    simp only [Between.node]
    split
    · next s first links =>
      obtain ⟨hfits, hchildren⟩ := Expr.allFit_iff.mp hl
      obtain ⟨hfirst, hsome, hlinks⟩ := hfits
      refine ⟨rfl, Expr.allFit_iff.mpr ⟨⟨hfirst, by simp, ?_⟩, ?_⟩⟩
      · exact List.forall_mem_append.mpr ⟨hlinks, List.forall_mem_singleton.mpr hrplain⟩
      · rw [Expr.children, List.map_append, ← List.cons_append]
        exact List.forall_mem_append.mpr ⟨hchildren, List.forall_mem_singleton.mpr hr⟩
    · refine fitting_of_two rfl ⟨hlplain, by simp, ?_⟩ rfl hl hr
      exact List.forall_mem_singleton.mpr hrplain
  | conditional condition =>
    refine Except.Satisfies.map hop fun c hc => ?_
    refine ⟨rfl, Expr.allFit_iff.mpr ⟨⟨hc.1, hlplain, hrplain⟩, ?_⟩⟩
    simp only [Expr.children, List.forall_mem_cons]
    exact ⟨hl, hc.2, hr, List.forall_mem_nil _⟩

theorem After.node_fits {op : After} {stop : Nat} {e : Expr} (hop : op.Fits) (he : Fitting e) :
    (op.node e stop).Ensures Fitting := by
  obtain ⟨hplain, hall⟩ := he
  cases op with
  | call args =>
    refine Except.Satisfies.map hop fun as has => ?_
    obtain ⟨hordered, has⟩ := has
    refine ⟨rfl, Expr.allFit_iff.mpr ⟨⟨hplain, hordered, fun arg harg => (has arg harg).1⟩, ?_⟩⟩
    refine List.forall_mem_cons.mpr ⟨hall, List.forall_mem_map.mpr ?_⟩
    exact fun arg harg => (has arg harg).2
  | subscript index =>
    refine Except.Satisfies.map hop fun i hi => ?_
    exact fitting_of_two rfl ⟨hplain, hi.1⟩ rfl hall hi.2
  | member attr =>
    exact ⟨rfl, Expr.allFit_iff.mpr ⟨⟨hplain, hop⟩, List.forall_mem_singleton.mpr hall⟩⟩

/-! ### Resolution -/

/-- Operators that fit make fitting trees of fitting ones. -/
def fittingClosed : OperatorClosed where
  tree := Fitting
  before _ op := op.Fits
  between op := op.Fits
  after _ op := op.Fits
  before_node hop he := Before.node_fits hop he
  between_node hop hl hr := Between.node_fits hop hl hr
  after_node hop he := After.node_fits hop he

/-- **Items that fit resolve to a tree that fits.** -/
theorem resolve_fits {items : List Item} (h : ∀ i ∈ items, i.Fits) :
    (resolve items).Ensures Fitting := by
  refine fittingClosed.resolve fun i hi => ?_
  have hfits := h i hi
  cases i <;> exact hfits

/-! ### Nodes and their parts -/

namespace Grammar

variable {source : List Char} {a z : Nat} {ts : List (Tree Rule)}

theorem isName_of_laid {s : Span} {text : List Char}
    (h : Laid source a z (.leaf .ident s text :: ts)) : isName (String.ofList text) = true := by
  cases h with
  | leaf hc hstart hread hrest => exact isName_of_reads hread

theorem isWord_of_laid {s : Span} {text : List Char}
    (h : Laid source a z (.leaf .memberName s text :: ts)) : isWord text = true := by
  cases h with
  | leaf hc hstart hread hrest =>
    obtain ⟨cs, hcs, hpasses, -⟩ := isWord_of_reads hread
    rwa [hpasses.upTo_eq]

theorem floatLiteral_of_laid {s : Span} {text : List Char}
    (h : Laid source a z (.leaf .float s text :: ts)) : FloatLiteral text := by
  cases h with
  | leaf hc hstart hread hrest =>
    obtain ⟨cs, hcs, hpasses⟩ := floatLiteral_of_reads hread
    rwa [hpasses.upTo_eq]

theorem statementWord_of_laid {s : Span} {text : List Char}
    (h : Laid source a z (.leaf .statementKeyword s text :: ts)) :
    String.ofList text ∈ statementWords := by
  cases h with
  | leaf hc hstart hread hrest =>
    obtain ⟨w, hw, hpasses⟩ := word_of_reads hread
    rwa [hpasses.upTo_eq, String.ofList_toList]

/-- Nodes of identifiers have the texts of names. -/
theorem isName_of_texts (h : Laid source a z ts) (hts : ∀ t ∈ ts, OfRule .ident t) :
    ∀ n ∈ Build.texts ts, isName n = true := by
  induction ts generalizing a with
  | nil => exact List.forall_mem_nil _
  | cons t ts ih =>
    obtain ⟨ht, hrest⟩ := List.forall_mem_cons.mp hts
    obtain ⟨s, text, rfl⟩ := ht.leaf rfl
    exact List.forall_mem_cons.mpr ⟨isName_of_laid h, ih h.tail hrest⟩

/-- What a repetition leaves, piece by piece. -/
theorem forall_of_shape_many {p : Pattern Rule} {P : Tree Rule → Prop}
    (h : Shape (.many p) ts) (hp : ∀ us, Shape p us → ∀ t ∈ us, P t) : ∀ t ∈ ts, P t := by
  obtain ⟨tss, htss, rfl⟩ := h
  intro t ht
  obtain ⟨us, hus, ht⟩ := List.mem_flatten.mp ht
  exact hp us (htss us hus) t ht

theorem forall_of_shape_commaList {p : Pattern Rule} {P : Tree Rule → Prop}
    (h : Shape (.commaList p) ts) (hp : ∀ us, Shape p us → ∀ t ∈ us, P t) : ∀ t ∈ ts, P t := by
  rcases h with ⟨_, _, rfl, ⟨first, more, rfl, hfirst, hmore⟩, hcomma⟩ | rfl
  · have hlast : ∀ us : List (Tree Rule), Shape (.optional (Pattern.lit ",")) us → us = [] := by
      rintro us (h | h) <;> exact h
    rw [hlast _ hcomma, List.append_nil, List.forall_mem_append]
    refine ⟨hp first hfirst, forall_of_shape_many hmore ?_⟩
    rintro _ ⟨_, us, rfl, rfl, hus⟩
    exact hp us hus
  · exact List.forall_mem_nil _

/-- Identifiers separated by commas. -/
theorem idents_of_shape {first more : List (Tree Rule)} (hfirst : Shape ident first)
    (hmore : Shape (.many (comma ++ ident)) more) :
    (∃ t us, first ++ more = t :: us) ∧ ∀ t ∈ first ++ more, OfRule .ident t := by
  obtain ⟨t, rfl, ht⟩ := hfirst
  refine ⟨⟨t, more, rfl⟩, List.forall_mem_cons.mpr ⟨ht, forall_of_shape_many hmore ?_⟩⟩
  rintro _ ⟨_, _, rfl, rfl, u, rfl, hu⟩
  exact List.forall_mem_singleton.mpr hu

theorem targets_of_laid {t : Tree Rule} (h : Laid source a z (t :: ts))
    (ht : OfRule .compTarget t) :
    Build.texts t.children ≠ [] ∧ ∀ n ∈ Build.texts t.children, isName n = true := by
  obtain ⟨s, parts, rfl⟩ := ht.node rfl
  obtain ⟨first, more, rfl, hfirst, hmore⟩ := h.shape_node
  obtain ⟨⟨u, us, hsome⟩, hidents⟩ := idents_of_shape hfirst hmore
  refine ⟨?_, isName_of_texts h.of_node.2.1 hidents⟩
  rw [hsome, List.forall_mem_cons] at hidents
  obtain ⟨s, text, rfl⟩ := hidents.1.leaf rfl
  rw [Tree.children, hsome]
  simp [Build.texts]

theorem params_of_laid {t : Tree Rule} (h : Laid source a z (t :: ts))
    (ht : OfRule .lambdaParams t) : ∀ n ∈ Build.texts t.children, isName n = true := by
  obtain ⟨s, parts, rfl⟩ := ht.node rfl
  obtain ⟨_, last, rfl, ⟨first, more, rfl, hfirst, hmore⟩, hlast⟩ := h.shape_node
  have hlast : last = [] := by rcases hlast with hlast | hlast <;> exact hlast
  rw [hlast, List.append_nil] at h ⊢
  exact isName_of_texts h.of_node.2.1 (idents_of_shape hfirst hmore).2

end Grammar

namespace Build

open Grammar (Laid Shape OfRule isSolid rulePattern)


variable {source : List Char}

/-- The targets of a clause stand behind its first word. -/
theorem compTarget_of_shape {word targets : Tree Rule} {rest : List (Tree Rule)}
    (h : Shape (rulePattern .compFor) (word :: targets :: rest)) : OfRule .compTarget targets := by
  obtain ⟨_, _, heq, ⟨_, _, rfl, ⟨_, _, rfl, ⟨_, _, rfl, ⟨_, rfl, _⟩, t, rfl, ht⟩, _⟩, _⟩, _⟩ := h
  cases heq
  exact ht

def TreeFits (source : List Char) (t : Tree Rule) : Prop :=
  ∀ a z, Laid source a z [t] → (expr t).Ensures Fitting

/-- A clause that fits, with its expressions. -/
def ClauseFits (c : Clause Expr) : Prop := c.Fits ∧ ∀ e ∈ Expr.clauseParts c, e.AllFit

/-- A comprehension whose parts fit. -/
theorem fitting_comprehension {s : Span} {kind : ComprehensionKind} {e : Expr} {v : Option Expr}
    {cs : List (Clause Expr)} (he : Fitting e) (hkind : v.isSome = true ↔ kind = .dict)
    (hv : ∀ x ∈ v, Fitting x) (hsome : cs ≠ []) (hcs : ∀ c ∈ cs, ClauseFits c) :
    Fitting (.comprehension s kind e v cs) := by
  refine ⟨rfl, Expr.allFit_iff.mpr
    ⟨⟨he.1, hkind, fun x hx => (hv x hx).1, hsome, fun c hc => (hcs c hc).1⟩, ?_⟩⟩
  refine List.forall_mem_cons.mpr ⟨he.2, List.forall_mem_append.mpr ⟨?_, ?_⟩⟩
  · intro x hx
    exact (hv x (Option.mem_toList.mp hx)).2
  · intro x hx
    obtain ⟨c, hc, hx⟩ := List.mem_flatMap.mp hx
    exact (hcs c hc).2 x hx

theorem fitting_starred {s : Span} {double : Bool} {e : Expr} (he : Fitting e) :
    (Expr.starred s double e).AllFit :=
  Expr.allFit_iff.mpr ⟨he.1, List.forall_mem_singleton.mpr he.2⟩

theorem literal_fits {r : Rule} {s : Span} {text : List Char} {ts : List (Tree Rule)} {a z : Nat}
    (h : Laid source a z (.leaf r s text :: ts)) : (literal r s text).Ensures Fitting := by
  have hleaf : ∀ e : Expr, e.isExpression = true → e.Fits → e.children = [] → Fitting e := by
    intro e hplain hfits hchildren
    refine ⟨hplain, Expr.allFit_iff.mpr ⟨hfits, ?_⟩⟩
    rw [hchildren]
    exact List.forall_mem_nil _
  unfold literal
  dsimp only
  split
  · split
    · next n hread =>
      refine hleaf _ rfl ?_ rfl
      -- what is read of digits is no negative number
      obtain ⟨m, -, hm⟩ := Option.bind_eq_some_iff.mp hread
      rw [Expr.Fits, fitInt64_eq_some_iff.mp hm]
      exact Int.natCast_nonneg m
    · trivial
  · split
    · next x hread =>
      exact hleaf _ rfl (readDouble?_of_floatLiteral (Grammar.floatLiteral_of_laid h) hread) rfl
    · trivial
  · cases readQuoted s.start text with
    | error err => trivial
    | ok str => exact hleaf _ rfl trivial rfl
  · exact hleaf _ rfl trivial rfl
  · exact hleaf _ rfl trivial rfl
  · exact hleaf _ rfl (Grammar.isName_of_laid h) rfl
  · trivial

/-- The parameters of a lambda are names. -/
theorem lambdaParams_fit {op : Prefix} {s : Span} {parts ts : List (Tree Rule)} {a z : Nat}
    (h : Laid source a z (.node (.before op) s parts :: ts)) :
    (beforeOf (lambdaParams parts) op).Fits := by
  cases op with
  | lambda =>
    obtain ⟨_, _, rfl, ⟨_, params, rfl, ⟨word, rfl, -⟩, hparams⟩, rfl⟩ := h.shape_node
    rcases hparams with ⟨t, rfl, ht⟩ | rfl
    · exact Grammar.params_of_laid h.of_node.2.1.tail ht
    · exact List.forall_mem_nil _
  | _ => trivial

/-- An element and its clauses. -/
theorem comprehension_shape {o c : String} {r : Rule} {ts : List (Tree Rule)}
    (h : Shape (Grammar.comprehension o c (.rule r)) ts) :
    ∃ t us, ts = t :: us ∧ us ≠ [] ∧ OfRule r t := by
  obtain ⟨_, _, rfl, ⟨_, _, rfl, ⟨_, _, rfl, rfl, t, rfl, ht⟩, _, more, rfl, ⟨u, rfl, -⟩, -⟩,
    rfl⟩ := h
  exact ⟨t, u :: more, by simp, by simp, ht⟩

/-- A set has an item. -/
theorem set_ne_nil {s : Span} {parts ts : List (Tree Rule)} {a z : Nat}
    (h : Laid source a z (.node .set s parts :: ts)) : parts ≠ [] := by
  obtain ⟨_, _, rfl, ⟨_, _, rfl, ⟨_, _, rfl, ⟨_, _, rfl, rfl, hitem⟩, -⟩, -⟩, -⟩ := h.shape_node
  rcases hitem with ⟨t, rfl, -⟩ | ⟨t, rfl, -⟩ <;> simp

/-- A display whose items fit. -/
theorem display_fits {α : Type} {P : α → Prop} {m : Built α} {make : α → Expr} (hm : m.Ensures P)
    (hplain : ∀ x, (make x).isExpression = true) (hfits : ∀ x, P x → (make x).Fits)
    (hchildren : ∀ x, P x → ∀ c ∈ (make x).children, c.AllFit) : (m.map make).Ensures Fitting :=
  Except.Satisfies.map hm fun x hx =>
    ⟨hplain x, Expr.allFit_iff.mpr ⟨hfits x hx, hchildren x hx⟩⟩

section Parts

variable {z n : Nat} (hbelow : ∀ t, sizeOf t < n → TreeFits source t)
include hbelow

theorem inner_fits {r : Rule} {s : Span} {t : Tree Rule} {ts : List (Tree Rule)} {a : Nat}
    (hn : sizeOf (Tree.node r s [t] :: ts) ≤ n) (h : Laid source a z (.node r s [t] :: ts)) :
    (expr t).Ensures Fitting := by
  refine hbelow t ?_ _ _ h.of_node.2.1
  simp only [List.cons.sizeOf_spec, Tree.node.sizeOf_spec] at hn
  omega

theorem first_fits {t : Tree Rule} {ts : List (Tree Rule)} {a : Nat}
    (hn : sizeOf (t :: ts) ≤ n) (h : Laid source a z (t :: ts)) : (expr t).Ensures Fitting := by
  refine hbelow t ?_ _ _ h.of_cons.2.1
  simp only [List.cons.sizeOf_spec] at hn
  omega

theorem elements_fit (ts : List (Tree Rule)) :
    ∀ a, sizeOf ts ≤ n → Laid source a z ts →
      (elements ts).Ensures fun es => es.length = ts.length ∧ ∀ e ∈ es, FitsAs Expr.isItem e := by
  induction ts with
  | nil =>
    intro a _ _
    rw [elements]
    exact ⟨rfl, List.forall_mem_nil _⟩
  | cons t ts ih =>
    intro a hn hts
    have hrest := ih _ (Nat.le_trans (by simp) hn) hts.tail
    unfold elements
    split
    · next heq => cases heq
    · next heq =>
      cases heq
      refine Except.Satisfies.bind (inner_fits hbelow hn hts) fun e he => ?_
      refine Except.Satisfies.bind hrest fun es hes => ?_
      exact ⟨congrArg (· + 1) hes.1,
        List.forall_mem_cons.mpr ⟨⟨rfl, fitting_starred he⟩, hes.2⟩⟩
    · next heq =>
      cases heq
      refine Except.Satisfies.bind (first_fits hbelow hn hts) fun e he => ?_
      refine Except.Satisfies.bind hrest fun es hes => ?_
      exact ⟨congrArg (· + 1) hes.1,
        List.forall_mem_cons.mpr ⟨⟨isItem_of_isExpression he.1, he.2⟩, hes.2⟩⟩

theorem entry_fits {s : Span} {key value : Tree Rule} {ts : List (Tree Rule)} {a : Nat}
    (hn : sizeOf (Tree.node .dictEntry s [key, value] :: ts) ≤ n)
    (h : Laid source a z (.node .dictEntry s [key, value] :: ts)) :
    (expr key).Ensures Fitting ∧ (expr value).Ensures Fitting := by
  have hinner := h.of_node.2.1
  have hsize : sizeOf [key, value] ≤ n := by
    simp only [List.cons.sizeOf_spec, Tree.node.sizeOf_spec] at hn ⊢
    omega
  exact ⟨first_fits hbelow hsize hinner,
    first_fits hbelow (Nat.le_trans (by simp) hsize) hinner.tail⟩

theorem entries_fit (ts : List (Tree Rule)) :
    ∀ a, sizeOf ts ≤ n → Laid source a z ts →
      (entries ts).Ensures fun es => ∀ e ∈ es, Fitting e.1 ∧ Fitting e.2 := by
  induction ts with
  | nil =>
    intro a _ _
    rw [entries]
    exact List.forall_mem_nil _
  | cons t ts ih =>
    intro a hn hts
    have hrest := ih _ (Nat.le_trans (by simp) hn) hts.tail
    unfold entries
    split
    · next heq => cases heq
    · next heq =>
      cases heq
      obtain ⟨hkey, hvalue⟩ := entry_fits hbelow hn hts
      refine Except.Satisfies.bind hkey fun k hk => Except.Satisfies.bind hvalue fun v hv => ?_
      exact Except.Satisfies.bind hrest fun es hes => List.forall_mem_cons.mpr ⟨⟨hk, hv⟩, hes⟩
    · trivial

theorem conditions_fit (ts : List (Tree Rule)) :
    ∀ a, sizeOf ts ≤ n → Laid source a z ts →
      (conditions ts).Ensures fun es => ∀ e ∈ es, Fitting e := by
  induction ts with
  | nil =>
    intro a _ _
    rw [conditions]
    exact List.forall_mem_nil _
  | cons t ts ih =>
    intro a hn hts
    have hrest := ih _ (Nat.le_trans (by simp) hn) hts.tail
    unfold conditions
    split
    · next heq => cases heq
    · next s word test rest heq =>
      cases heq
      have hsize : sizeOf test < n := by
        simp only [List.cons.sizeOf_spec, Tree.node.sizeOf_spec] at hn
        omega
      refine Except.Satisfies.bind (hbelow test hsize _ _ hts.of_node.2.1.tail) fun e he => ?_
      exact Except.Satisfies.bind hrest fun es hes => List.forall_mem_cons.mpr ⟨he, hes⟩
    · trivial

theorem clauses_fit (ts : List (Tree Rule)) :
    ∀ a, sizeOf ts ≤ n → Laid source a z ts →
      (clauses ts).Ensures fun cs => cs.length = ts.length ∧ ∀ c ∈ cs, ClauseFits c := by
  induction ts with
  | nil =>
    intro a _ _
    rw [clauses]
    exact ⟨rfl, List.forall_mem_nil _⟩
  | cons t ts ih =>
    intro a hn hts
    have hrest := ih _ (Nat.le_trans (by simp) hn) hts.tail
    unfold clauses
    split
    · next heq => cases heq
    · next s word targets word' iter tests rest heq =>
      cases heq
      have hinner := hts.of_node.2.1
      have hsize : sizeOf (iter :: tests) ≤ n := by
        simp only [List.cons.sizeOf_spec, Tree.node.sizeOf_spec] at hn ⊢
        omega
      have hparts := hinner.tail.tail.tail
      have htests := conditions_fit hbelow tests _ (Nat.le_trans (by simp) hsize) hparts.tail
      have htargets := Grammar.targets_of_laid hinner.tail (compTarget_of_shape hts.shape_node)
      refine Except.Satisfies.bind (first_fits hbelow hsize hparts) fun i hi => ?_
      refine Except.Satisfies.bind htests fun cs hcs => Except.Satisfies.bind hrest fun es hes => ?_
      refine ⟨congrArg (· + 1) hes.1, List.forall_mem_cons.mpr ⟨⟨⟨htargets.1, htargets.2, hi.1,
        fun e he => (hcs e he).1⟩, ?_⟩, hes.2⟩⟩
      exact List.forall_mem_cons.mpr ⟨hi.2, fun e he => (hcs e he).2⟩
    · trivial

/-- An element and at least one clause. -/
theorem comprehension_fits {kind : ComprehensionKind} {s : Span} {a : Nat} {t : Tree Rule}
    {us : List (Tree Rule)} (hn : sizeOf (t :: us) ≤ n) (h : Laid source a z (t :: us))
    (hus : us ≠ []) (ht : if kind = .dict then OfRule .dictEntry t else OfRule .expression t) :
    (comprehension kind s (t :: us)).Ensures Fitting := by
  have hclauses := clauses_fit hbelow us _ (Nat.le_trans (by simp) hn) h.tail
  have hsome : ∀ cs : List (Clause Expr), cs.length = us.length → cs ≠ [] := by
    rintro _ hlength rfl
    exact hus (List.length_eq_zero_iff.mp hlength.symm)
  unfold comprehension
  split
  · next s' key value rest heq =>
    cases heq
    have hkind : kind = .dict := by
      by_contra hkind
      rw [if_neg hkind] at ht
      obtain ⟨_, _, ht⟩ := ht.node rfl
      cases ht
    obtain ⟨hkey, hvalue⟩ := entry_fits hbelow hn h
    refine Except.Satisfies.bind hkey fun k hk => Except.Satisfies.bind hvalue fun v hv => ?_
    refine Except.Satisfies.bind hclauses fun cs hcs => ?_
    refine fitting_comprehension hk (by simp [hkind]) ?_ (hsome cs hcs.1) hcs.2
    rintro _ ⟨⟩
    exact hv
  · next head rest hnot heq =>
    cases heq
    have hkind : kind ≠ .dict := by
      intro hkind
      rw [if_pos hkind] at ht
      obtain ⟨s', parts, rfl⟩ := ht.node rfl
      obtain ⟨_, _, rfl, ⟨_, _, rfl, ⟨k, rfl, hk⟩, rfl⟩, v, rfl, hv⟩ := h.shape_node
      exact hnot s' k v rfl
    refine Except.Satisfies.bind (first_fits hbelow hn h) fun e he => ?_
    refine Except.Satisfies.bind hclauses fun cs hcs => ?_
    refine fitting_comprehension he (by simp [hkind]) ?_ (hsome cs hcs.1) hcs.2
    rintro _ ⟨⟩
  · next heq => cases heq

/-- A comprehension in its brackets. -/
theorem collecting_fits {kind : ComprehensionKind} {o c : String} {r q : Rule} {s : Span}
    {parts ts : List (Tree Rule)} {a : Nat} (hn : sizeOf (Tree.node r s parts) ≤ n)
    (h : Laid source a z (.node r s parts :: ts))
    (hpattern : Grammar.rulePattern r = Grammar.comprehension o c (.rule q))
    (hq : if kind = .dict then q = .dictEntry else q = .expression) :
    (comprehension kind s parts).Ensures Fitting := by
  obtain ⟨hsize, hinner⟩ := parts_laid hn h
  obtain ⟨t, us, rfl, hus, ht⟩ := comprehension_shape (hpattern ▸ h.shape_node)
  refine comprehension_fits hbelow hsize hinner hus ?_
  split at hq
  · next hkind =>
    rw [if_pos hkind]
    exact hq ▸ ht
  · next hkind =>
    rw [if_neg hkind]
    exact hq ▸ ht

theorem arguments_fit (ts : List (Tree Rule)) :
    ∀ a seen, sizeOf ts ≤ n → Laid source a z ts → (∀ t ∈ ts, t.rule ≠ .callGenerator) →
      (arguments seen ts).Ensures (ArgumentsFit seen) := by
  induction ts with
  | nil =>
    intro a seen _ _ _
    rw [arguments]
    exact ⟨rfl, List.forall_mem_nil _⟩
  | cons t ts ih =>
    intro a seen hn hts hrules
    obtain ⟨hrule, hrules⟩ := List.forall_mem_cons.mp hrules
    have hrest := fun b => ih _ b (Nat.le_trans (by simp) hn) hts.tail hrules
    unfold arguments
    split
    · next heq => cases heq
    · next heq =>
      cases heq
      exact absurd rfl hrule
    · next s r s' name value rest heq =>
      cases heq
      have hinner := hts.of_node.2.1
      have hsize : sizeOf value < n := by
        simp only [List.cons.sizeOf_spec, Tree.node.sizeOf_spec] at hn
        omega
      have hname : isName (String.ofList name) = true := by
        obtain ⟨_, _, heq, ⟨_, _, rfl, ⟨_, _, rfl, ⟨u, rfl, hu⟩, rfl⟩, rfl⟩, _⟩ := hts.shape_node
        cases heq
        obtain ⟨_, _, hu⟩ := hu.leaf rfl
        cases hu
        exact Grammar.isName_of_laid hinner
      refine Except.Satisfies.bind (hbelow value hsize _ _ hinner.tail) fun e he => ?_
      refine Except.Satisfies.bind (hrest true) fun as has => ⟨has.1, ?_⟩
      exact List.forall_mem_cons.mpr ⟨⟨⟨hname, he.1⟩, he.2⟩, has.2⟩
    · next heq =>
      cases heq
      refine Except.Satisfies.bind (inner_fits hbelow hn hts) fun e he => ?_
      refine Except.Satisfies.bind (hrest true) fun as has => ⟨?_, ?_⟩
      · rw [Expr.argumentsOrdered, Bool.or_true]
        exact has.1
      · exact List.forall_mem_cons.mpr ⟨⟨rfl, fitting_starred he⟩, has.2⟩
    · next heq =>
      cases heq
      refine Except.Satisfies.bind (inner_fits hbelow hn hts) fun e he => ?_
      refine Except.Satisfies.bind (hrest seen) fun as has => ⟨?_, ?_⟩
      · rw [Expr.argumentsOrdered, Bool.or_false]
        exact has.1
      · exact List.forall_mem_cons.mpr ⟨⟨rfl, fitting_starred he⟩, has.2⟩
    · next heq =>
      cases heq
      split
      · trivial
      · next hseen =>
        refine Except.Satisfies.bind (first_fits hbelow hn hts) fun e he => ?_
        refine Except.Satisfies.bind (hrest seen) fun as has => ⟨?_, ?_⟩
        · rw [Expr.argumentsOrdered_plain he.1, has.1]
          simpa using hseen
        · exact List.forall_mem_cons.mpr ⟨⟨isArgument_of_isExpression he.1, he.2⟩, has.2⟩

/-- The arguments of a call: a single generator, or a list without one. -/
theorem call_fits {s : Span} {args ts : List (Tree Rule)} {a : Nat} (hn : sizeOf args ≤ n)
    (h : Laid source a z (.node .callOp s args :: ts)) :
    (arguments false args).Ensures (ArgumentsFit false) := by
  have hinner := h.of_node.2.1
  rcases h.shape_node with hgenerator | hlist
  · obtain ⟨_, _, rfl, ⟨_, _, rfl, rfl, u, rfl, hu⟩, rfl⟩ := hgenerator
    obtain ⟨s', parts, rfl⟩ := hu.node rfl
    obtain ⟨_, _, rfl, ⟨t, rfl, ht⟩, _, more, rfl, ⟨c, rfl, -⟩, -⟩ := hinner.shape_node
    have hsize : sizeOf ([t] ++ ([c] ++ more)) ≤ n := by
      simp at hn ⊢
      omega
    have he : (comprehension .generator s' ([t] ++ ([c] ++ more))).Ensures Fitting :=
      comprehension_fits hbelow hsize hinner.of_node.2.1 (by simp) ht
    rw [List.nil_append, List.append_nil, arguments, arguments]
    refine Except.Satisfies.bind he fun e he => ?_
    refine ⟨?_, List.forall_mem_singleton.mpr ⟨isArgument_of_isExpression he.1, he.2⟩⟩
    rw [Expr.argumentsOrdered_plain he.1]
    rfl
  · obtain ⟨_, _, rfl, ⟨_, ts, rfl, rfl, hts⟩, rfl⟩ := hlist
    rw [List.nil_append, List.append_nil] at hinner hn ⊢
    refine arguments_fit hbelow ts _ false hn hinner ?_
    refine Grammar.forall_of_shape_commaList hts fun us hus => ?_
    have hrule : ∀ {r : Rule}, r ≠ .callGenerator → Shape (.rule r) us →
        ∀ t ∈ us, t.rule ≠ .callGenerator := by
      rintro r hr ⟨t, rfl, ht⟩
      exact List.forall_mem_singleton.mpr (ht.rule_eq ▸ hr)
    rcases hus with hus | hus | hus | hus
    · exact hrule (by decide) hus
    · exact hrule (by decide) hus
    · exact hrule (by decide) hus
    · exact hrule (by decide) hus

theorem boundOf_fits {r : Rule} {ts : List (Tree Rule)} {a : Nat} (hn : ∀ t ∈ ts, sizeOf t ≤ n)
    (hts : IsBound r ts) (h : Laid source a z ts) :
    (boundOf ts).Ensures fun o => ∀ e ∈ o, Fitting e := by
  rcases hts with rfl | ⟨s, t, rfl⟩
  · rintro _ ⟨⟩
  · have hsize : sizeOf t < n := by
      have := hn _ (List.mem_singleton_self _)
      simp only [List.cons.sizeOf_spec, Tree.node.sizeOf_spec] at this
      omega
    refine Except.Satisfies.bind (hbelow t hsize _ _ h.of_node.2.1) fun e he => ?_
    rintro _ ⟨⟩
    exact he

/-- The bounds of a slice fit, and so does the slice. -/
theorem slice_fits {s : Span} {parts ts : List (Tree Rule)} {a : Nat} (hn : sizeOf parts ≤ n)
    (h : Laid source a z (.node .slice s parts :: ts)) :
    (bounds s none none none parts).Ensures (FitsAs Expr.isIndex) := by
  obtain ⟨lower, upper, step, m, m', rfl, ⟨hlower, hlaid⟩, ⟨hupper, hlaid'⟩, hstep, hlaid''⟩ :=
    slice_parts h
  have hsize : ∀ t ∈ lower ++ (upper ++ step), sizeOf t ≤ n := fun t ht =>
    Nat.le_trans (Nat.le_of_lt (List.sizeOf_lt_of_mem ht)) hn
  rw [List.forall_mem_append, List.forall_mem_append] at hsize
  rw [bounds_lower _ _ hlower]
  refine Except.Satisfies.bind (boundOf_fits hbelow hsize.1 hlower hlaid) fun l hl => ?_
  rw [bounds_upper _ _ _ hupper]
  refine Except.Satisfies.bind (boundOf_fits hbelow hsize.2.1 hupper hlaid') fun u hu => ?_
  rw [bounds_step _ _ _ hstep]
  refine Except.Satisfies.bind (boundOf_fits hbelow hsize.2.2 hstep hlaid'') fun t ht => ?_
  have hall : ∀ e ∈ l.toList ++ u.toList ++ t.toList, Fitting e := by
    simp only [List.forall_mem_append, Option.mem_toList]
    exact ⟨⟨hl, hu⟩, ht⟩
  exact ⟨rfl, Expr.allFit_iff.mpr ⟨fun e he => (hall e he).1, fun e he => (hall e he).2⟩⟩

theorem item_fits {t : Tree Rule} {ts : List (Tree Rule)} {a : Nat} (hn : sizeOf t ≤ n)
    (h : Laid source a z (t :: ts)) : (item t).Fits := by
  have hbetween : ∀ {c : Built Expr} (op : Infix), c.Ensures Fitting → (betweenOf c op).Fits := by
    intro c op hc
    cases op <;> first | exact hc | trivial
  unfold item
  split
  · next op s text =>
    cases op <;> first | exact List.forall_mem_nil _ | trivial
  · exact lambdaParams_fit h
  · exact hbetween _ trivial
  · next op s word condition word' =>
    obtain ⟨hsize, hinner⟩ := parts_laid hn h
    obtain ⟨-, hcondition, -, -⟩ := hinner.tail.of_cons
    exact hbetween _ (hbelow condition (by simp at hsize; omega) _ _ hcondition)
  · exact hbetween _ trivial
  · next s args => exact call_fits hbelow (parts_laid hn h).1 h
  · next s inner parts =>
    obtain ⟨hsize, hinner⟩ := parts_laid hn h
    exact slice_fits hbelow (by simp at hsize; omega) hinner
  · next s index _ =>
    obtain ⟨hsize, hinner⟩ := parts_laid hn h
    refine Except.Satisfies.imp (hbelow index (by simp at hsize; omega) _ _ hinner) fun e he => ?_
    exact ⟨isIndex_of_isExpression he.1, he.2⟩
  · next s parts =>
    obtain ⟨_, _, rfl, rfl, t, rfl, ht⟩ := h.shape_node
    obtain ⟨s', text, rfl⟩ := ht.leaf rfl
    have hword := Grammar.isWord_of_laid h.of_node.2.1
    simpa [Item.Fits, After.Fits, texts, String.join] using hword
  · exact literal_fits h
  · next s inner =>
    obtain ⟨hsize, hinner⟩ := parts_laid hn h
    have he := hbelow inner (by simp at hsize; omega) _ _ hinner
    exact display_fits he (fun _ => rfl) (fun _ hx => hx.1)
      fun _ hx => List.forall_mem_singleton.mpr hx.2
  · next s parts =>
    obtain ⟨hsize, hinner⟩ := parts_laid hn h
    exact display_fits (elements_fit hbelow parts _ hsize hinner) (fun _ => rfl)
      (fun es hes e he => (hes.2 e he).1) fun es hes e he => (hes.2 e he).2
  · next s parts =>
    obtain ⟨hsize, hinner⟩ := parts_laid hn h
    exact display_fits (elements_fit hbelow parts _ hsize hinner) (fun _ => rfl)
      (fun es hes e he => (hes.2 e he).1) fun es hes e he => (hes.2 e he).2
  · next s parts =>
    obtain ⟨hsize, hinner⟩ := parts_laid hn h
    refine display_fits (elements_fit hbelow parts _ hsize hinner) (fun _ => rfl) ?_
      fun es hes e he => (hes.2 e he).2
    intro es hes
    refine ⟨?_, fun e he => (hes.2 e he).1⟩
    rintro rfl
    exact set_ne_nil h (List.length_eq_zero_iff.mp hes.1.symm)
  · next s parts =>
    obtain ⟨hsize, hinner⟩ := parts_laid hn h
    refine display_fits (entries_fit hbelow parts _ hsize hinner) (fun _ => rfl)
      (fun es hes e he => ⟨(hes e he).1.1, (hes e he).2.1⟩) ?_
    intro es hes c hc
    obtain ⟨e, he, hc⟩ := List.mem_flatMap.mp hc
    simp only [List.mem_cons, List.not_mem_nil, or_false] at hc
    rcases hc with rfl | rfl
    · exact (hes e he).1.2
    · exact (hes e he).2.2
  · exact collecting_fits hbelow hn h rfl rfl
  · exact collecting_fits hbelow hn h rfl rfl
  · exact collecting_fits hbelow hn h rfl rfl
  · exact collecting_fits hbelow hn h rfl rfl
  · trivial

theorem items_fit (ts : List (Tree Rule)) :
    ∀ a, sizeOf ts ≤ n → Laid source a z ts → ∀ i ∈ items ts, i.Fits := by
  induction ts with
  | nil =>
    intro a _ _
    rw [items]
    exact List.forall_mem_nil _
  | cons t ts ih =>
    intro a hn hts
    rw [items]
    refine List.forall_mem_cons.mpr ⟨?_, ih _ (Nat.le_trans (by simp) hn) hts.tail⟩
    exact item_fits hbelow (Nat.le_trans (by simp; omega) hn) hts

end Parts

/-- **What is built of an expression fits.** -/
theorem expr_fits (t : Tree Rule) : TreeFits source t := by
  induction hn : sizeOf t using Nat.strongRecOn generalizing t with
  | ind n ih =>
    subst hn
    intro a z h
    unfold expr
    split
    · next s parts =>
      have hsize : sizeOf parts ≤ sizeOf (Tree.node Rule.expression s parts) := by
        simp
      exact resolve_fits
        (items_fit (fun t ht => ih _ ht t rfl) parts s.start hsize h.of_node.2.1)
    · trivial

theorem source_fits {a z : Nat} {t : Tree Rule} (h : Laid source a z [t]) :
    (Build.source t).Ensures (FitsAs Expr.isSource) := by
  unfold Build.source
  split
  · next s span r s' word inner more =>
    have hinner := h.of_node.2.1
    obtain ⟨_, _, heq, ⟨_, rfl, hword⟩, -⟩ := hinner.shape_node
    obtain ⟨s'', text, rfl⟩ := hword.leaf rfl
    cases heq
    have hfits := Grammar.statementWord_of_laid hinner.of_node.2.1
    exact ⟨rfl, Expr.allFit_iff.mpr ⟨hfits, List.forall_mem_nil _⟩⟩
  · next s span target r s' op value more =>
    obtain ⟨-, htarget, hvalue, -⟩ := h.of_node.2.1.of_node.2.1.of_cons
    refine Except.Satisfies.bind (expr_fits target _ _ htarget) fun t ht => ?_
    refine Except.Ensures.then fun op => ?_
    refine Except.Satisfies.bind (expr_fits value _ _ hvalue.tail) fun v hv => ?_
    refine ⟨rfl, Expr.allFit_iff.mpr ⟨⟨ht.1, hv.1⟩, ?_⟩⟩
    exact List.forall_mem_cons.mpr ⟨ht.2, List.forall_mem_singleton.mpr hv.2⟩
  · next s e more _ _ =>
    refine (expr_fits e _ _ h.of_node.2.1.of_cons.2.1).imp fun x hx => ⟨?_, hx.2⟩
    exact isSource_of_isExpression hx.1
  · trivial

end Build

/-- **What is parsed fits.** -/
theorem parseWith_fits {maxDepth : Nat} {source : String} {e : Expr}
    (h : parseWith maxDepth source = .ok e) : e.isSource = true ∧ e.AllFit := by
  simp only [parseWith, Except.bind_eq_ok_iff] at h
  obtain ⟨-, -, tree, hmatch, -, -, e', hbuild, h⟩ := h
  obtain ⟨z, hlaid⟩ := laid_of_matchSource hmatch
  have hfits := (Build.source_fits hlaid).of_ok hbuild
  split at h
  · cases h
  · cases h
    exact hfits

end SafeExpr
