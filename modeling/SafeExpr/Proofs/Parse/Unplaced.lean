/-
  SafeExpr/Proofs/Parse/Unplaced.lean
  ===================================
  **Where the nodes stand does not matter to what is built from them.**

  From two nodes with the same unplaced tree, the trees that are built differ in their spans
  alone, or nothing is built from either (`Build.source_same`).  Errors do say where something is wrong,
  so of two failures no more is said than that both are.
-/
import Mathlib.Data.List.Forall2
import SafeExpr.Parse.Basic
import SafeExpr.Proofs.Grammar.Nesting
import SafeExpr.Proofs.Parse.Limit
import SafeExpr.Proofs.Syntax.Unplaced

namespace SafeExpr

/-! ### Nodes of the grammar -/

namespace Tree

variable {R : Type}

mutual

/-- The node with all spans blanked. -/
def unplaced : Tree R → Tree R
  | .leaf r _ text => .leaf r default text
  | .node r _ ts => .node r default (unplacedAll ts)

def unplacedAll : List (Tree R) → List (Tree R)
  | [] => []
  | t :: ts => t.unplaced :: unplacedAll ts

end

@[simp] theorem unplacedAll_eq (ts : List (Tree R)) : unplacedAll ts = ts.map unplaced := by
  induction ts with
  | nil => rfl
  | cons t ts ih => rw [unplacedAll, ih, List.map_cons]

@[simp] theorem rule_unplaced (t : Tree R) : t.unplaced.rule = t.rule := by
  cases t <;> rfl

theorem children_unplaced (t : Tree R) : t.unplaced.children = t.children.map unplaced := by
  cases t with
  | leaf r s text => rfl
  | node r s ts => simp [unplaced, children]

@[simp] theorem unplaced_eq_leaf {t : Tree R} {r : R} {s : Span} {text : List Char} :
    t.unplaced = .leaf r s text ↔ s = default ∧ ∃ s', t = .leaf r s' text := by
  cases t <;> simp [unplaced, and_comm, and_assoc, eq_comm]

@[simp] theorem unplaced_eq_node {t : Tree R} {r : R} {s : Span} {us : List (Tree R)} :
    t.unplaced = .node r s us ↔
      s = default ∧ ∃ s' ts, t = .node r s' ts ∧ us = ts.map unplaced := by
  cases t <;> simp [unplaced, eq_comm, and_left_comm]

end Tree

mutual

theorem levels_unplaced (t : Tree Rule) : levels t.unplaced = levels t := by
  cases t with
  | leaf r s text => rw [Tree.unplaced, levels, levels]
  | node r s ts =>
    have hown : ownLevels r (ts.map Tree.unplaced) = ownLevels r ts := by
      cases r <;> simp [ownLevels, List.filter_map, Function.comp_def]
    rw [Tree.unplaced, levels, levels, levelsAll_unplaced ts, Tree.unplacedAll_eq, hown]

theorem levelsAll_unplaced (ts : List (Tree Rule)) :
    levelsAll (Tree.unplacedAll ts) = levelsAll ts := by
  cases ts with
  | nil => rfl
  | cons t ts =>
    rw [Tree.unplacedAll, levelsAll, levelsAll, levels_unplaced t, levelsAll_unplaced ts]

end

namespace Tree

mutual

/-- Without spans, as many nodes in brackets stand one in another. -/
theorem brackets_unplaced (above : Nat) (t : Tree Rule) :
    (t.unplaced.brackets above).map Prod.snd = (t.brackets above).map Prod.snd := by
  cases t with
  | leaf r s text =>
    rw [unplaced, brackets, brackets]
    split <;> rfl
  | node r s ts =>
    rw [unplaced, brackets, brackets]
    split
    · rw [List.map_cons, List.map_cons, bracketsAll_unplaced (above + 1) ts]
    · exact bracketsAll_unplaced above ts

theorem bracketsAll_unplaced (above : Nat) (ts : List (Tree Rule)) :
    (bracketsAll above (unplacedAll ts)).map Prod.snd = (bracketsAll above ts).map Prod.snd := by
  cases ts with
  | nil => rfl
  | cons t ts =>
    rw [unplacedAll, bracketsAll, bracketsAll, List.map_append, List.map_append,
      brackets_unplaced above t, bracketsAll_unplaced above ts]

end

end Tree

/-! ### Parts that are built -/

namespace Built

variable {α β γ δ : Type} {u : α → γ} {w : β → δ} {x y : Built α}

/-- Both parts are built, and `u` makes them equal, or neither is. -/
def Same (u : α → γ) (x y : Built α) : Prop := x.toOption.map u = y.toOption.map u

theorem Same.refl (u : α → γ) (x : Built α) : Same u x x := Eq.refl _

theorem Same.ok {a b : α} (h : u a = u b) : Same u (.ok a) (.ok b) := congrArg some h

theorem Same.error (u : α → γ) (e e' : ParseError) : Same u (.error e) (.error e') := Eq.refl _

theorem Same.bind {k l : α → Built β} (h : Same u x y)
    (hk : ∀ a b, u a = u b → Same w (k a) (l b)) : Same w (x >>= k) (y >>= l) := by
  cases x with
  | error e =>
    cases y with
    | error e' => exact .error w e e'
    | ok b => cases h
  | ok a =>
    cases y with
    | error e' => cases h
    | ok b => exact hk a b (Option.some.inj h)

theorem Same.map {f g : α → β} (h : Same u x y) (hf : ∀ a b, u a = u b → w (f a) = w (g b)) :
    Same w (x.map f) (y.map g) := by
  cases x with
  | error e =>
    cases y with
    | error e' => exact .error w e e'
    | ok b => cases h
  | ok a =>
    cases y with
    | error e' => cases h
    | ok b => exact .ok (hf a b (Option.some.inj h))

/-- A part, and those behind it. -/
theorem Same.cons {f g : α → β} {r r' : Built (List β)} (h : Same u x y)
    (hf : ∀ a b, u a = u b → w (f a) = w (g b)) (hr : Same (List.map w) r r') :
    Same (List.map w) (do
        let a ← x
        return f a :: (← r))
      (do
        let b ← y
        return g b :: (← r')) := by
  refine h.bind fun a b hab => hr.bind fun as bs hrest => .ok ?_
  rw [List.map_cons, List.map_cons, hf a b hab, hrest]

end Built

open Built (Same)
open SafeExpr.Expr (unplaced)

/-! ### Items -/

inductive SameBetween : Between → Between → Prop
  | plain (op : Between) : SameBetween op op
  | conditional {c c' : Built Expr} (h : Same unplaced c c') :
    SameBetween (.conditional c) (.conditional c')

inductive SameAfter : After → After → Prop
  | call {args args' : Built (List (Argument Expr))}
    (h : Same (List.map Argument.unplaced) args args') : SameAfter (.call args) (.call args')
  | subscript {i i' : Built Expr} (h : Same unplaced i i') :
    SameAfter (.subscript i) (.subscript i')
  | member (attr : String) : SameAfter (.member attr) (.member attr)

/-- The items differ in spans alone. -/
inductive SameItem : Item → Item → Prop
  | before {start start' : Nat} (op : Before) :
    SameItem (.before start op) (.before start' op)
  | operand {e e' : Built Expr} (h : Same unplaced e e') : SameItem (.operand e) (.operand e')
  | between {op op' : Between} (h : SameBetween op op') : SameItem (.between op) (.between op')
  | after {stop stop' : Nat} {op op' : After} (h : SameAfter op op') :
    SameItem (.after stop op) (.after stop' op')

inductive SameWaiting : Waiting → Waiting → Prop
  | before {start start' : Nat} (op : Before) :
    SameWaiting (.before start op) (.before start' op)
  | between {l l' : Built Expr} {op op' : Between} (hl : Same unplaced l l')
    (h : SameBetween op op') : SameWaiting (.between l op) (.between l' op')

namespace Expr

/-- What is without spans a chain of comparisons is one with them. -/
theorem unplaced_eq_compare {e : Expr} {s : Span} {first : Expr}
    {links : List (CompareOp × Expr)} (h : e.unplaced = .compare s first links) :
    ∃ s' first' links', e = .compare s' first' links' := by
  cases e with
  | compare s' first' links' => exact ⟨s', first', links', rfl⟩
  | _ => cases h

end Expr

theorem SameBetween.level_eq {op op' : Between} (h : SameBetween op op') :
    op.level = op'.level := by
  cases h <;> rfl

theorem SameBetween.isLeft_eq {op op' : Between} (h : SameBetween op op') :
    op.isLeft = op'.isLeft := by
  cases h <;> rfl

theorem Before.node_same {e e' : Expr} (start start' : Nat) (op : Before)
    (h : e.unplaced = e'.unplaced) :
    (op.node start e).unplaced = (op.node start' e').unplaced := by
  cases op <;> simp only [Before.node, unplaced, h]

theorem compare_same {l l' r r' : Expr} (op : CompareOp) (hl : l.unplaced = l'.unplaced)
    (hr : r.unplaced = r'.unplaced) :
    Same unplaced ((Between.compare op).node l r) ((Between.compare op).node l' r') := by
  by_cases hchain : ∃ s first links, l = .compare s first links
  · obtain ⟨s, first, links, rfl⟩ := hchain
    obtain ⟨s', first', links', rfl⟩ := Expr.unplaced_eq_compare hl.symm
    refine .ok ?_
    simp only [unplaced, Expr.unplacedLinks_eq, Expr.compare.injEq, true_and] at hl ⊢
    simp [hl.1, hl.2, hr]
  · have hchain' : ∀ s first links, l' ≠ .compare s first links := by
      rintro s first links rfl
      exact hchain (Expr.unplaced_eq_compare hl)
    have hnode : ∀ {l r : Expr}, (∀ s first links, l ≠ .compare s first links) →
        (Between.compare op).node l r =
          .ok (.compare (l.span.combine r.span) l [(op, r)]) := by
      intro l r hl
      simp only [Between.node]
    rw [hnode fun s first links heq => hchain ⟨s, first, links, heq⟩, hnode hchain']
    refine .ok ?_
    simp [unplaced, hl, hr]

theorem SameBetween.node {op op' : Between} {l l' r r' : Expr} (h : SameBetween op op')
    (hl : l.unplaced = l'.unplaced) (hr : r.unplaced = r'.unplaced) :
    Same unplaced (op.node l r) (op'.node l' r') := by
  have hconditional : ∀ {c c' : Built Expr}, Same unplaced c c' →
      Same unplaced ((Between.conditional c).node l r) ((Between.conditional c').node l' r') := by
    intro c c' hc
    refine hc.map fun a b hab => ?_
    simp only [unplaced, hab, hl, hr]
  cases h with
  | conditional hc => exact hconditional hc
  | plain =>
    cases op with
    | compare op => exact compare_same op hl hr
    | conditional c => exact hconditional (.refl _ c)
    | binary op | boolOp op | named =>
      refine .ok ?_
      simp only [unplaced, hl, hr]

theorem SameAfter.node {op op' : After} {e e' : Expr} {stop stop' : Nat} (h : SameAfter op op')
    (he : e.unplaced = e'.unplaced) : Same unplaced (op.node e stop) (op'.node e' stop') := by
  cases h with
  | call hargs =>
    refine hargs.map fun as bs hab => ?_
    simp only [unplaced, Expr.unplacedArgs_eq, he, hab]
  | subscript hi =>
    refine hi.map fun i j hij => ?_
    simp only [unplaced, he, hij]
  | member attr =>
    refine .ok ?_
    simp only [unplaced, he]

/-! ### Resolution -/

section Resolve

variable {ws ws' : List Waiting} {w w' : Waiting} {e e' : Built Expr}

theorem SameWaiting.binds_eq (h : SameWaiting w w') (next : Level) :
    w.binds next = w'.binds next := by
  cases h with
  | before op => rfl
  | between hl h => simp only [Waiting.binds, h.level_eq, h.isLeft_eq]

theorem SameWaiting.take (h : SameWaiting w w') (he : Same unplaced e e') :
    Same unplaced (w.take e) (w'.take e') := by
  cases h with
  | before op => exact he.map fun a b hab => op.node_same _ _ hab
  | between hl h =>
    exact hl.bind fun l l' hl => he.bind fun r r' hr => h.node hl hr

theorem settle_same (next : Level) (hws : List.Forall₂ SameWaiting ws ws')
    (he : Same unplaced e e') :
    List.Forall₂ SameWaiting (settle next ws e).1 (settle next ws' e').1 ∧
      Same unplaced (settle next ws e).2 (settle next ws' e').2 := by
  induction hws generalizing e e' with
  | nil => exact ⟨.nil, he⟩
  | cons hw hws ih =>
    simp only [settle, hw.binds_eq next]
    split
    · exact ih (hw.take he)
    · exact ⟨.cons hw hws, he⟩

theorem finish_same (hws : List.Forall₂ SameWaiting ws ws') (he : Same unplaced e e') :
    Same unplaced (finish ws e) (finish ws' e') := by
  induction hws generalizing e e' with
  | nil => exact he
  | cons hw hws ih => exact ih (hw.take he)

theorem next_same {is is' : List Item} (his : List.Forall₂ SameItem is is') :
    ∀ {ws ws'}, List.Forall₂ SameWaiting ws ws' →
      Same unplaced (operandNext ws is) (operandNext ws' is') ∧
      ∀ {e e'}, Same unplaced e e' →
        Same unplaced (operatorNext ws e is) (operatorNext ws' e' is') := by
  induction his with
  | nil =>
    intro ws ws' hws
    exact ⟨.error _ _ _, fun he => finish_same hws he⟩
  | cons hi his ih =>
    intro ws ws' hws
    cases hi with
    | before op =>
      exact ⟨(ih (.cons (.before op) hws)).1, fun _ => .error _ _ _⟩
    | operand he => exact ⟨(ih hws).2 he, fun _ => .error _ _ _⟩
    | between hop =>
      refine ⟨.error _ _ _, fun he => ?_⟩
      obtain ⟨hws', he'⟩ := settle_same (Between.level _) hws he
      simp only [operatorNext, ← hop.level_eq]
      exact (ih (.cons (.between he' hop) hws')).1
    | after hop =>
      refine ⟨.error _ _ _, fun he => ?_⟩
      obtain ⟨hws', he'⟩ := settle_same After.level hws he
      exact (ih hws').2 (he'.bind fun a b hab => hop.node hab)

/-- **Items that differ in spans alone resolve to trees that do.** -/
theorem resolve_same {is is' : List Item} (h : List.Forall₂ SameItem is is') :
    Same unplaced (resolve is) (resolve is') := (next_same h .nil).1

end Resolve

/-! ### Literals -/

/-- Where quoted text stands, and where an escape in it began, does not matter to what it
    reads as. -/
theorem decodeText_same (o : Option OpenEscape) (pos : Nat) (cs : List Char) :
    ∀ start pos', Same id (decodeText o pos cs)
      (decodeText (o.map fun x => { x with start }) pos' cs) := by
  fun_induction decodeText o pos cs with
  | case1 => exact fun _ _ => .refl id _
  | case2 => exact fun _ _ => .error id _ _
  | case3 o pos d rest hhex o' hfull c hc ih =>
    intro start pos'
    have hc' : (readNat? 16 (o.digits ++ [d])).bind charOfCode? = some c := hc
    have hfull' : (o.digits ++ [d]).length = o.width := hfull
    simp only [Option.map_some, decodeText, hhex, if_true, hfull', hc']
    exact (ih start (pos' + 1)).map fun a b hab => congrArg (c :: ·) hab
  | case4 o pos d rest hhex o' hfull hnone =>
    intro start pos'
    have hnone' : (readNat? 16 (o.digits ++ [d])).bind charOfCode? = none := hnone
    have hfull' : (o.digits ++ [d]).length = o.width := hfull
    simp only [Option.map_some, decodeText, hhex, if_true, hfull', hnone']
    exact .error id _ _
  | case5 o pos d rest hhex o' hmore ih =>
    intro start pos'
    have hmore' : ¬ (o.digits ++ [d]).length = o.width := hmore
    simp only [Option.map_some, decodeText, hhex, if_true, if_neg hmore']
    exact ih start (pos' + 1)
  | case6 o pos d rest hhex =>
    intro start pos'
    simp only [Option.map_some, decodeText, hhex]
    exact .error id _ _
  | case7 => exact fun _ _ => .refl id _
  | case8 pos c rest width hwidth ih =>
    intro start pos'
    simp only [Option.map_none, decodeText, hwidth]
    exact ih pos' (pos' + 2)
  | case9 pos c rest hnone ih =>
    intro start pos'
    simp only [Option.map_none, decodeText, hnone]
    exact (ih start _).map fun a b hab => congrArg (simpleEscape c ++ ·) hab
  | case10 pos c rest hlast hescape ih =>
    intro start pos'
    simp only [Option.map_none]
    rw [decodeText]
    · exact (ih start _).map fun a b hab => congrArg (c :: ·) hab
    · exact hlast
    · exact hescape

namespace Build

theorem literal_same (r : Rule) (s s' : Span) (text : List Char) :
    Same unplaced (literal r s text) (literal r s' text) := by
  unfold literal
  dsimp only
  split
  · split
    · exact .ok rfl
    · exact .error _ _ _
  · split
    · exact .ok rfl
    · exact .error _ _ _
  · have hread : Same id (readQuoted s.start text) (readQuoted s'.start text) :=
      (decodeText_same none _ _ s.start _).map fun a b hab => congrArg String.ofList hab
    refine hread.map fun a b hab => ?_
    cases hab
    rfl
  · exact .ok rfl
  · exact .ok rfl
  · exact .ok rfl
  · exact .error _ _ _

theorem texts_unplaced (ts : List (Tree Rule)) : texts (ts.map Tree.unplaced) = texts ts := by
  rw [texts, texts, List.filterMap_map]
  refine congrArg (List.filterMap · ts) (funext fun t => ?_)
  cases t <;> rfl

theorem lambdaParams_unplaced (ts : List (Tree Rule)) :
    lambdaParams (ts.map Tree.unplaced) = lambdaParams ts := by
  rcases ts with _ | ⟨_, _ | ⟨params, _ | _⟩⟩ <;>
    simp [lambdaParams, Tree.children_unplaced, texts_unplaced]

theorem betweenOf_same {c c' : Built Expr} (h : Same unplaced c c') (op : Infix) :
    SameBetween (betweenOf c op) (betweenOf c' op) := by
  cases op with
  | ternary => exact .conditional h
  | _ => exact .plain _

/-- Without spans a node has the same rule and as many children. -/
theorem node_of_unplaced {t : Tree Rule} {r : Rule} {s : Span} {us : List (Tree Rule)}
    (h : t.unplaced = .node r s us) :
    ∃ s' ts, t = .node r s' ts ∧ us = ts.map Tree.unplaced ∧ ts.length = us.length := by
  obtain ⟨-, s', ts, rfl, rfl⟩ := Tree.unplaced_eq_node.mp h
  exact ⟨s', ts, rfl, rfl, (List.length_map _).symm⟩

theorem one_of_unplaced {t : Tree Rule} {r : Rule} (h : ∃ s x, t.unplaced = .node r s [x]) :
    ∃ s x, t = .node r s [x] := by
  obtain ⟨_, _, h⟩ := h
  obtain ⟨s, ts, rfl, -, hlength⟩ := node_of_unplaced h
  obtain ⟨x, rfl⟩ := List.length_eq_one_iff.mp hlength
  exact ⟨s, x, rfl⟩

theorem two_of_unplaced {t : Tree Rule} {r : Rule} (h : ∃ s x y, t.unplaced = .node r s [x, y]) :
    ∃ s x y, t = .node r s [x, y] := by
  obtain ⟨_, _, _, h⟩ := h
  obtain ⟨s, ts, rfl, -, hlength⟩ := node_of_unplaced h
  obtain ⟨x, y, rfl⟩ := List.length_eq_two.mp hlength
  exact ⟨s, x, y, rfl⟩

/-! ### What is built -/

/-- Where the node stands does not matter to what is built of it. -/
def TreeSame (t : Tree Rule) : Prop := Same unplaced (expr t) (expr t.unplaced)

section Parts

variable {n : Nat} (hbelow : ∀ t : Tree Rule, sizeOf t < n → TreeSame t)
include hbelow

theorem elements_same (ts : List (Tree Rule)) : sizeOf ts ≤ n →
    Same (List.map unplaced) (elements ts) (elements (ts.map Tree.unplaced)) := by
  induction ts with
  | nil => exact fun _ => .ok rfl
  | cons t ts ih =>
    intro hn
    have hrest := ih (Nat.le_trans (by simp) hn)
    by_cases hstarred : ∃ s value, t = .node .starred s [value]
    · obtain ⟨s, value, rfl⟩ := hstarred
      have hvalue := hbelow value (by simp at hn; omega)
      simp only [elements, List.map_cons, Tree.unplaced, Tree.unplacedAll_eq, List.map_nil]
      refine hvalue.cons (fun a b hab => ?_) hrest
      simp only [unplaced, hab]
    · have hplain : ∀ {t : Tree Rule} {ts : List (Tree Rule)},
          (¬ ∃ s value, t = .node .starred s [value]) → elements (t :: ts) = do
            let e ← expr t
            return e :: (← elements ts) := by
        intro t ts h
        rw [elements]
        exact fun s value heq => h ⟨s, value, heq⟩
      rw [List.map_cons, hplain hstarred, hplain (mt one_of_unplaced hstarred)]
      exact (hbelow t (by simp at hn; omega)).cons (fun _ _ hab => hab) hrest

theorem entries_same (ts : List (Tree Rule)) : sizeOf ts ≤ n →
    Same (List.map fun e : Expr × Expr => (e.1.unplaced, e.2.unplaced)) (entries ts)
      (entries (ts.map Tree.unplaced)) := by
  induction ts with
  | nil => exact fun _ => .ok rfl
  | cons t ts ih =>
    intro hn
    have hrest := ih (Nat.le_trans (by simp) hn)
    by_cases hentry : ∃ s key value, t = .node .dictEntry s [key, value]
    · obtain ⟨s, key, value, rfl⟩ := hentry
      have hkey := hbelow key (by simp at hn; omega)
      have hvalue := hbelow value (by simp at hn; omega)
      simp only [entries, List.map_cons, Tree.unplaced, Tree.unplacedAll_eq, List.map_nil]
      refine hkey.bind fun k k' hk => hvalue.cons (fun v v' hv => ?_) hrest
      rw [hk, hv]
    · have hmalformed : ∀ {t : Tree Rule} {ts : List (Tree Rule)},
          (¬ ∃ s key value, t = .node .dictEntry s [key, value]) →
            entries (t :: ts) = .error malformed := by
        intro t ts h
        rw [entries]
        · intro heq
          cases heq
        · rintro s key value rest heq
          cases heq
          exact h ⟨s, key, value, rfl⟩
      rw [List.map_cons, hmalformed hentry, hmalformed (mt two_of_unplaced hentry)]
      exact .error _ _ _

theorem conditions_same (ts : List (Tree Rule)) : sizeOf ts ≤ n →
    Same (List.map unplaced) (conditions ts) (conditions (ts.map Tree.unplaced)) := by
  induction ts with
  | nil => exact fun _ => .ok rfl
  | cons t ts ih =>
    intro hn
    have hrest := ih (Nat.le_trans (by simp) hn)
    by_cases hif : ∃ s word test, t = .node .compIf s [word, test]
    · obtain ⟨s, word, test, rfl⟩ := hif
      have htest := hbelow test (by simp at hn; omega)
      simp only [conditions, List.map_cons, Tree.unplaced, Tree.unplacedAll_eq, List.map_nil]
      exact htest.cons (fun _ _ hab => hab) hrest
    · have hmalformed : ∀ {t : Tree Rule} {ts : List (Tree Rule)},
          (¬ ∃ s word test, t = .node .compIf s [word, test]) →
            conditions (t :: ts) = .error malformed := by
        intro t ts h
        rw [conditions]
        · intro heq
          cases heq
        · rintro s word test rest heq
          cases heq
          exact h ⟨s, word, test, rfl⟩
      rw [List.map_cons, hmalformed hif, hmalformed (mt two_of_unplaced hif)]
      exact .error _ _ _

theorem clauses_same (ts : List (Tree Rule)) : sizeOf ts ≤ n →
    Same (List.map Clause.unplaced) (clauses ts) (clauses (ts.map Tree.unplaced)) := by
  induction ts with
  | nil => exact fun _ => .ok rfl
  | cons t ts ih =>
    intro hn
    have hrest := ih (Nat.le_trans (by simp) hn)
    by_cases hfor : ∃ s word targets word' source tests,
        t = .node .compFor s (word :: targets :: word' :: source :: tests)
    · obtain ⟨s, word, targets, word', source, tests, rfl⟩ := hfor
      have hsource := hbelow source (by simp at hn; omega)
      have htests := conditions_same hbelow tests (by simp at hn; omega)
      simp only [clauses, List.map_cons, Tree.unplaced, Tree.unplacedAll_eq,
        Tree.children_unplaced, texts_unplaced]
      refine hsource.bind fun i i' hi => htests.bind fun cs cs' hcs =>
        hrest.bind fun rs rs' hrs => .ok ?_
      simp only [List.map_cons, Clause.unplaced, hi, hcs, hrs]
    · have hmalformed : ∀ {t : Tree Rule} {ts : List (Tree Rule)},
          (¬ ∃ s word targets word' source tests,
            t = .node .compFor s (word :: targets :: word' :: source :: tests)) →
              clauses (t :: ts) = .error malformed := by
        intro t ts h
        rw [clauses]
        · intro heq
          cases heq
        · rintro s word targets word' source tests rest heq
          cases heq
          exact h ⟨s, word, targets, word', source, tests, rfl⟩
      rw [List.map_cons, hmalformed hfor, hmalformed]
      · exact .error _ _ _
      · rintro ⟨s, a, b, c, d, us, h⟩
        obtain ⟨s', vs, rfl, hvs, -⟩ := node_of_unplaced h
        rcases vs with _ | ⟨a, _ | ⟨b, _ | ⟨c, _ | ⟨d, vs⟩⟩⟩⟩
        case cons.cons.cons.cons => exact hfor ⟨s', a, b, c, d, vs, rfl⟩
        all_goals cases hvs

theorem comprehension_same (kind : ComprehensionKind) (s : Span) (ts : List (Tree Rule))
    (hn : sizeOf ts ≤ n) : Same unplaced (comprehension kind s ts)
      (comprehension kind default (ts.map Tree.unplaced)) := by
  cases ts with
  | nil => exact .error _ _ _
  | cons t ts =>
    have hclauses := clauses_same hbelow ts (by simp at hn; omega)
    by_cases hentry : ∃ s key value, t = .node .dictEntry s [key, value]
    · obtain ⟨s', key, value, rfl⟩ := hentry
      have hkey := hbelow key (by simp at hn; omega)
      have hvalue := hbelow value (by simp at hn; omega)
      simp only [comprehension, List.map_cons, Tree.unplaced, Tree.unplacedAll_eq, List.map_nil]
      refine hkey.bind fun k k' hk => hvalue.bind fun v v' hv =>
        hclauses.bind fun cs cs' hcs => .ok ?_
      simp only [unplaced, Expr.unplacedOption_eq, Expr.unplacedClauses_eq, Option.map_some, hk,
        hv, hcs]
    · have hplain : ∀ {s : Span} {t : Tree Rule} {ts : List (Tree Rule)},
          (¬ ∃ s key value, t = .node .dictEntry s [key, value]) →
            comprehension kind s (t :: ts) = do
              let e ← expr t
              return .comprehension s kind e none (← clauses ts) := by
        intro s t ts h
        rw [comprehension]
        exact fun s key value heq => h ⟨s, key, value, heq⟩
      rw [List.map_cons, hplain hentry, hplain (mt two_of_unplaced hentry)]
      refine (hbelow t (by simp at hn; omega)).bind fun e e' he =>
        hclauses.bind fun cs cs' hcs => .ok ?_
      simp only [unplaced, Expr.unplacedOption_eq, Expr.unplacedClauses_eq, he, hcs,
        Option.map_none]

theorem bounds_same (s : Span) (ts : List (Tree Rule)) :
    ∀ {lower upper step lower' upper' step' : Option Expr}, sizeOf ts ≤ n →
      lower.map unplaced = lower'.map unplaced → upper.map unplaced = upper'.map unplaced →
      step.map unplaced = step'.map unplaced →
      Same unplaced (bounds s lower upper step ts)
        (bounds default lower' upper' step' (ts.map Tree.unplaced)) := by
  induction ts with
  | nil =>
    intro lower upper step lower' upper' step' _ hlower hupper hstep
    refine .ok ?_
    simp only [unplaced, Expr.unplacedOption_eq, hlower, hupper, hstep]
  | cons t ts ih =>
    intro lower upper step lower' upper' step' hn hlower hupper hstep
    have hts : sizeOf ts ≤ n := Nat.le_trans (by simp) hn
    by_cases hbound : ∃ r ∈ [Rule.sliceLower, .sliceUpper, .sliceStep], ∃ s u, t = .node r s [u]
    · obtain ⟨r, hr, s', u, rfl⟩ := hbound
      have hu := hbelow u (by simp at hn; omega)
      simp only [List.map_cons, Tree.unplaced, Tree.unplacedAll_eq, List.map_nil]
      simp only [List.mem_cons, List.not_mem_nil, or_false] at hr
      rcases hr with rfl | rfl | rfl
      · exact hu.bind fun a b hab => ih hts (congrArg some hab) hupper hstep
      · exact hu.bind fun a b hab => ih hts hlower (congrArg some hab) hstep
      · exact hu.bind fun a b hab => ih hts hlower hupper (congrArg some hab)
    · have hmalformed : ∀ {s : Span} {lower upper step : Option Expr} {t : Tree Rule}
          {ts : List (Tree Rule)},
          (∀ r ∈ [Rule.sliceLower, .sliceUpper, .sliceStep], ¬ ∃ s u, t = .node r s [u]) →
            bounds s lower upper step (t :: ts) = .error malformed := by
        intro s lower upper step t ts h
        rw [bounds]
        · intro heq
          cases heq
        all_goals
          rintro s u rest heq
          cases heq
          exact h _ (by decide) ⟨s, u, rfl⟩
      have hnone : ∀ r ∈ [Rule.sliceLower, .sliceUpper, .sliceStep],
          ¬ ∃ s u, t = .node r s [u] := fun r hr h => hbound ⟨r, hr, h⟩
      rw [List.map_cons, hmalformed hnone, hmalformed fun r hr => mt one_of_unplaced (hnone r hr)]
      exact .error _ _ _

/-- An argument that is not of a kind of its own is given by position. -/
structure IsPlain (t : Tree Rule) : Prop where
  generator : ¬ ∃ s ts, t = .node .callGenerator s ts
  keyword : ¬ ∃ s r s' name v, t = .node .keywordArg s [.leaf r s' name, v]
  double : ¬ ∃ s v, t = .node .doubleStarred s [v]
  starred : ¬ ∃ s v, t = .node .starred s [v]

omit hbelow in
theorem IsPlain.arguments_cons {t : Tree Rule} (h : IsPlain t) (seen : Bool)
    (ts : List (Tree Rule)) :
    arguments seen (t :: ts) =
      if seen then .error ⟨.positionalAfterKeyword, t.span⟩
      else do
        let e ← expr t
        return .positional e :: (← arguments seen ts) := by
  rw [arguments]
  · exact fun s ts heq => h.generator ⟨s, ts, heq⟩
  · exact fun s r s' name v heq => h.keyword ⟨s, r, s', name, v, heq⟩
  · exact fun s v heq => h.double ⟨s, v, heq⟩
  · exact fun s v heq => h.starred ⟨s, v, heq⟩

omit hbelow in
theorem IsPlain.unplaced {t : Tree Rule} (h : IsPlain t) : IsPlain t.unplaced where
  generator := by
    rintro ⟨s, ts, heq⟩
    obtain ⟨s', ts', rfl, -⟩ := node_of_unplaced heq
    exact h.generator ⟨s', ts', rfl⟩
  keyword := by
    rintro ⟨s, r, s', name, v, heq⟩
    obtain ⟨s₁, ts, rfl, hts, hlength⟩ := node_of_unplaced heq
    obtain ⟨x, v', rfl⟩ := List.length_eq_two.mp hlength
    simp only [List.map_cons, List.map_nil, List.cons.injEq, and_true] at hts
    obtain ⟨-, s₂, rfl⟩ := Tree.unplaced_eq_leaf.mp hts.1.symm
    exact h.keyword ⟨s₁, r, s₂, name, v', rfl⟩
  double := mt one_of_unplaced h.double
  starred := mt one_of_unplaced h.starred

omit hbelow in
theorem argument_kinds (t : Tree Rule) :
    (∃ s ts, t = .node .callGenerator s ts) ∨
    (∃ s r s' name v, t = .node .keywordArg s [.leaf r s' name, v]) ∨
    (∃ s v, t = .node .doubleStarred s [v]) ∨ (∃ s v, t = .node .starred s [v]) ∨ IsPlain t := by
  by_contra h
  simp only [not_or] at h
  exact h.2.2.2.2 ⟨h.1, h.2.1, h.2.2.1, h.2.2.2.1⟩

theorem arguments_same (ts : List (Tree Rule)) : ∀ seen, sizeOf ts ≤ n →
    Same (List.map Argument.unplaced) (arguments seen ts)
      (arguments seen (ts.map Tree.unplaced)) := by
  induction ts with
  | nil => exact fun _ _ => .ok rfl
  | cons t ts ih =>
    intro seen hn
    have hrest := fun seen => ih seen (Nat.le_trans (by simp) hn)
    rw [List.map_cons]
    rcases argument_kinds t with ⟨s, parts, rfl⟩ | ⟨s, r, s', name, value, rfl⟩ | ⟨s, value, rfl⟩ |
      ⟨s, value, rfl⟩ | hplain
    · have hinner := comprehension_same hbelow .generator s parts (by simp at hn; omega)
      simp only [arguments, Tree.unplaced, Tree.unplacedAll_eq]
      exact hinner.cons (fun a b hab => congrArg Argument.positional hab) (hrest seen)
    · have hvalue := hbelow value (by simp at hn; omega)
      simp only [arguments, Tree.unplaced, Tree.unplacedAll_eq, List.map_cons, List.map_nil]
      refine hvalue.cons (fun a b hab => ?_) (hrest true)
      simp only [Argument.unplaced, hab]
    · have hvalue := hbelow value (by simp at hn; omega)
      simp only [arguments, Tree.unplaced, Tree.unplacedAll_eq, List.map_cons, List.map_nil]
      refine hvalue.cons (fun a b hab => ?_) (hrest true)
      simp only [Argument.unplaced, Expr.unplaced, hab]
    · have hvalue := hbelow value (by simp at hn; omega)
      simp only [arguments, Tree.unplaced, Tree.unplacedAll_eq, List.map_cons, List.map_nil]
      refine hvalue.cons (fun a b hab => ?_) (hrest seen)
      simp only [Argument.unplaced, Expr.unplaced, hab]
    · rw [hplain.arguments_cons, hplain.unplaced.arguments_cons]
      cases seen with
      | true => exact .error _ _ _
      | false =>
        exact (hbelow t (by simp at hn; omega)).cons
          (fun a b hab => congrArg Argument.positional hab) (hrest false)

theorem item_same (t : Tree Rule) (hn : sizeOf t ≤ n) : SameItem (item t) (item t.unplaced) := by
  cases t with
  | leaf r s text =>
    cases r with
    | before op => exact .before _
    | between op => exact .between (.plain _)
    | _ => exact .operand (literal_same _ s default text)
  | node r s ts =>
    have hts : sizeOf ts < n := by simp at hn; omega
    have hcollected := fun kind => comprehension_same hbelow kind s ts (Nat.le_of_lt hts)
    have helements := elements_same hbelow ts (Nat.le_of_lt hts)
    cases r with
    | before op =>
      simp only [item, Tree.unplaced, Tree.unplacedAll_eq, lambdaParams_unplaced]
      exact .before _
    | between op =>
      rcases ts with _ | ⟨a, _ | ⟨condition, _ | ⟨c, _ | ⟨d, ts⟩⟩⟩⟩
      case cons.cons.cons.nil =>
        have hcondition := hbelow condition (by simp at hts; omega)
        exact .between (betweenOf_same hcondition op)
      all_goals exact .between (.plain _)
    | callOp =>
      simp only [item, Tree.unplaced, Tree.unplacedAll_eq]
      exact .after (.call (arguments_same hbelow ts false (Nat.le_of_lt hts)))
    | subscriptOp =>
      rcases ts with _ | ⟨index, _ | ⟨second, ts⟩⟩
      case nil => exact .operand (.error _ _ _)
      case cons.nil =>
        by_cases hslice : ∃ s parts, index = .node .slice s parts
        · obtain ⟨s', parts, rfl⟩ := hslice
          have hbounds : Same unplaced (bounds s' none none none parts)
              (bounds default none none none (parts.map Tree.unplaced)) :=
            bounds_same hbelow s' parts (by simp at hts; omega) rfl rfl rfl
          simp only [item, Tree.unplaced, Tree.unplacedAll_eq, List.map_cons, List.map_nil]
          exact .after (.subscript hbounds)
        · have hindex := hbelow index (by simp at hts; omega)
          have hplain : ∀ {s : Span} {t : Tree Rule}, (¬ ∃ s parts, t = .node .slice s parts) →
              item (.node .subscriptOp s [t]) = .after s.stop (.subscript (expr t)) := by
            intro s t h
            rw [item]
            exact fun s parts heq => h ⟨s, parts, heq⟩
          simp only [Tree.unplaced, Tree.unplacedAll_eq, List.map_cons, List.map_nil]
          rw [hplain hslice, hplain]
          · exact .after (.subscript hindex)
          · rintro ⟨s, parts, heq⟩
            obtain ⟨s', us, rfl, -⟩ := node_of_unplaced heq
            exact hslice ⟨s', us, rfl⟩
      case cons.cons =>
        have hmalformed : ∀ s (a b : Tree Rule) us,
            item (.node .subscriptOp s (a :: b :: us)) = .operand (.error malformed) := by
          intro s a b us
          cases a with
          | leaf r s' text => rfl
          | node r s' vs => cases r <;> rfl
        rw [Tree.unplaced, Tree.unplacedAll, Tree.unplacedAll, hmalformed, hmalformed]
        exact .operand (.error _ _ _)
    | memberOp =>
      simp only [item, Tree.unplaced, Tree.unplacedAll_eq, texts_unplaced]
      exact .after (.member _)
    | grouped =>
      rcases ts with _ | ⟨inner, _ | _⟩
      case cons.nil =>
        have hinner := hbelow inner (by simp at hts; omega)
        refine .operand (hinner.map fun a b hab => ?_)
        simp only [unplaced, hab]
      all_goals exact .operand (.error _ _ _)
    | tuple | list | set =>
      simp only [item, Tree.unplaced, Tree.unplacedAll_eq]
      refine .operand (helements.map fun a b hab => ?_)
      simp only [unplaced, Expr.unplacedAll_eq, hab]
    | dict =>
      have hentries := entries_same hbelow ts (Nat.le_of_lt hts)
      simp only [item, Tree.unplaced, Tree.unplacedAll_eq]
      refine .operand (hentries.map fun a b hab => ?_)
      simp only [unplaced, Expr.unplacedEntries_eq, hab]
    | generator | listComp | setComp | dictComp =>
      simp only [item, Tree.unplaced, Tree.unplacedAll_eq]
      exact .operand (hcollected _)
    | _ => exact .operand (.error _ _ _)

theorem items_same (ts : List (Tree Rule)) : sizeOf ts ≤ n →
    List.Forall₂ SameItem (items ts) (items (ts.map Tree.unplaced)) := by
  induction ts with
  | nil =>
    intro _
    rw [List.map_nil, items]
    exact .nil
  | cons t ts ih =>
    intro hn
    rw [List.map_cons, items, items]
    exact .cons (item_same hbelow t (by simp at hn; omega)) (ih (Nat.le_trans (by simp) hn))

end Parts

/-- **What is built of an expression does not depend on where its nodes stand.** -/
theorem expr_same (t : Tree Rule) : TreeSame t := by
  induction hn : sizeOf t using Nat.strongRecOn generalizing t with
  | ind n ih =>
    subst hn
    unfold TreeSame
    by_cases hexpr : ∃ s parts, t = .node .expression s parts
    · obtain ⟨s, parts, rfl⟩ := hexpr
      have hitems := items_same (n := sizeOf (Tree.node Rule.expression s parts))
        (fun t ht => ih _ ht t rfl) parts (by simp)
      simp only [expr, Tree.unplaced, Tree.unplacedAll_eq]
      exact resolve_same hitems
    · have hmalformed : ∀ {t : Tree Rule}, (¬ ∃ s parts, t = .node .expression s parts) →
          expr t = .error malformed := by
        intro t h
        rw [expr]
        exact fun s parts heq => h ⟨s, parts, heq⟩
      rw [hmalformed hexpr, hmalformed]
      · exact .error _ _ _
      · rintro ⟨s, parts, heq⟩
        obtain ⟨s', us, rfl, -⟩ := node_of_unplaced heq
        exact hexpr ⟨s', us, rfl⟩

theorem source_unplaced (t : Tree Rule) : Same unplaced (source t) (source t.unplaced) := by
  fun_cases source t with
  | case1 => exact .ok rfl
  | case2 span inner target r s op value rest =>
    simp only [source, Tree.unplaced, Tree.unplacedAll]
    refine (expr_same target).bind fun t t' ht => ?_
    refine (Same.refl id (assignOp op)).bind fun o o' ho => ?_
    refine (expr_same value).bind fun v v' hv => .ok ?_
    cases ho
    simp only [unplaced, ht, hv]
  | case3 span e rest hstatement hassignment =>
    have hstatement' : ∀ s r s' word us,
        e.unplaced ≠ .node .statement s (.leaf r s' word :: us) := by
      intro s r s' word us h
      obtain ⟨s₁, ts, rfl, hts, -⟩ := node_of_unplaced h
      obtain ⟨x, us', rfl, hx, -⟩ := List.map_eq_cons_iff.mp hts.symm
      obtain ⟨-, s₂, rfl⟩ := Tree.unplaced_eq_leaf.mp hx
      exact hstatement s₁ r s₂ word us' rfl
    have hassignment' : ∀ s target r s' op value,
        e.unplaced ≠ .node .assignment s [target, .leaf r s' op, value] := by
      intro s target r s' op value h
      obtain ⟨s₁, ts, rfl, hts, hlength⟩ := node_of_unplaced h
      obtain ⟨target', x, value', rfl⟩ := List.length_eq_three.mp hlength
      simp only [List.map_cons, List.map_nil, List.cons.injEq, and_true] at hts
      obtain ⟨-, s₂, rfl⟩ := Tree.unplaced_eq_leaf.mp hts.2.1.symm
      exact hassignment s₁ target' r s₂ op value' rfl
    rw [Tree.unplaced, Tree.unplacedAll, source]
    · exact expr_same e
    · exact hstatement'
    · exact hassignment'
  | case4 t hstatement hassignment hsource =>
    have hsource' : ∀ s e us, t.unplaced ≠ .node .source s (e :: us) := by
      intro s e us h
      obtain ⟨s', ts, rfl, hts, -⟩ := node_of_unplaced h
      obtain ⟨e', us', rfl, -, -⟩ := List.map_eq_cons_iff.mp hts.symm
      exact hsource s' e' us' rfl
    rw [source]
    · exact .error _ _ _
    · exact fun s s' r s'' word us vs => hsource' s _ vs
    · exact fun s s' target r s'' op value us => hsource' s _ us
    · exact hsource'

/-- **From nodes with the same unplaced tree the same is built, spans aside.** -/
theorem source_same {t t' : Tree Rule} (h : t'.unplaced = t.unplaced) :
    Same unplaced (source t) (source t') := by
  have hother := source_unplaced t'
  rw [h] at hother
  exact (source_unplaced t).trans hother.symm

end Build

end SafeExpr
