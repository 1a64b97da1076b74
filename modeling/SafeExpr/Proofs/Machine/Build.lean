/-
  SafeExpr/Proofs/Machine/Build.lean
  ==================================
  **Building trees on a machine.**

  The functions that build a tree from the matched nodes, with the three things in them that
  may stop the program: literals, reading by precedence, and operators of which no node can be
  made.  None of these happens with the nodes that the grammar leaves (`source_eq`).
-/
import SafeExpr.Proofs.Machine.Precedence
import SafeExpr.Proofs.Parse.Placed

namespace SafeExpr.Machine

open Build (beforeOf betweenOf lambdaParams parts_laid texts)
open Grammar (Laid Shape OfRule isSolid rulePattern)

/-! ### Definitions -/

/-- What a node makes of the operand behind it. -/
def before (t : Tree Rule) (e : Expr) : Reading Expr :=
  match t.rule with
  | .before op => return (beforeOf (lambdaParams t.children) op).node t.span.start e
  | _ => (panic .unreachable : Checked Expr)

mutual

/-- The tree of an expression node. -/
def expr : Tree Rule → Reading Expr
  | .node .expression _ parts => resolve (pieces parts)
  | _ => settled (.error malformed)

/-- The nodes of an expression, each with what is made of it in every place. -/
def pieces : List (Tree Rule) → List Piece
  | [] => []
  | t :: rest => ⟨t.rule, operand t, before t, between t, after t⟩ :: pieces rest

/-- What a node makes of the two operands around it. -/
def between : Tree Rule → Expr → Expr → Reading Expr
  | .node (.between .ternary) _ [_, condition, _], l, r => do
    let c ← expr condition
    return .conditional (l.span.combine r.span) c l r
  | t, l, r =>
    match t.rule with
    | .between op => settled ((betweenOf (.error malformed) op).node l r)
    | _ => (panic .unreachable : Checked Expr)

/-- What a node makes of the operand in front of it. -/
def after : Tree Rule → Expr → Reading Expr
  | .node .callOp span args, e => do
    let as ← arguments false args
    return .call ⟨e.span.start, span.stop⟩ e as
  | .node .subscriptOp span [.node .slice inner parts], e => do
    let i ← bounds inner none none none parts
    return .subscript ⟨e.span.start, span.stop⟩ e i
  | .node .subscriptOp span [index], e => do
    let i ← expr index
    return .subscript ⟨e.span.start, span.stop⟩ e i
  | .node .memberOp span parts, e =>
    return .member ⟨e.span.start, span.stop⟩ e (String.join (texts parts))
  | t, _ =>
    match t.rule with
    | .callOp | .subscriptOp | .memberOp => settled (.error malformed)
    | _ => (panic .unreachable : Checked Expr)

/-- The tree of an operand. -/
def operand : Tree Rule → Reading Expr
  | .leaf rule span text => literal rule span text
  | .node .grouped span [inner] => do return .paren span (← expr inner)
  | .node .tuple span parts => do return .tuple span (← elements parts)
  | .node .list span parts => do return .list span (← elements parts)
  | .node .set span parts => do return .set span (← elements parts)
  | .node .dict span parts => do return .dict span (← entries parts)
  | .node .generator span parts => comprehension .generator span parts
  | .node .listComp span parts => comprehension .list span parts
  | .node .setComp span parts => comprehension .set span parts
  | .node .dictComp span parts => comprehension .dict span parts
  | _ => settled (.error malformed)

def arguments (seenKeyword : Bool) : List (Tree Rule) → Reading (List (Argument Expr))
  | [] => return []
  | .node .callGenerator span parts :: rest => do
    let e ← comprehension .generator span parts
    return .positional e :: (← arguments seenKeyword rest)
  | .node .keywordArg span [.leaf _ _ name, value] :: rest => do
    let e ← expr value
    return .keyword span (String.ofList name) e :: (← arguments true rest)
  | .node .doubleStarred span [value] :: rest => do
    let e ← expr value
    return .positional (.starred span true e) :: (← arguments true rest)
  | .node .starred span [value] :: rest => do
    let e ← expr value
    return .positional (.starred span false e) :: (← arguments seenKeyword rest)
  | value :: rest =>
    if seenKeyword then throw ⟨.positionalAfterKeyword, value.span⟩
    else do
      let e ← expr value
      return .positional e :: (← arguments seenKeyword rest)

def bounds (span : Span) (lower upper step : Option Expr) : List (Tree Rule) → Reading Expr
  | [] => return .slice span lower upper step
  | .node .sliceLower _ [t] :: rest => do bounds span (some (← expr t)) upper step rest
  | .node .sliceUpper _ [t] :: rest => do bounds span lower (some (← expr t)) step rest
  | .node .sliceStep _ [t] :: rest => do bounds span lower upper (some (← expr t)) rest
  | _ => settled (.error malformed)

def elements : List (Tree Rule) → Reading (List Expr)
  | [] => return []
  | .node .starred span [value] :: rest => do
    let e ← expr value
    return .starred span false e :: (← elements rest)
  | t :: rest => do
    let e ← expr t
    return e :: (← elements rest)

def entries : List (Tree Rule) → Reading (List (Expr × Expr))
  | [] => return []
  | .node .dictEntry _ [key, value] :: rest => do
    let k ← expr key
    let v ← expr value
    return (k, v) :: (← entries rest)
  | _ => settled (.error malformed)

def comprehension (kind : ComprehensionKind) (span : Span) : List (Tree Rule) → Reading Expr
  | .node .dictEntry _ [key, value] :: rest => do
    let k ← expr key
    let v ← expr value
    return .comprehension span kind k (some v) (← clauses rest)
  | head :: rest => do
    let e ← expr head
    return .comprehension span kind e none (← clauses rest)
  | [] => settled (.error malformed)

def clauses : List (Tree Rule) → Reading (List (Clause Expr))
  | [] => return []
  | .node .compFor _ (_ :: targets :: _ :: source :: tests) :: rest => do
    let i ← expr source
    let cs ← conditions tests
    return ⟨texts targets.children, i, cs⟩ :: (← clauses rest)
  | _ => settled (.error malformed)

def conditions : List (Tree Rule) → Reading (List Expr)
  | [] => return []
  | .node .compIf _ [_, test] :: rest => do
    let e ← expr test
    return e :: (← conditions rest)
  | _ => settled (.error malformed)

end

/-- The tree of a whole source. -/
def source : Tree Rule → Reading Expr
  | .node .source _ (.node .statement span (.leaf _ _ word :: _) :: _) =>
    return .statement span (String.ofList word)
  | .node .source _ (.node .assignment span [target, .leaf _ _ op, value] :: _) => do
    let t ← expr target
    let op ← settled (Build.assignOp op)
    let v ← expr value
    return .assign span op t v
  | .node .source _ (e :: _) => expr e
  | _ => settled (.error malformed)

/-! ### What the grammar leaves -/

/-- The node with what is made of it in every place. -/
def piece (t : Tree Rule) : Piece := ⟨t.rule, operand t, before t, between t, after t⟩

theorem pieces_eq_map (ts : List (Tree Rule)) : pieces ts = ts.map piece := by
  induction ts with
  | nil => rfl
  | cons t ts ih =>
    rw [pieces, ih]
    rfl

/-- Between the brackets of a subscript there is one node. -/
theorem subscript_shape {parts : List (Tree Rule)} (h : Shape (rulePattern .subscriptOp) parts) :
    ∃ index, parts = [index] := by
  obtain ⟨_, _, rfl, ⟨_, _, rfl, rfl, hindex⟩, rfl⟩ := h
  rcases hindex with ⟨t, rfl, -⟩ | ⟨t, rfl, -⟩
  · exact ⟨t, rfl⟩
  · exact ⟨t, rfl⟩

variable {text : List Char}

/-- A display is built as its parts are. -/
theorem display_eq {α : Type} {m : Reading α} {m' : Built α} (make : α → Expr)
    (h : m = settled m') : (do return make (← m)) = settled (m'.map make) := by
  rw [h]
  exact settled_pure make m'

/-- A string token in memory is a quoted text. -/
theorem quoted_of_laid {a z : Nat} {s : Span} {cs : List Char} {ts : List (Tree Rule)}
    (hsize : byteLength text ≤ maxSize) (h : Laid text a z (.leaf .string s cs :: ts)) :
    Quoted s cs := by
  cases h with
  | @leaf a z r c d ts us hc hstart hread hrest =>
    obtain ⟨_, ⟨hq, -⟩, hpasses⟩ := Grammar.stringText_of_reads hread
    rename_i q body
    refine ⟨q, body, hq.utf8Size, hpasses.upTo_eq, ?_⟩
    rw [hpasses.upTo_eq]
    change c.pos + byteLength (q :: (body ++ [q])) ≤ maxSize
    rw [← hpasses.pos]
    exact Nat.le_trans (Grammar.in_of_reads hc hread).boundary.le_length hsize

/-! ### Parts of an expression -/

/-- The node of an expression is built without a panic. -/
def Settles (text : List Char) (t : Tree Rule) : Prop :=
  ∀ a z, Laid text a z [t] → expr t = settled (Build.expr t)

section Parts

variable {a z n : Nat} (hbelow : ∀ t, sizeOf t < n → Settles text t)
include hbelow

/-- The single node that some node encloses. -/
theorem inner_settles {r : Rule} {s : Span} {t : Tree Rule} {ts : List (Tree Rule)}
    (hn : sizeOf (Tree.node r s [t] :: ts) ≤ n) (h : Laid text a z (.node r s [t] :: ts)) :
    expr t = settled (Build.expr t) := by
  refine hbelow t ?_ _ _ h.of_node.2.1
  simp only [List.cons.sizeOf_spec, Tree.node.sizeOf_spec] at hn
  omega

/-- The first of some nodes, where it is an expression. -/
theorem first_settles {t : Tree Rule} {ts : List (Tree Rule)} (hn : sizeOf (t :: ts) ≤ n)
    (h : Laid text a z (t :: ts)) : expr t = settled (Build.expr t) := by
  refine hbelow t ?_ _ _ h.of_cons.2.1
  simp only [List.cons.sizeOf_spec] at hn
  omega

theorem elements_eq (ts : List (Tree Rule)) :
    ∀ a, sizeOf ts ≤ n → Laid text a z ts → elements ts = settled (Build.elements ts) := by
  induction ts with
  | nil =>
    intro a _ _
    rw [elements, Build.elements]
    rfl
  | cons t ts ih =>
    intro a hn hts
    have hrest := ih _ (Nat.le_trans (by simp) hn) hts.of_cons.2.2.1
    unfold Build.elements
    split
    · next heq => cases heq
    · next heq =>
      cases heq
      rw [elements, inner_settles hbelow hn hts, hrest]
      exact settled_bind fun e _ => settled_bind fun es _ => rfl
    · next hother heq =>
      cases heq
      rw [elements, first_settles hbelow hn hts, hrest]
      · exact settled_bind fun e _ => settled_bind fun es _ => rfl
      · exact hother

/-- A key and a value. -/
theorem entry_settles {s : Span} {key value : Tree Rule} {ts : List (Tree Rule)}
    (hn : sizeOf (Tree.node .dictEntry s [key, value] :: ts) ≤ n)
    (h : Laid text a z (.node .dictEntry s [key, value] :: ts)) :
    expr key = settled (Build.expr key) ∧ expr value = settled (Build.expr value) := by
  have hinner := h.of_node.2.1
  have hsize : sizeOf [key, value] ≤ n := by
    simp only [List.cons.sizeOf_spec, Tree.node.sizeOf_spec] at hn ⊢
    omega
  refine ⟨first_settles hbelow hsize hinner, hbelow value ?_ _ _ hinner.of_cons.2.2.1⟩
  simp only [List.cons.sizeOf_spec] at hsize
  omega

theorem entries_eq (ts : List (Tree Rule)) :
    ∀ a, sizeOf ts ≤ n → Laid text a z ts → entries ts = settled (Build.entries ts) := by
  induction ts with
  | nil =>
    intro a _ _
    rw [entries, Build.entries]
    rfl
  | cons t ts ih =>
    intro a hn hts
    have hrest := ih _ (Nat.le_trans (by simp) hn) hts.of_cons.2.2.1
    unfold Build.entries
    split
    · next heq => cases heq
    · next heq =>
      cases heq
      obtain ⟨hkey, hvalue⟩ := entry_settles hbelow hn hts
      rw [entries, hkey, hvalue, hrest]
      exact settled_bind fun k _ => settled_bind fun v _ => settled_bind fun es _ => rfl
    · next hnil hother =>
      rw [entries]
      · exact hnil
      · exact hother

theorem conditions_eq (ts : List (Tree Rule)) :
    ∀ a, sizeOf ts ≤ n → Laid text a z ts → conditions ts = settled (Build.conditions ts) := by
  induction ts with
  | nil =>
    intro a _ _
    rw [conditions, Build.conditions]
    rfl
  | cons t ts ih =>
    intro a hn hts
    have hrest := ih _ (Nat.le_trans (by simp) hn) hts.of_cons.2.2.1
    unfold Build.conditions
    split
    · next heq => cases heq
    · next s word test rest heq =>
      cases heq
      have hsize : sizeOf test < n := by
        simp only [List.cons.sizeOf_spec, Tree.node.sizeOf_spec] at hn
        omega
      rw [conditions, hbelow test hsize _ _ hts.of_node.2.1.tail, hrest]
      exact settled_bind fun e _ => settled_bind fun es _ => rfl
    · next hnil hother =>
      rw [conditions]
      · exact hnil
      · exact hother

theorem clauses_eq (ts : List (Tree Rule)) :
    ∀ a, sizeOf ts ≤ n → Laid text a z ts → clauses ts = settled (Build.clauses ts) := by
  induction ts with
  | nil =>
    intro a _ _
    rw [clauses, Build.clauses]
    rfl
  | cons t ts ih =>
    intro a hn hts
    have hrest := ih _ (Nat.le_trans (by simp) hn) hts.of_cons.2.2.1
    unfold Build.clauses
    split
    · next heq => cases heq
    · next s word targets word' iter tests rest heq =>
      cases heq
      have hsize : sizeOf (iter :: tests) ≤ n := by
        simp only [List.cons.sizeOf_spec, Tree.node.sizeOf_spec] at hn ⊢
        omega
      have hparts := hts.of_node.2.1.tail.tail.tail
      rw [clauses, first_settles hbelow hsize hparts,
        conditions_eq hbelow tests _ (Nat.le_trans (by simp) hsize) hparts.of_cons.2.2.1, hrest]
      exact settled_bind fun i _ => settled_bind fun cs _ => settled_bind fun es _ => rfl
    · next hnil hother =>
      rw [clauses]
      · exact hnil
      · exact hother

theorem comprehension_eq (kind : ComprehensionKind) (s : Span) {ts : List (Tree Rule)}
    (hn : sizeOf ts ≤ n) (h : Laid text a z ts) :
    comprehension kind s ts = settled (Build.comprehension kind s ts) := by
  unfold Build.comprehension
  split
  · next s' key value rest =>
    obtain ⟨hkey, hvalue⟩ := entry_settles hbelow hn h
    rw [comprehension, hkey, hvalue,
      clauses_eq hbelow rest _ (Nat.le_trans (by simp) hn) h.of_cons.2.2.1]
    exact settled_bind fun k _ => settled_bind fun v _ => settled_bind fun cs _ => rfl
  · next head rest hother =>
    rw [comprehension, first_settles hbelow hn h,
      clauses_eq hbelow rest _ (Nat.le_trans (by simp) hn) h.of_cons.2.2.1]
    · exact settled_bind fun e _ => settled_bind fun cs _ => rfl
    · exact hother
  · rw [comprehension]

theorem arguments_eq (ts : List (Tree Rule)) :
    ∀ a seenKeyword, sizeOf ts ≤ n → Laid text a z ts →
      arguments seenKeyword ts = settled (Build.arguments seenKeyword ts) := by
  induction ts with
  | nil =>
    intro a seenKeyword _ _
    rw [arguments, Build.arguments]
    rfl
  | cons t ts ih =>
    intro a seenKeyword hn hts
    have hrest := fun b => ih _ b (Nat.le_trans (by simp) hn) hts.of_cons.2.2.1
    unfold Build.arguments
    split
    · next heq => cases heq
    · next s parts rest heq =>
      cases heq
      have hsize : sizeOf parts ≤ n := by
        simp only [List.cons.sizeOf_spec, Tree.node.sizeOf_spec] at hn
        omega
      rw [arguments, comprehension_eq hbelow _ s hsize hts.of_node.2.1, hrest]
      exact settled_bind fun e _ => settled_bind fun as _ => rfl
    · next s r s' name value rest heq =>
      cases heq
      have hsize : sizeOf value < n := by
        simp only [List.cons.sizeOf_spec, Tree.node.sizeOf_spec] at hn
        omega
      rw [arguments, hbelow value hsize _ _ hts.of_node.2.1.tail, hrest]
      exact settled_bind fun e _ => settled_bind fun as _ => rfl
    · next heq =>
      cases heq
      rw [arguments, inner_settles hbelow hn hts, hrest]
      exact settled_bind fun e _ => settled_bind fun as _ => rfl
    · next heq =>
      cases heq
      rw [arguments, inner_settles hbelow hn hts, hrest]
      exact settled_bind fun e _ => settled_bind fun as _ => rfl
    · next hgenerator hkeyword hdouble hstarred heq =>
      cases heq
      rw [arguments, first_settles hbelow hn hts, hrest]
      · cases seenKeyword with
        | true => rfl
        | false => exact settled_bind fun e _ => settled_bind fun as _ => rfl
      · exact hgenerator
      · exact hkeyword
      · exact hdouble
      · exact hstarred

theorem bounds_eq (s : Span) (ts : List (Tree Rule)) :
    ∀ a lower upper step, sizeOf ts ≤ n → Laid text a z ts →
      bounds s lower upper step ts = settled (Build.bounds s lower upper step ts) := by
  induction ts with
  | nil =>
    intro a lower upper step _ _
    rw [bounds, Build.bounds]
    rfl
  | cons t ts ih =>
    intro a lower upper step hn hts
    have hrest := fun l u st => ih _ l u st (Nat.le_trans (by simp) hn) hts.of_cons.2.2.1
    unfold Build.bounds
    split
    · next heq => cases heq
    · next heq =>
      cases heq
      rw [bounds, inner_settles hbelow hn hts]
      exact settled_bind fun e _ => hrest _ _ _
    · next heq =>
      cases heq
      rw [bounds, inner_settles hbelow hn hts]
      exact settled_bind fun e _ => hrest _ _ _
    · next heq =>
      cases heq
      rw [bounds, inner_settles hbelow hn hts]
      exact settled_bind fun e _ => hrest _ _ _
    · next hnil hlower hupper hstep =>
      rw [bounds]
      · exact hnil
      · exact hlower
      · exact hupper
      · exact hstep

/-- **A node is read as the item that it stands for.** -/
theorem piece_readAs {t : Tree Rule} {ts : List (Tree Rule)} (hsize : byteLength text ≤ maxSize)
    (hn : sizeOf t ≤ n) (h : Laid text a z (t :: ts)) (ht : OfRule t.rule t) :
    (piece t).ReadAs (Build.item t) := by
  have hcomprehension : ∀ {r s parts} kind, t = .node r s parts →
      comprehension kind s parts = settled (Build.comprehension kind s parts) := by
    rintro r s parts kind rfl
    obtain ⟨hparts, hinner⟩ := parts_laid hn h
    exact comprehension_eq hbelow kind s hparts hinner
  have helements : ∀ {r s parts}, t = .node r s parts →
      elements parts = settled (Build.elements parts) := by
    rintro r s parts rfl
    obtain ⟨hparts, hinner⟩ := parts_laid hn h
    exact elements_eq hbelow parts _ hparts hinner
  unfold Build.item
  split
  · next op s cs => exact .before (affix?_before [] op) fun e => rfl
  · next op s parts => exact .before (affix?_before _ op) fun e => rfl
  · next op s cs =>
    refine .between (affix?_between _ op) fun l r => ?_
    change between (.leaf (.between op) s cs) l r = _
    rw [between]
    · rfl
    · intro s w c w' heq
      cases heq
  · next op s word condition word' =>
    obtain ⟨hparts, hinner⟩ := parts_laid hn h
    have hcondition := hbelow condition (by simp at hparts; omega) _ _ hinner.tail.of_cons.2.1
    refine .between (affix?_between _ op) fun l r => ?_
    cases op with
    | ternary => 
      change between (.node (.between .ternary) s [word, condition, word']) l r = _
      rw [between]
      exact display_eq _ hcondition
    | _ => rfl
  · next op s parts hparts =>
    refine .between (affix?_between _ op) fun l r => ?_
    change between (.node (.between op) s parts) l r = _
    rw [between]
    · rfl
    · intro s' w c w' heq
      cases heq
      exact hparts _ _ _ rfl
  · next s args =>
    obtain ⟨hparts, hinner⟩ := parts_laid hn h
    refine .after rfl fun e => ?_
    change after (.node .callOp s args) e = _
    rw [after]
    exact display_eq _ (arguments_eq hbelow args _ false hparts hinner)
  · next s s' parts =>
    obtain ⟨hparts, hinner⟩ := parts_laid hn h
    have hbounds := bounds_eq hbelow s' parts _ none none none (by simp at hparts; omega)
      hinner.of_node.2.1
    refine .after rfl fun e => ?_
    change after (.node .subscriptOp s [.node .slice s' parts]) e = _
    rw [after]
    exact display_eq _ hbounds
  · next s index hslice =>
    obtain ⟨hparts, hinner⟩ := parts_laid hn h
    have hindex := hbelow index (by simp at hparts; omega) _ _ hinner
    refine .after rfl fun e => ?_
    change after (.node .subscriptOp s [index]) e = _
    rw [after]
    · exact display_eq _ hindex
    · exact hslice
  · next s parts => exact .after rfl fun e => rfl
  · next r s cs hbefore hbetween =>
    have hnone : affix? r = none := by
      refine affix?_eq_none fun hr => ?_
      have hsolid : isSolid r = true := by
        cases hs : isSolid r with
        | true => rfl
        | false =>
          obtain ⟨s', parts, heq⟩ := OfRule.node ht hs
          cases heq
      unfold Rule.isOperator at hr
      split at hr
      · exact hbefore _ rfl
      · exact hbetween _ rfl
      · cases hsolid
      · cases hsolid
      · cases hsolid
      · cases hr
    refine .operand hnone (literal_eq ?_)
    rintro rfl
    exact quoted_of_laid hsize h
  · next s inner =>
    obtain ⟨hparts, hinner⟩ := parts_laid hn h
    exact .operand rfl (display_eq _ (hbelow inner (by simp at hparts; omega) _ _ hinner))
  · exact .operand rfl (display_eq _ (helements rfl))
  · exact .operand rfl (display_eq _ (helements rfl))
  · exact .operand rfl (display_eq _ (helements rfl))
  · next s parts =>
    obtain ⟨hparts, hinner⟩ := parts_laid hn h
    exact .operand rfl (display_eq _ (entries_eq hbelow parts _ hparts hinner))
  · exact .operand rfl (hcomprehension .generator rfl)
  · exact .operand rfl (hcomprehension .list rfl)
  · exact .operand rfl (hcomprehension .set rfl)
  · exact .operand rfl (hcomprehension .dict rfl)
  · next _ _ hbefore _ _ hbetween hcall _ hindex hmember hleaf _ _ _ _ _ _ _ _ _ =>
    refine .operand (affix?_eq_none fun hr => ?_) ?_
    · change t.rule.isOperator = true at hr
      cases t with
      | leaf r s cs => exact hleaf _ _ _ rfl
      | node r s parts =>
        change r.isOperator = true at hr
        unfold Rule.isOperator at hr
        split at hr
        · exact hbefore _ _ _ rfl
        · exact hbetween _ _ _ rfl
        · exact hcall _ _ rfl
        · obtain ⟨index, rfl⟩ := subscript_shape h.shape_node
          exact hindex _ _ rfl
        · exact hmember _ _ rfl
        · cases hr
    · change operand t = _
      rw [operand] <;> assumption

theorem pieces_readAs (hsize : byteLength text ≤ maxSize) (ts : List (Tree Rule)) :
    ∀ a, sizeOf ts ≤ n → Laid text a z ts → (∀ t ∈ ts, OfRule t.rule t) →
      List.Forall₂ Piece.ReadAs (pieces ts) (Build.items ts) := by
  induction ts with
  | nil =>
    intro a _ _ _
    rw [pieces, Build.items]
    exact .nil
  | cons t ts ih =>
    intro a hn hts hrules
    obtain ⟨ht, hrest⟩ := List.forall_mem_cons.mp hrules
    rw [pieces, Build.items]
    exact .cons (piece_readAs hbelow hsize (Nat.le_trans (by simp; omega) hn) hts ht)
      (ih _ (Nat.le_trans (by simp) hn) hts.of_cons.2.2.1 hrest)

end Parts

/-- **The tree of an expression is built without a panic.** -/
theorem expr_settles (hsize : byteLength text ≤ maxSize) (t : Tree Rule) : Settles text t := by
  induction hn : sizeOf t using Nat.strongRecOn generalizing t with
  | ind n ih =>
    subst hn
    intro a z h
    unfold Build.expr
    split
    · next s parts =>
      have hfirst := (operandFirst_expression h.shape_node).1
      have hpieces := pieces_readAs (fun t ht => ih _ ht t rfl) hsize parts s.start (by simp)
        h.of_node.2.1 h.shape_node.ofRule
      have hmap : (pieces parts).map Piece.rule = parts.map Tree.rule := by
        rw [pieces_eq_map, List.map_map]
        rfl
      rw [expr]
      exact resolve_eq hpieces (hmap ▸ hfirst)
    · next hother =>
      rw [expr]
      exact hother

/-- **The tree of a whole text is built without a panic.** -/
theorem source_eq (hsize : byteLength text ≤ maxSize) {t : Tree Rule} {a z : Nat}
    (h : Laid text a z [t]) : source t = settled (Build.source t) := by
  unfold Build.source
  split
  · rw [source]
    rfl
  · next s s' target r s'' op value more =>
    have hparts := h.of_node.2.1.of_node.2.1
    have htarget := expr_settles hsize target _ _ hparts.of_cons.2.1
    have hvalue := expr_settles hsize value _ _ hparts.of_cons.2.2.1.of_cons.2.2.1
    rw [source, htarget, hvalue]
    exact settled_bind fun t _ => settled_bind fun op _ => settled_bind fun v _ => rfl
  · next s e more hstatement hassignment =>
    rw [source, expr_settles hsize e _ _ h.of_node.2.1.of_cons.2.1]
    · exact hstatement
    · exact hassignment
  · rw [source] <;> assumption

end SafeExpr.Machine
