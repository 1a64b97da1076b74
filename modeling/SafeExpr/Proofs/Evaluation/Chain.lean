/-
  SafeExpr/Proofs/Evaluation/Chain.lean
  =====================================
  **Chained comparisons are conjunctions of their links.**

  A chain is evaluated by one loop that carries the operand before; a conjunction evaluates the
  operands of each link anew, and every link is a node of its own.  They come to the same value
  or the same error (`chain_is_conjunction`), for a chain of any length.  The loop evaluates each
  operand once at most, and just those that are due: whether one is depends on the links before
  it (`Due`).

  Both are compared with what the links come to if every operand has the result that it has by
  itself (`chainResult`), since without limits it has this result everywhere.
-/
import Mathlib.Data.List.TakeDrop
import SafeExpr.Proofs.Check.Checked
import SafeExpr.Proofs.Evaluation.Unlimited
import SafeExpr.Proofs.Syntax.Size

namespace SafeExpr.Eval

/-! ### Chains and conjunctions -/

/-- The operands of a chain, in order. -/
def operands (first : Expr) (links : List (CompareOp × Expr)) : List Expr :=
  first :: links.map Prod.snd

/-- The operand at the end of a chain. -/
def lastOperand (first : Expr) (links : List (CompareOp × Expr)) : Expr :=
  (links.map Prod.snd).getLastD first

/-- The tree is the conjunction of the links of a chain, each as a comparison of its own, nested
    to the left. -/
inductive Conjunction (first : Expr) : List (CompareOp × Expr) → Expr → Prop
  | link (span : Span) (op : CompareOp) (right : Expr) :
    Conjunction first [(op, right)] (.compare span first [(op, right)])
  | and {links : List (CompareOp × Expr)} {left : Expr} (h : Conjunction first links left)
    (span inner : Span) (op : CompareOp) (right : Expr) :
    Conjunction first (links ++ [(op, right)])
      (.boolOp span .and left (.compare inner (lastOperand first links) [(op, right)]))

theorem operands_append (first : Expr) (links : List (CompareOp × Expr))
    (link : CompareOp × Expr) :
    operands first (links ++ [link]) = operands first links ++ [link.2] := by
  simp [operands]

/-- The operands lie deeper in the conjunction than in the chain. -/
theorem Conjunction.depth_le {first c : Expr} {links : List (CompareOp × Expr)}
    (h : Conjunction first links c) (span : Span) :
    (Expr.compare span first links).depth ≤ c.depth := by
  suffices hoperands : ∀ x ∈ operands first links, x.depth + 1 ≤ c.depth by
    have hchildren : (Expr.compare span first links).children = operands first links := rfl
    have hfirst := hoperands first List.mem_cons_self
    rw [Expr.depth_eq, hchildren]
    suffices hmax : ((operands first links).map Expr.depth).foldr max 0 ≤ c.depth - 1 by omega
    rw [foldr_max_le_iff, List.forall_mem_map]
    intro x hx
    have := hoperands x hx
    omega
  induction h with
  | link inner op right => exact fun x hx => Expr.depth_child_lt hx
  | @and links left _ outer inner op right ih =>
    intro x hx
    rw [operands_append] at hx
    rcases List.mem_append.mp hx with hx | hx
    · have hleft : left ∈ (Expr.boolOp outer .and left
          (.compare inner (lastOperand first links) [(op, right)])).children := List.mem_cons_self
      have := Expr.depth_child_lt hleft
      have := ih x hx
      omega
    · cases List.mem_singleton.mp hx
      have hlink : right ∈ (Expr.compare inner (lastOperand first links) [(op, right)]).children :=
        List.mem_cons_of_mem _ List.mem_cons_self
      have hright : Expr.compare inner (lastOperand first links) [(op, right)] ∈
          (Expr.boolOp outer .and left
            (.compare inner (lastOperand first links) [(op, right)])).children :=
        List.mem_cons_of_mem _ List.mem_cons_self
      have hinner := Expr.depth_child_lt hlink
      have houter := Expr.depth_child_lt hright
      exact Nat.le_trans hinner (Nat.le_of_succ_le houter)

/-! ### What a chain comes to -/

section Results

/- What each operand comes to by itself. -/
variable (results : Expr → Except EvalError Value)

/-- What a chain comes to, given what each operand comes to by itself. -/
def chainResult (first : Expr) : List (CompareOp × Expr) → Except EvalError Value
  | [] => do
    let _ ← results first
    return .bool true
  | (op, e) :: rest => do
    let l ← results first
    let r ← results e
    let holds ← (Operators.compare op l r).mapError (.ofOperator e.span)
    if holds then chainResult e rest else return .bool false

variable {results}

theorem lastOperand_cons (first e : Expr) (op : CompareOp) (links : List (CompareOp × Expr)) :
    lastOperand first ((op, e) :: links) = lastOperand e links := by
  rw [lastOperand, lastOperand, List.map_cons, List.getLastD_cons]

theorem chainResult_cons_ok {first e : Expr} {l r : Value} (hfirst : results first = .ok l)
    (he : results e = .ok r) (op : CompareOp) (rest : List (CompareOp × Expr)) :
    chainResult results first ((op, e) :: rest) =
      ((Operators.compare op l r).mapError (.ofOperator e.span) >>= fun holds =>
        if holds then chainResult results e rest else .ok (.bool false)) := by
  rw [chainResult, hfirst, he]
  rfl

/-- The last link counts if the chain in front of it is true. -/
theorem chainResult_append (first : Expr) (links : List (CompareOp × Expr))
    (link : CompareOp × Expr) :
    chainResult results first (links ++ [link]) =
      (chainResult results first links >>= fun v =>
        if v.truthy then chainResult results (lastOperand first links) [link] else .ok v) := by
  induction links generalizing first with
  | nil =>
    have hlast : lastOperand first [] = first := rfl
    rw [List.nil_append, chainResult, hlast]
    cases hfirst : results first with
    | error err =>
      obtain ⟨op, e⟩ := link
      rw [chainResult, hfirst]
      rfl
    | ok l => rfl
  | cons p rest ih =>
    rw [lastOperand_cons, List.cons_append, chainResult, chainResult]
    simp only [bind_assoc]
    refine bind_congr fun l => bind_congr fun r => bind_congr fun holds => ?_
    cases holds with
    | false => rfl
    | true => exact ih p.2

/-! ### Which operands are due -/

/-- The link at a place of the chain is true. -/
def LinkHolds (results : Expr → Except EvalError Value) (first : Expr)
    (links : List (CompareOp × Expr)) (i : Nat) : Prop :=
  ∃ x ∈ (operands first links)[i]?, ∃ link ∈ links[i]?, ∃ a b,
    results x = .ok a ∧ results link.2 = .ok b ∧ Operators.compare link.1 a b = .ok true

/-- The operand at a place is due: it is the first, or the first has a value and all links in
    front of the operand's own are true. -/
def Due (results : Expr → Except EvalError Value) (first : Expr)
    (links : List (CompareOp × Expr)) (i : Nat) : Prop :=
  (0 < i → ∃ l, results first = .ok l) ∧ ∀ j, j + 1 < i → LinkHolds results first links j

theorem linkHolds_cons_succ {first e : Expr} {op : CompareOp}
    {links : List (CompareOp × Expr)} {i : Nat} :
    LinkHolds results first ((op, e) :: links) (i + 1) ↔ LinkHolds results e links i := by
  simp [LinkHolds, operands]

theorem linkHolds_cons_zero {first e : Expr} {op : CompareOp} {links : List (CompareOp × Expr)} :
    LinkHolds results first ((op, e) :: links) 0 ↔
      ∃ a b, results first = .ok a ∧ results e = .ok b ∧ Operators.compare op a b = .ok true := by
  simp [LinkHolds, operands]

/-- If the first link is not true, the operands behind it are not due. -/
theorem due_iff_of_not_holds {first e : Expr} {op : CompareOp} {links : List (CompareOp × Expr)}
    {l : Value} (hfirst : results first = .ok l)
    (h : ¬ LinkHolds results first ((op, e) :: links) 0) (i : Nat) :
    i ≤ 1 ↔ Due results first ((op, e) :: links) i := by
  constructor
  · intro hi
    exact ⟨fun _ => ⟨l, hfirst⟩, fun j hj => by omega⟩
  · rintro ⟨-, hlinks⟩
    by_contra hi
    exact h (hlinks 0 (by omega))

/-- Behind a true link those are due that are due in the chain which begins there. -/
theorem due_succ_iff {first e : Expr} {op : CompareOp} {links : List (CompareOp × Expr)}
    (h : LinkHolds results first ((op, e) :: links) 0) (i : Nat) :
    Due results first ((op, e) :: links) (i + 1) ↔ Due results e links i := by
  obtain ⟨l, r, hl, hr, -⟩ := linkHolds_cons_zero.mp h
  constructor
  · rintro ⟨-, hlinks⟩
    exact ⟨fun _ => ⟨r, hr⟩, fun j hj => linkHolds_cons_succ.mp (hlinks (j + 1) (by omega))⟩
  · rintro ⟨-, hlinks⟩
    refine ⟨fun _ => ⟨l, hl⟩, fun j hj => ?_⟩
    cases j with
    | zero => exact h
    | succ j => exact linkHolds_cons_succ.mpr (hlinks j (by omega))

end Results

/-! ### Evaluation -/

section Evaluation

variable {ns : Namespace} {vars : Variables} {o : EvalOptions} {depth : Nat}

/-- The evaluation behaves as if exactly these trees were evaluated, one after the other. -/
def GoesThrough (ns : Namespace) (vars : Variables) (o : EvalOptions) (m : EvalM Value)
    (r : Except EvalError Value) (es : List Expr) : Prop :=
  ComesTo m r (es.flatMap fun e => (evaluate e ns vars o).visited)
    (es.flatMap fun e => (evaluate e ns vars o).calls)

theorem GoesThrough.behind {e : Expr} {k : Value → EvalM Value} {v : Value}
    {r : Except EvalError Value} {es : List Expr} (hsteps : o.maxSteps = none)
    (hdepth : depth + e.depth ≤ o.maxDepth) (he : (evaluate e ns vars o).result = .ok v)
    (hk : GoesThrough ns vars o (k v) r es) :
    GoesThrough ns vars o (expr ⟨ns, vars, o⟩ depth e >>= k) r (e :: es) := by
  have hgives : ComesTo (expr ⟨ns, vars, o⟩ depth e) _ _ _ := comesTo_expr hsteps hdepth
  rw [he] at hgives
  exact hgives.bind_ok hk

theorem GoesThrough.stops {e : Expr} {k : Value → EvalM Value} {err : EvalError}
    (hsteps : o.maxSteps = none) (hdepth : depth + e.depth ≤ o.maxDepth)
    (he : (evaluate e ns vars o).result = .error err) :
    GoesThrough ns vars o (expr ⟨ns, vars, o⟩ depth e >>= k) (.error err) [e] := by
  have hgives : ComesTo (expr ⟨ns, vars, o⟩ depth e) _ _ _ := comesTo_expr hsteps hdepth
  rw [he] at hgives
  simpa [GoesThrough] using hgives.bind_error

/-- What a tree comes to that is evaluated by itself. -/
abbrev alone (ns : Namespace) (vars : Variables) (o : EvalOptions) (e : Expr) :
    Except EvalError Value := (evaluate e ns vars o).result

/-- The evaluation, behind the first operand of a chain, comes to what the chain comes to, by way
    of the operands that are due. -/
def FollowsChain (ns : Namespace) (vars : Variables) (o : EvalOptions) (m : EvalM Value)
    (first : Expr) (links : List (CompareOp × Expr)) : Prop :=
  ∃ k ≤ links.length,
    GoesThrough ns vars o m (chainResult (alone ns vars o) first links)
      ((links.map Prod.snd).take k) ∧
    ∀ i ≤ links.length, i ≤ k ↔ Due (alone ns vars o) first links i

section Links

variable {first e : Expr} {op : CompareOp} {rest : List (CompareOp × Expr)} {l : Value}
  (hfirst : alone ns vars o first = .ok l)
include hfirst

theorem FollowsChain.stops {m : EvalM Value} (r : Except EvalError Value)
    (hnot : ¬ LinkHolds (alone ns vars o) first ((op, e) :: rest) 0)
    (hr : chainResult (alone ns vars o) first ((op, e) :: rest) = r)
    (hm : GoesThrough ns vars o m r [e]) : FollowsChain ns vars o m first ((op, e) :: rest) :=
  ⟨1, by simp, by simpa [hr] using hm, fun i _ => due_iff_of_not_holds hfirst hnot i⟩

/-- Behind a true link the evaluation goes on as that of a chain which begins there. -/
theorem FollowsChain.goesOn {k : Value → EvalM Value} {r : Value} (hsteps : o.maxSteps = none)
    (hdepth : depth + e.depth ≤ o.maxDepth) (he : alone ns vars o e = .ok r)
    (hop : Operators.compare op l r = .ok true) (hk : FollowsChain ns vars o (k r) e rest) :
    FollowsChain ns vars o (expr ⟨ns, vars, o⟩ depth e >>= k) first ((op, e) :: rest) := by
  obtain ⟨n, hn, hgoes, hdue⟩ := hk
  have hholds : LinkHolds (alone ns vars o) first ((op, e) :: rest) 0 :=
    linkHolds_cons_zero.mpr ⟨l, r, hfirst, he, hop⟩
  have hresult : chainResult (alone ns vars o) first ((op, e) :: rest) =
      chainResult (alone ns vars o) e rest := by
    rw [chainResult_cons_ok hfirst he, hop]
    rfl
  refine ⟨n + 1, Nat.succ_le_succ hn, ?_, fun i hi => ?_⟩
  · rw [hresult]
    exact hgoes.behind hsteps hdepth he
  · cases i with
    | zero => exact ⟨fun _ => ⟨fun h => absurd h (Nat.lt_irrefl 0), fun j hj => by omega⟩,
        fun _ => Nat.zero_le _⟩
    | succ i =>
      rw [due_succ_iff hholds, ← hdue i (Nat.le_of_succ_le_succ hi)]
      exact Nat.succ_le_succ_iff

end Links

/-- **The links of a chain are evaluated as far as they are due.** -/
theorem links_followsChain (ns : Namespace) (vars : Variables) {o : EvalOptions}
    (hsteps : o.maxSteps = none) {first : Expr} {l : Value}
    (hfirst : alone ns vars o first = .ok l) {ls : List (CompareOp × Expr)}
    (hdepth : ∀ p ∈ ls, depth + p.2.depth ≤ o.maxDepth) :
    FollowsChain ns vars o (links ⟨ns, vars, o⟩ depth l ls) first ls := by
  induction ls generalizing first l with
  | nil =>
    refine ⟨0, Nat.le_refl 0, ?_, fun i hi => ?_⟩
    · rw [chainResult, hfirst]
      exact comesTo_pure (Value.bool true)
    · rw [List.length_nil, Nat.le_zero] at hi
      subst hi
      exact ⟨fun _ => ⟨fun _ => ⟨l, hfirst⟩, fun j hj => by omega⟩, fun _ => Nat.le_refl 0⟩
  | cons p rest ih =>
    obtain ⟨op, e⟩ := p
    have hroom := hdepth (op, e) List.mem_cons_self
    rw [links]
    cases he : alone ns vars o e with
    | error err =>
      refine .stops hfirst (.error err) ?_ ?_ (.stops hsteps hroom he)
      · rw [linkHolds_cons_zero, he]
        rintro ⟨_, _, -, h, -⟩
        cases h
      · rw [chainResult, hfirst, he]
        rfl
    | ok r =>
      have hresult := chainResult_cons_ok hfirst he op rest
      -- unless the operator answers that the link is true, it does not hold
      have hnot : Operators.compare op l r ≠ .ok true →
          ¬ LinkHolds (alone ns vars o) first ((op, e) :: rest) 0 := by
        rw [linkHolds_cons_zero, hfirst, he]
        rintro h ⟨_, _, ⟨⟩, ⟨⟩, hop⟩
        exact h hop
      cases hop : Operators.compare op l r with
      | error err =>
        rw [hop] at hresult hnot
        refine .stops hfirst _ (hnot nofun) hresult (.behind hsteps hroom he ?_)
        rw [hop]
        exact comesTo_throw (.ofOperator e.span err)
      | ok holds =>
        rw [hop] at hresult hnot
        cases holds with
        | false =>
          refine .stops hfirst _ (hnot nofun) hresult (.behind hsteps hroom he ?_)
          rw [hop]
          exact comesTo_pure (Value.bool false)
        | true =>
          refine .goesOn hfirst hsteps hroom he hop ?_
          rw [hop]
          exact ih he fun q hq => hdepth q (List.mem_cons_of_mem (op, e) hq)

theorem evaluate_compare (hsteps : o.maxSteps = none) {span : Span} {first : Expr}
    {ls : List (CompareOp × Expr)} (hdepth : 0 < o.maxDepth) {r : Except EvalError Value}
    {es : List Expr}
    (h : GoesThrough ns vars o
      (expr ⟨ns, vars, o⟩ 1 first >>= fun l => links ⟨ns, vars, o⟩ 1 l ls) r es) :
    evaluate (.compare span first ls) ns vars o =
      ⟨r, es.flatMap fun e => (evaluate e ns vars o).calls,
        .compare span first ls :: es.flatMap fun e => (evaluate e ns vars o).visited⟩ :=
  evaluate_of_body (by rw [expr]) hsteps hdepth h

/-- **A chain is evaluated by way of the operands that are due.** -/
theorem evaluate_chain (ns : Namespace) (vars : Variables) {o : EvalOptions}
    (hsteps : o.maxSteps = none) (span : Span) (first : Expr) (ls : List (CompareOp × Expr))
    (hdepth : (Expr.compare span first ls).depth ≤ o.maxDepth) :
    ∃ k ≤ ls.length,
      evaluate (.compare span first ls) ns vars o =
        ⟨chainResult (alone ns vars o) first ls,
          ((operands first ls).take (k + 1)).flatMap fun e => (evaluate e ns vars o).calls,
          .compare span first ls ::
            ((operands first ls).take (k + 1)).flatMap fun e => (evaluate e ns vars o).visited⟩ ∧
      ∀ i ≤ ls.length, i ≤ k ↔ Due (alone ns vars o) first ls i := by
  have hroom : ∀ x ∈ operands first ls, 1 + x.depth ≤ o.maxDepth := by
    intro x hx
    have hchild : x ∈ (Expr.compare span first ls).children := hx
    have := Expr.depth_child_lt hchild
    omega
  have hfirst := hroom first List.mem_cons_self
  have hpos : 0 < o.maxDepth := by omega
  cases hvalue : alone ns vars o first with
  | error err =>
    have hgoes : GoesThrough ns vars o
        (expr ⟨ns, vars, o⟩ 1 first >>= fun l => links ⟨ns, vars, o⟩ 1 l ls) (.error err) [first] :=
      .stops hsteps hfirst hvalue
    have hresult : chainResult (alone ns vars o) first ls = .error err := by
      cases ls with
      | nil =>
        rw [chainResult, hvalue]
        rfl
      | cons p rest =>
        rw [chainResult, hvalue]
        rfl
    refine ⟨0, Nat.zero_le _, ?_, fun i _ => ⟨fun hi => ?_, fun hdue => ?_⟩⟩
    · rw [hresult]
      exact evaluate_compare hsteps hpos hgoes
    · exact ⟨fun h => by omega, fun j hj => by omega⟩
    · by_contra hi
      obtain ⟨l, hl⟩ := hdue.1 (by omega)
      rw [hvalue] at hl
      cases hl
  | ok l =>
    have hlinks : ∀ p ∈ ls, 1 + p.2.depth ≤ o.maxDepth := fun p hp =>
      hroom p.2 (List.mem_cons_of_mem first (List.mem_map_of_mem hp))
    obtain ⟨k, hk, hgoes, hdue⟩ := links_followsChain ns vars hsteps hvalue hlinks
    exact ⟨k, hk, evaluate_compare hsteps hpos (hgoes.behind hsteps hfirst hvalue), hdue⟩

/-! ### The conjunction -/

/-- A conjunction has the result of its left side if that is no true value, and else the result
    of its right side. -/
theorem result_and (hsteps : o.maxSteps = none) {span : Span} {left right : Expr}
    (hdepth : (Expr.boolOp span .and left right).depth ≤ o.maxDepth) :
    alone ns vars o (.boolOp span .and left right) =
      (alone ns vars o left >>= fun v =>
        if v.truthy then alone ns vars o right else .ok v) := by
  have hleft := Expr.depth_child_lt (c := left) (e := .boolOp span .and left right)
    List.mem_cons_self
  have hright := Expr.depth_child_lt (c := right) (e := .boolOp span .and left right)
    (List.mem_cons_of_mem left List.mem_cons_self)
  have hl : ComesTo (expr ⟨ns, vars, o⟩ (0 + 1) left) _ _ _ := comesTo_expr hsteps (by omega)
  have hr : ComesTo (expr ⟨ns, vars, o⟩ (0 + 1) right) _ _ _ := comesTo_expr hsteps (by omega)
  have hbehind : ∀ l, ∃ es cs, ComesTo
      (if decides .and l then pure l else expr ⟨ns, vars, o⟩ (0 + 1) right)
      (if l.truthy then alone ns vars o right else .ok l) es cs := by
    intro l
    rw [decides]
    cases l.truthy with
    | true => exact ⟨_, _, hr⟩
    | false => exact ⟨_, _, comesTo_pure l⟩
  obtain ⟨es, cs, h⟩ := hl.bind hbehind
  rw [alone, evaluate_of_body (by rw [expr]) hsteps (by omega) h]

/-- **A conjunction of the links comes to what the chain comes to.** -/
theorem result_conjunction (hsteps : o.maxSteps = none) {first c : Expr}
    {ls : List (CompareOp × Expr)} (h : Conjunction first ls c) (hdepth : c.depth ≤ o.maxDepth) :
    alone ns vars o c = chainResult (alone ns vars o) first ls := by
  have hlink : ∀ (span : Span) (x right : Expr) (op : CompareOp),
      (Expr.compare span x [(op, right)]).depth ≤ o.maxDepth →
        alone ns vars o (.compare span x [(op, right)]) =
          chainResult (alone ns vars o) x [(op, right)] := by
    intro span x right op hroom
    obtain ⟨k, -, heval, -⟩ := evaluate_chain ns vars hsteps span x _ hroom
    rw [alone, heval]
  induction h with
  | link span op right => exact hlink span first right op hdepth
  | @and ls left _ outer inner op right ih =>
    have hleft := Expr.depth_child_lt (c := left) (e := .boolOp outer .and left
      (.compare inner (lastOperand first ls) [(op, right)])) List.mem_cons_self
    have hright := Expr.depth_child_lt (e := .boolOp outer .and left
      (.compare inner (lastOperand first ls) [(op, right)]))
      (List.mem_cons_of_mem left List.mem_cons_self)
    rw [result_and hsteps hdepth, chainResult_append, ih (by omega), hlink _ _ _ _ (by omega)]

/-- **A chained comparison is the conjunction of its links.**  Without limits it comes to the same
value or the same error.  It evaluates a part of its operands, beginning with the first: each of
them once, in their order, and those that are due, so none behind a link that is not true. -/
theorem chain_is_conjunction (ns : Namespace) (vars : Variables) {o : EvalOptions} {first c : Expr}
    {ls : List (CompareOp × Expr)} (h : Conjunction first ls c) (hsteps : o.maxSteps = none)
    (hdepth : c.depth ≤ o.maxDepth) (span : Span) :
    (evaluate (.compare span first ls) ns vars o).result = (evaluate c ns vars o).result ∧
    ∃ k ≤ ls.length,
      (evaluate (.compare span first ls) ns vars o).visited =
        .compare span first ls ::
          ((operands first ls).take (k + 1)).flatMap (fun e => (evaluate e ns vars o).visited) ∧
      (evaluate (.compare span first ls) ns vars o).calls =
        ((operands first ls).take (k + 1)).flatMap (fun e => (evaluate e ns vars o).calls) ∧
      ∀ i ≤ ls.length, i ≤ k ↔ Due (fun e => (evaluate e ns vars o).result) first ls i := by
  have hchain := Nat.le_trans (h.depth_le span) hdepth
  obtain ⟨k, hk, heval, hdue⟩ := evaluate_chain ns vars hsteps span first ls hchain
  rw [heval]
  exact ⟨(result_conjunction hsteps h hdepth).symm, k, hk, rfl, rfl, hdue⟩

/-- The second link is false, so the name behind it, which is unbound, does no harm. -/
theorem chain_is_conjunction_stops :
    let one : Expr := .literal ⟨0, 1⟩ (.int 1)
    let two : Expr := .literal ⟨4, 5⟩ (.int 2)
    let two' : Expr := .literal ⟨8, 9⟩ (.int 2)
    let x : Expr := .name ⟨13, 14⟩ "x"
    let chain : Expr := .compare ⟨0, 14⟩ one [(.lt, two), (.lt, two'), (.le, x)]
    let conjunction : Expr := .boolOp ⟨0, 14⟩ .and
      (.boolOp ⟨0, 9⟩ .and (.compare ⟨0, 5⟩ one [(.lt, two)]) (.compare ⟨4, 9⟩ two [(.lt, two')]))
      (.compare ⟨8, 14⟩ two' [(.le, x)])
    let o : EvalOptions := { maxDepth := 4, maxSteps := none }
    (evaluate chain clampNamespace {} o).visited = [chain, one, two, two'] ∧
      (evaluate chain clampNamespace {} o).result = .ok (.bool false) ∧
      (evaluate conjunction clampNamespace {} o).result = .ok (.bool false) := by
  intro one two two' x chain conjunction o
  have hconjunction : Conjunction one [(.lt, two), (.lt, two'), (.le, x)] conjunction :=
    .and (.and (.link ⟨0, 5⟩ .lt two) ⟨0, 9⟩ ⟨4, 9⟩ .lt two') ⟨0, 14⟩ ⟨8, 14⟩ .le x
  have hdepth : conjunction.depth ≤ o.maxDepth := by decide
  have hresult : (evaluate chain clampNamespace {} o).result = .ok (.bool false) := by rfl
  have hsame := (chain_is_conjunction clampNamespace {} hconjunction rfl hdepth ⟨0, 14⟩).1
  exact ⟨rfl, hresult, hsame ▸ hresult⟩

end Evaluation

end SafeExpr.Eval
