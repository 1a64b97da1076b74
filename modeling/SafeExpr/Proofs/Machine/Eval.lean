/-
  SafeExpr/Proofs/Machine/Eval.lean
  =================================
  **Evaluation on a machine.**

  An evaluator on a machine counts the nodes that it has visited, and the levels that it is
  in, in sizes.  It goes down one level for the parts of a node and comes back up behind them,
  whether they have failed or not.

  `Follows` says that such an evaluation comes to what an exact one comes to from every trace
  with as many steps; `expr_follows` goes through the tree.
-/
import SafeExpr.Proofs.Evaluation.Failure
import SafeExpr.Proofs.Evaluation.WellFormed
import SafeExpr.Proofs.Machine.Binding

namespace SafeExpr.Machine

open Eval (outcome Returns)

/-! ### Definitions -/

/-- The counters of an evaluator. -/
structure Counters where
  depth : Nat := 0
  steps : Nat := 0

abbrev Evaluation (α : Type) := ExceptT EvalError (StateT Counters Checked) α

/-- What needs no counter and no operation that may panic. -/
def plain {α : Type} (m : EvalM α) : Evaluation α :=
  fun n => .ok ((outcome m {}).1, n)

/-- A checked operation within an evaluation. -/
def checked {α : Type} (m : Checked α) : Evaluation α := fun n => do return (.ok (← m), n)

/-- Evaluates the parts of a node one level below it. -/
def deeper (inner : Evaluation Value) : Evaluation Value := fun n => do
  let depth ← addSize n.depth 1
  let (result, n) ← inner { n with depth := depth }
  let depth ← subSize n.depth 1
  return (result, { n with depth := depth })

/-- Visits a node and evaluates its parts. -/
def visit (sc : Scope) (e : Expr) (inner : Evaluation Value) : Evaluation Value := fun n =>
  if sc.options.maxDepth ≤ n.depth then
    return (.error ⟨.stackOverflow n.depth sc.options.maxDepth, e.span⟩, n)
  else do
    let steps ← addSize n.steps 1
    let n := { n with steps := steps }
    match sc.options.maxSteps with
    | some limit =>
      if limit < steps then return (.error ⟨.stepLimit limit, e.span⟩, n) else deeper inner n
    | none => deeper inner n

/-- Looks up what a function does not get from its caller, and calls it. -/
def applyFunction (sc : Scope) (span : Span) (name : String) (f : NativeFunction)
    (positional : List Value) (keywords : List (String × Value)) : Evaluation Value := do
  let found ← checked (addSize positional.length keywords.length)
  let implied ← plain (Eval.resolveAll sc span f.signature.impliedNames)
  match ← checked (bind f.signature positional keywords implied) with
  | .error e => plain (Eval.fail span (Eval.bindFailure name f.signature found e))
  | .ok args =>
    match ← checked (call f args) with
    | .ok v => return v
    | .error e => plain (Eval.fail span (.backend name e))

namespace Evaluation

mutual

def expr (sc : Scope) (e : Expr) : Evaluation Value :=
  visit sc e <|
    match e with
    | .literal _ v => return v.toValue
    | .name span n => plain (Eval.resolve sc n span)
    | .paren _ inner => expr sc inner
    | .unary span op operand => do
      let v ← expr sc operand
      plain (Eval.ofOperator span (Operators.unary op v))
    | .binary span op left right => do
      let l ← expr sc left
      let r ← expr sc right
      let result ← checked (binary op l r)
      plain (Eval.ofOperator span result)
    | .boolOp _ op left right => do
      let l ← expr sc left
      if Eval.decides op l then return l else expr sc right
    | .compare _ left rest => do
      let l ← expr sc left
      links sc l rest
    | .conditional _ condition yes no => do
      let c ← expr sc condition
      if c.truthy then expr sc yes else expr sc no
    | .call span callee args =>
      match callee.asName with
      | none => plain (Eval.fail callee.peel.span (.unsupported .indirectCall))
      | some name => do
        let f ← plain (Eval.resolveFunction sc name callee.peel.span)
        let (positional, keywords) ← arguments sc args
        applyFunction sc span name f positional keywords
    | .list _ es => do return .list (← items sc es)
    | .tuple _ es => do return .tuple (← items sc es)
    | .set span es => do
      let vs ← items sc es
      plain (Eval.ofValue span (Value.mkSet vs))
    | .dict span es => do
      let vs ← entries sc es
      plain (Eval.ofValue span (Value.mkDict vs))
    | other => plain (Eval.fail other.span (.unsupported (other.forbidden?.getD .indirectCall)))

def items (sc : Scope) : List Expr → Evaluation (List Value)
  | [] => return []
  | e :: rest => do
    let v ← expr sc e
    return v :: (← items sc rest)

def links (sc : Scope) (l : Value) : List (CompareOp × Expr) → Evaluation Value
  | [] => return .bool true
  | (op, e) :: rest => do
    let r ← expr sc e
    if ← plain (Eval.ofOperator e.span (Operators.compare op l r)) then links sc r rest
    else return .bool false

def arguments (sc : Scope) :
    List (Argument Expr) → Evaluation (List Value × List (String × Value))
  | [] => return ([], [])
  | .positional e :: rest => do
    let v ← expr sc e
    let (positional, keywords) ← arguments sc rest
    return (v :: positional, keywords)
  | .keyword _ name e :: rest => do
    let v ← expr sc e
    let (positional, keywords) ← arguments sc rest
    return (positional, (name, v) :: keywords)

def entries (sc : Scope) : List (Expr × Expr) → Evaluation (List (Value × Value))
  | [] => return []
  | (k, v) :: rest => do
    let key ← expr sc k
    let value ← expr sc v
    return (key, value) :: (← entries sc rest)

end

end Evaluation

/-- The result of an evaluation that starts with all counters at zero. -/
def evaluate (e : Expr) (ns : Namespace) (vars : Variables) (options : EvalOptions) :
    Checked (Except EvalError Value) := do
  let (result, _) ← Evaluation.expr ⟨ns, vars, options⟩ e {}
  return result

/-! ### Following an exact evaluation -/

/-- At this depth, the evaluation on a machine comes to what the other one comes to, in at
    most `cost` further steps. -/
def Follows {α : Type} (depth cost : Nat) (m : Evaluation α) (m' : EvalM α) : Prop :=
  ∀ t, t.steps + cost ≤ maxSize →
    Gives (m ⟨depth, t.steps⟩) ((outcome m' t).1, ⟨depth, (outcome m' t).2.steps⟩) ∧
      (outcome m' t).2.steps ≤ t.steps + cost

section Follows

variable {α β : Type} {depth cost cost' : Nat} {m : Evaluation α} {m' : EvalM α}
  {k : α → Evaluation β} {k' : α → EvalM β}

theorem bind_run (m : Evaluation α) (k : α → Evaluation β) (n : Counters) :
    (m >>= k) n = m n >>= fun p =>
      match p.1 with
      | .ok a => k a p.2
      | .error err => .ok (.error err, p.2) := by
  change (m n >>= _) = _
  congr 1
  funext p
  obtain ⟨r, n'⟩ := p
  cases r <;> rfl

theorem Follows.mono (h : Follows depth cost m m') (hle : cost ≤ cost') :
    Follows depth cost' m m' := by
  intro t ht
  obtain ⟨hgives, hsteps⟩ := h t (by omega)
  exact ⟨hgives, by omega⟩

theorem follows_pure (a : α) : Follows depth 0 (pure a : Evaluation α) (pure a) :=
  fun _ _ => ⟨.of_eq rfl, Nat.le_refl _⟩

theorem Follows.bind (hm : Follows depth cost m m')
    (hk : ∀ a, Returns m' a → Follows depth cost' (k a) (k' a)) :
    Follows depth (cost + cost') (m >>= k) (m' >>= k') := by
  intro t ht
  obtain ⟨hgives, hsteps⟩ := hm t (by omega)
  rw [bind_run]
  rcases hout : outcome m' t with ⟨r, u⟩
  rw [hout] at hgives hsteps
  dsimp only at hgives hsteps
  cases r with
  | error err =>
    rw [Eval.outcome_bind_error hout]
    exact ⟨hgives.bind (.of_eq rfl), by dsimp only; omega⟩
  | ok a =>
    obtain ⟨hnext, hmore⟩ := hk a ⟨t, u, hout⟩ u (by omega)
    rw [Eval.outcome_bind_ok hout]
    exact ⟨hgives.bind hnext, by omega⟩

/-- Sequencing behind a part that visits no node. -/
theorem Follows.bind_nil (hm : Follows depth 0 m m')
    (hk : ∀ a, Returns m' a → Follows depth cost (k a) (k' a)) :
    Follows depth cost (m >>= k) (m' >>= k') := by
  have h := hm.bind hk
  rwa [Nat.zero_add] at h

/-- Going on with a function of the value. -/
theorem Follows.map (f : α → β) (hm : Follows depth cost m m') :
    Follows depth cost (do return f (← m)) (do return f (← m')) :=
  hm.bind fun a _ => follows_pure (f a)

/-- An operation that comes to a value, in front of what goes on with it. -/
theorem Follows.checked {x : Checked α} {a : α} {n : EvalM β} (hx : Gives x a)
    (hk : Follows depth cost (k a) n) : Follows depth cost (checked x >>= k) n := by
  intro t ht
  obtain ⟨hgives, hsteps⟩ := hk t ht
  refine ⟨?_, hsteps⟩
  rw [bind_run]
  have hchecked : Gives (Machine.checked x ⟨depth, t.steps⟩) (.ok a, ⟨depth, t.steps⟩) :=
    hx.bind (.of_eq rfl)
  exact hchecked.bind hgives

/-- An exact evaluation may note something that is not counted. -/
theorem Follows.modify {g : Trace → Trace} (hg : ∀ t, (g t).steps = t.steps)
    (h : Follows depth cost m m') :
    Follows depth cost m (modify g >>= fun _ => m') := by
  intro t ht
  rw [← hg t] at ht ⊢
  exact h (g t) ht

/-- The trace is not looked at, and stays as it is. -/
def TraceFree (m : EvalM α) : Prop := ∀ t, outcome m t = ((outcome m {}).1, t)

theorem TraceFree.bind (hm : TraceFree m') (hk : ∀ a, TraceFree (k' a)) :
    TraceFree (m' >>= k') := by
  intro t
  rcases hout : (outcome m' {}).1 with err | a
  · have hm' : ∀ t, outcome m' t = (.error err, t) := fun t => by rw [hm t, hout]
    rw [Eval.outcome_bind_error (hm' t), Eval.outcome_bind_error (hm' {})]
  · have hm' : ∀ t, outcome m' t = (.ok a, t) := fun t => by rw [hm t, hout]
    rw [Eval.outcome_bind_ok (hm' t), Eval.outcome_bind_ok (hm' {})]
    exact hk a t

theorem follows_plain (h : TraceFree m') : Follows depth 0 (plain m') m' := by
  intro t _
  rw [h t]
  exact ⟨.of_eq rfl, Nat.le_refl _⟩

end Follows

/-! ### Single steps -/

section Steps

variable {sc : Scope} {depth : Nat}

theorem follows_fail {α : Type} (span : Span) (kind : EvalErrorKind) :
    Follows depth 0 (plain (Eval.fail span kind : EvalM α)) (Eval.fail span kind) :=
  follows_plain fun _ => rfl

theorem follows_ofOperator {α : Type} (span : Span) (r : Except OperatorError α) :
    Follows depth 0 (plain (Eval.ofOperator span r)) (Eval.ofOperator span r) :=
  follows_plain fun _ => by cases r <;> rfl

theorem follows_ofValue {α : Type} (span : Span) (r : Except ValueError α) :
    Follows depth 0 (plain (Eval.ofValue span r)) (Eval.ofValue span r) :=
  follows_plain fun _ => by cases r <;> rfl

theorem traceFree_resolve (sc : Scope) (name : String) (span : Span) :
    TraceFree (Eval.resolve sc name span) := by
  intro t
  unfold Eval.resolve
  split <;> rfl

theorem traceFree_resolveFunction (sc : Scope) (name : String) (span : Span) :
    TraceFree (Eval.resolveFunction sc name span) := by
  intro t
  unfold Eval.resolveFunction
  split <;> rfl

theorem traceFree_resolveAll (sc : Scope) (span : Span) (names : List String) :
    TraceFree (Eval.resolveAll sc span names) := by
  induction names with
  | nil => exact fun _ => rfl
  | cons name rest ih =>
    exact (traceFree_resolve sc name span).bind fun v => ih.bind fun vs _ => rfl

theorem follows_deeper {cost : Nat} {inner : Evaluation Value} {m : EvalM Value}
    (hdepth : depth + 1 ≤ maxSize) (h : Follows (depth + 1) cost inner m) :
    Follows depth cost (deeper inner) m := by
  intro t ht
  obtain ⟨hgives, hsteps⟩ := h t ht
  refine ⟨?_, hsteps⟩
  have hdown : addSize depth 1 = .ok (depth + 1) := addSize_eq hdepth
  have hup : subSize (depth + 1) 1 = .ok depth := subSize_eq (Nat.le_add_left 1 depth)
  unfold deeper
  rw [hdown]
  change Gives (inner ⟨depth + 1, t.steps⟩ >>= _) _
  refine Gives.bind hgives ?_
  dsimp only
  rw [hup]
  exact .of_eq rfl

/-- A node is visited in one step, and its parts are evaluated one level below. -/
theorem follows_visit {cost : Nat} {e : Expr} {inner : Evaluation Value} {m : EvalM Value}
    (hdepth : depth + 1 ≤ maxSize) (h : Follows (depth + 1) cost inner m) :
    Follows depth (1 + cost) (visit sc e inner) (Eval.enter sc depth e >>= fun _ => m) := by
  intro t ht
  have henter := Eval.outcome_enter sc depth e t
  by_cases hdeep : sc.options.maxDepth ≤ depth
  · rw [if_pos hdeep] at henter
    rw [Eval.outcome_bind_error henter, visit, if_pos hdeep]
    exact ⟨.of_eq rfl, Nat.le_add_right _ _⟩
  · let u : Trace := { t with steps := t.steps + 1, visited := e :: t.visited }
    have hcount : addSize t.steps 1 = .ok u.steps := addSize_eq (by omega)
    obtain ⟨hgives, hsteps⟩ := follows_deeper hdepth h u (by simp only [u]; omega)
    have hinner : (outcome m u).2.steps ≤ t.steps + (1 + cost) := by
      simp only [u] at hsteps ⊢
      omega
    rw [if_neg hdeep] at henter
    rw [visit, if_neg hdeep, hcount]
    change Gives (match sc.options.maxSteps with
      | some limit => _
      | none => _) _ ∧ _
    cases hlimit : sc.options.maxSteps with
    | none =>
      rw [hlimit] at henter
      rw [Eval.outcome_bind_ok henter]
      exact ⟨hgives, hinner⟩
    | some limit =>
      rw [hlimit] at henter
      by_cases hover : limit < t.steps + 1
      · have hstop : outcome (Eval.enter sc depth e) t =
            (.error ⟨.stepLimit limit, e.span⟩, u) := henter.trans (if_pos hover)
        rw [Eval.outcome_bind_error hstop]
        refine ⟨?_, by simp only [u]; omega⟩
        change Gives (if limit < t.steps + 1 then _ else _) _
        rw [if_pos hover]
        exact .of_eq rfl
      · have hgo : outcome (Eval.enter sc depth e) t = (.ok (), u) :=
          henter.trans (if_neg hover)
        rw [Eval.outcome_bind_ok hgo]
        refine ⟨?_, hinner⟩
        change Gives (if limit < t.steps + 1 then _ else _) _
        rw [if_neg hover]
        exact hgives

/-- A value, or a function of the library. -/
def InLibrary : Binding → Prop
  | .value _ => True
  | .function f => f ∈ builtins ++ MathModule.functions

/-- A namespace made of values and functions of the library. -/
def OfLibrary (ns : Namespace) : Prop := ns.bindings.Holds InLibrary

theorem OfLibrary.mem_of_function {ns : Namespace} {name : String} {f : NativeFunction}
    (h : OfLibrary ns) (hf : ns.function? name = some f) :
    f ∈ builtins ++ MathModule.functions := by
  unfold Namespace.function? at hf
  split at hf
  · next hlookup =>
    cases hf
    exact h name _ hlookup
  · cases hf

theorem length_params_le {f : NativeFunction} (hf : f ∈ builtins ++ MathModule.functions) :
    f.signature.params.length ≤ 4 := by
  have hall : (builtins ++ MathModule.functions).all (·.signature.params.length ≤ 4) = true := by
    decide
  simpa using List.all_eq_true.mp hall f hf

theorem follows_applyFunction {span : Span} {name : String} {f : NativeFunction}
    {positional : List Value} {keywords : List (String × Value)}
    (hf : f ∈ builtins ++ MathModule.functions)
    (hfound : positional.length + keywords.length ≤ maxBytes) :
    Follows depth 0 (applyFunction sc span name f positional keywords)
      (Eval.applyFunction sc span name f positional keywords) := by
  have hparams := length_params_le hf
  have hlarge : maxBytes + 4 ≤ maxSize := by decide
  have hcount : addSize positional.length keywords.length = .ok _ := addSize_eq (by omega)
  refine Follows.checked (.of_eq hcount) ?_
  refine Follows.bind_nil (follows_plain (traceFree_resolveAll sc span _)) fun implied _ => ?_
  refine Follows.checked (.of_eq (bind_eq (by omega) keywords implied)) ?_
  unfold Eval.invoke
  cases hbind : f.signature.bind positional keywords implied with
  | error e => exact follows_fail _ _
  | ok args =>
    refine Follows.modify (fun _ => rfl) (Follows.checked (call_gives hf (takes_of_bind hbind)) ?_)
    cases f.run args with
    | error e => exact follows_fail _ _
    | ok v => exact follows_pure v

end Steps

/-! ### Lists of nodes -/

/-- The nodes of several trees. -/
def nodeCount (es : List Expr) : Nat := (es.flatMap Expr.nodes).length

section Lists

variable {sc : Scope} {depth : Nat}

theorem nodeCount_nil : nodeCount [] = 0 := rfl

theorem nodeCount_cons (e : Expr) (es : List Expr) :
    nodeCount (e :: es) = e.nodes.length + nodeCount es := by
  rw [nodeCount, List.flatMap_cons, List.length_append]
  rfl

theorem length_nodes_le {e : Expr} {es : List Expr} (h : e ∈ es) :
    e.nodes.length ≤ nodeCount es := by
  induction es with
  | nil => cases h
  | cons e' es ih =>
    rw [nodeCount_cons]
    rcases List.mem_cons.mp h with rfl | h
    · exact Nat.le_add_right _ _
    · exact Nat.le_trans (ih h) (Nat.le_add_left _ _)

/-- The evaluation of the tree follows. -/
def TreeFollows (sc : Scope) (depth : Nat) (e : Expr) : Prop :=
  Follows depth e.nodes.length (Evaluation.expr sc e) (Eval.expr sc depth e)

theorem items_follows {es : List Expr} (hes : ∀ e ∈ es, TreeFollows sc depth e) :
    Follows depth (nodeCount es) (Evaluation.items sc es) (Eval.items sc depth es) := by
  induction es with
  | nil => exact follows_pure []
  | cons e rest ih =>
    obtain ⟨he, hrest⟩ := List.forall_mem_cons.mp hes
    rw [nodeCount_cons]
    exact he.bind fun v _ => (ih hrest).map (v :: ·)

theorem entries_follows {es : List (Expr × Expr)}
    (hes : ∀ e ∈ es.flatMap fun (k, v) => [k, v], TreeFollows sc depth e) :
    Follows depth (nodeCount (es.flatMap fun (k, v) => [k, v])) (Evaluation.entries sc es)
      (Eval.entries sc depth es) := by
  induction es with
  | nil => exact follows_pure []
  | cons p rest ih =>
    obtain ⟨k, v⟩ := p
    rw [List.flatMap_cons] at hes ⊢
    obtain ⟨hk, hes⟩ := List.forall_mem_cons.mp hes
    obtain ⟨hv, hrest⟩ := List.forall_mem_cons.mp hes
    change Follows depth (nodeCount (k :: v :: _)) _ _
    rw [nodeCount_cons, nodeCount_cons]
    exact hk.bind fun key _ => hv.bind fun value _ => (ih hrest).map ((key, value) :: ·)

theorem arguments_follows {args : List (Argument Expr)}
    (hargs : ∀ e ∈ args.map Argument.value, TreeFollows sc depth e) :
    Follows depth (nodeCount (args.map Argument.value)) (Evaluation.arguments sc args)
      (Eval.arguments sc depth args) := by
  induction args with
  | nil => exact follows_pure ([], [])
  | cons a rest ih =>
    rw [List.map_cons] at hargs ⊢
    obtain ⟨ha, hrest⟩ := List.forall_mem_cons.mp hargs
    rw [nodeCount_cons]
    cases a with
    | positional e => exact Follows.bind ha fun v _ => (ih hrest).map fun pk => (v :: pk.1, pk.2)
    | keyword span n e =>
      exact Follows.bind ha fun v _ => (ih hrest).map fun pk => (pk.1, (n, v) :: pk.2)

theorem links_follows {ls : List (CompareOp × Expr)} (l : Value)
    (hls : ∀ e ∈ ls.map Prod.snd, TreeFollows sc depth e) :
    Follows depth (nodeCount (ls.map Prod.snd)) (Evaluation.links sc l ls)
      (Eval.links sc depth l ls) := by
  induction ls generalizing l with
  | nil => exact follows_pure (Value.bool true)
  | cons p rest ih =>
    obtain ⟨op, e⟩ := p
    rw [List.map_cons] at hls ⊢
    obtain ⟨he, hrest⟩ := List.forall_mem_cons.mp hls
    rw [nodeCount_cons]
    refine Follows.bind he fun r _ => Follows.bind_nil (follows_ofOperator _ _) fun holds _ => ?_
    cases holds with
    | true => exact ih r hrest
    | false => exact (follows_pure (Value.bool false)).mono (Nat.zero_le _)

/-- There is a value for each argument, and a node for each value. -/
theorem length_arguments_le {args : List (Argument Expr)} {ps : List Value}
    {ks : List (String × Value)} (h : Returns (Eval.arguments sc depth args) (ps, ks)) :
    ps.length + ks.length ≤ nodeCount (args.map Argument.value) := by
  induction args generalizing ps ks with
  | nil =>
    cases Eval.returns_pure h
    exact Nat.zero_le _
  | cons a rest ih =>
    have hself : 1 ≤ a.value.nodes.length := List.length_pos_of_mem a.value.mem_nodes_self
    rw [List.map_cons, nodeCount_cons]
    cases a with
    | positional e =>
      obtain ⟨v, -, h⟩ := Eval.returns_bind h
      obtain ⟨⟨ps', ks'⟩, hrest, h⟩ := Eval.returns_bind h
      have := ih hrest
      cases Eval.returns_pure h
      rw [List.length_cons]
      omega
    | keyword span n e =>
      obtain ⟨v, -, h⟩ := Eval.returns_bind h
      obtain ⟨⟨ps', ks'⟩, hrest, h⟩ := Eval.returns_bind h
      have := ih hrest
      cases Eval.returns_pure h
      rw [List.length_cons]
      omega

end Lists

/-! ### Whole trees -/

theorem call_follows {sc : Scope} {depth : Nat} {span : Span} {callee : Expr} {name : String}
    {args : List (Argument Expr)} (hlibrary : OfLibrary sc.namespaces)
    (hsize : nodeCount (args.map Argument.value) ≤ maxBytes)
    (hargs : ∀ e ∈ args.map Argument.value, TreeFollows sc depth e) :
    Follows depth (nodeCount (args.map Argument.value))
      (do
        let f ← plain (Eval.resolveFunction sc name callee.peel.span)
        let (positional, keywords) ← Evaluation.arguments sc args
        applyFunction sc span name f positional keywords)
      (do
        let f ← Eval.resolveFunction sc name callee.peel.span
        let (positional, keywords) ← Eval.arguments sc depth args
        Eval.applyFunction sc span name f positional keywords) := by
  refine Follows.bind_nil (follows_plain (traceFree_resolveFunction sc name _)) fun f hf => ?_
  have hmem := hlibrary.mem_of_function (Eval.function_of_returns_resolveFunction hf)
  have happly : ∀ pk, Returns (Eval.arguments sc depth args) pk →
      Follows depth 0 (applyFunction sc span name f pk.1 pk.2)
        (Eval.applyFunction sc span name f pk.1 pk.2) :=
    fun _ hpk => follows_applyFunction hmem (Nat.le_trans (length_arguments_le hpk) hsize)
  exact (arguments_follows hargs).bind happly

/-- A node of a forbidden shape is visited and refused. -/
theorem forbidden_eq {sc : Scope} {e : Expr} {construct : Construct}
    (h : e.forbidden? = some construct) :
    Evaluation.expr sc e = visit sc e (plain (Eval.fail e.span (.unsupported construct))) := by
  cases e with
  | starred span double value =>
    cases double <;> cases h <;> simp [Evaluation.expr, Expr.forbidden?]
  | assign span op target value => cases op <;> cases h <;> simp [Evaluation.expr, Expr.forbidden?]
  | member | subscript | slice | lambda | comprehension | named | statement =>
    cases h
    simp [Evaluation.expr, Expr.forbidden?]
  | _ => cases h

/-- The parts of a node of a permitted shape. -/
theorem permitted_follows {sc : Scope} {depth : Nat} {e : Expr}
    (hlibrary : OfLibrary sc.namespaces) (hf : e.forbidden? = none) (hdepth : depth + 1 ≤ maxSize)
    (hsize : nodeCount e.children ≤ maxBytes)
    (hchild : ∀ c ∈ e.children, TreeFollows sc (depth + 1) c) : TreeFollows sc depth e := by
  have hnodes : e.nodes.length = 1 + nodeCount e.children := by
    rw [Expr.nodes_eq, List.length_cons, Nat.add_comm]
    rfl
  rw [TreeFollows, hnodes]
  cases e with
  | literal span v =>
    rw [Evaluation.expr, Eval.expr]
    exact follows_visit hdepth (follows_pure v.toValue)
  | name span n =>
    rw [Evaluation.expr, Eval.expr]
    exact follows_visit hdepth (follows_plain (traceFree_resolve sc n span))
  | paren span inner =>
    have hinner := hchild inner (by simp [Expr.children])
    rw [Evaluation.expr, Eval.expr]
    exact follows_visit hdepth (hinner.mono (by simp [Expr.children, nodeCount]))
  | unary span op operand =>
    have hoperand := hchild operand (by simp [Expr.children])
    rw [Evaluation.expr, Eval.expr]
    refine follows_visit hdepth ?_
    simp only [Expr.children, nodeCount_cons, nodeCount_nil]
    exact Follows.bind hoperand fun v _ => follows_ofOperator _ _
  | binary span op left right =>
    have hleft := hchild left (by simp [Expr.children])
    have hright := hchild right (by simp [Expr.children])
    rw [Evaluation.expr, Eval.expr]
    refine follows_visit hdepth ?_
    simp only [Expr.children, nodeCount_cons, nodeCount_nil]
    refine Follows.bind hleft fun l _ => Follows.bind hright fun r _ => ?_
    exact Follows.checked (binary_gives op l r) (follows_ofOperator _ _)
  | boolOp span op left right =>
    have hleft := hchild left (by simp [Expr.children])
    have hright := hchild right (by simp [Expr.children])
    rw [Evaluation.expr, Eval.expr]
    refine follows_visit hdepth ?_
    simp only [Expr.children, nodeCount_cons, nodeCount_nil]
    refine Follows.bind hleft fun l _ => ?_
    split
    · exact (follows_pure l).mono (Nat.zero_le _)
    · exact hright
  | compare span left links =>
    obtain ⟨hleft, hlinks⟩ := List.forall_mem_cons.mp hchild
    rw [Evaluation.expr, Eval.expr]
    refine follows_visit hdepth ?_
    simp only [Expr.children, nodeCount_cons]
    exact Follows.bind hleft fun l _ => links_follows l hlinks
  | conditional span condition yes no =>
    have hcondition := hchild condition (by simp [Expr.children])
    have hyes := hchild yes (by simp [Expr.children])
    have hno := hchild no (by simp [Expr.children])
    rw [Evaluation.expr, Eval.expr]
    refine follows_visit hdepth ?_
    simp only [Expr.children, nodeCount_cons, nodeCount_nil]
    have hbranch : ∀ c : Value, Follows (depth + 1) (max yes.nodes.length no.nodes.length)
        (if c.truthy then Evaluation.expr sc yes else Evaluation.expr sc no)
        (if c.truthy then Eval.expr sc (depth + 1) yes else Eval.expr sc (depth + 1) no) := by
      intro c
      split
      · exact Follows.mono hyes (Nat.le_max_left _ _)
      · exact Follows.mono hno (Nat.le_max_right _ _)
    exact (Follows.bind hcondition fun c _ => hbranch c).mono (by omega)
  | call span callee args =>
    obtain ⟨-, hargs⟩ := List.forall_mem_cons.mp hchild
    simp only [Expr.children, nodeCount_cons] at hsize ⊢
    rw [Evaluation.expr, Eval.expr]
    refine follows_visit hdepth ?_
    cases callee.asName with
    | none => exact (follows_fail _ _).mono (Nat.zero_le _)
    | some name =>
      exact (call_follows hlibrary (by omega) hargs).mono (Nat.le_add_left _ _)
  | list span es =>
    rw [Evaluation.expr, Eval.expr]
    exact follows_visit hdepth ((items_follows hchild).map Value.list)
  | tuple span es =>
    rw [Evaluation.expr, Eval.expr]
    exact follows_visit hdepth ((items_follows hchild).map Value.tuple)
  | set span es =>
    rw [Evaluation.expr, Eval.expr]
    exact follows_visit hdepth ((items_follows hchild).bind fun vs _ => follows_ofValue _ _)
  | dict span es =>
    rw [Evaluation.expr, Eval.expr]
    exact follows_visit hdepth ((entries_follows hchild).bind fun vs _ => follows_ofValue _ _)
  | starred span double value => cases double <;> cases hf
  | assign span op target value => cases op <;> cases hf
  | member | subscript | slice | lambda | comprehension | named | statement => cases hf

/-- **Evaluation on a machine follows the exact one.** -/
theorem expr_follows {sc : Scope} (hlibrary : OfLibrary sc.namespaces) (e : Expr) :
    ∀ depth, depth + e.depth ≤ maxSize → e.nodes.length ≤ maxBytes → TreeFollows sc depth e := by
  induction e using Expr.induction with
  | step e ih =>
    intro depth hdepth hsize
    have hbelow : depth + 1 ≤ maxSize := by
      rw [Expr.depth_eq] at hdepth
      omega
    have hcount : nodeCount e.children ≤ maxBytes := by
      rw [Expr.nodes_eq, List.length_cons] at hsize
      exact Nat.le_of_succ_le hsize
    have hchild : ∀ c ∈ e.children, TreeFollows sc (depth + 1) c := by
      intro c hc
      have hlower := Expr.depth_child_lt hc
      exact ih c hc (depth + 1) (by omega) (Nat.le_trans (length_nodes_le hc) hcount)
    cases hf : e.forbidden? with
    | none => exact permitted_follows hlibrary hf hbelow hcount hchild
    | some construct =>
      rw [TreeFollows, Expr.nodes_eq, List.length_cons, Nat.add_comm, forbidden_eq hf,
        Eval.expr_forbidden hf]
      exact follows_visit hbelow ((follows_fail _ _).mono (Nat.zero_le _))

/-- **Evaluation never panics**, with functions of the library and a tree that is held in
    memory. -/
theorem evaluate_gives {e : Expr} {ns : Namespace} (hlibrary : OfLibrary ns)
    (hdepth : e.depth ≤ maxSize) (hsize : e.nodes.length ≤ maxBytes) (vars : Variables)
    (options : EvalOptions) :
    Gives (evaluate e ns vars options) (SafeExpr.evaluate e ns vars options).result := by
  have hfollows : TreeFollows ⟨ns, vars, options⟩ 0 e :=
    expr_follows hlibrary e 0 (by omega) hsize
  have hsteps : (0 : Nat) + e.nodes.length ≤ maxSize := by
    have hlarge : maxBytes ≤ maxSize := by decide
    omega
  obtain ⟨hgives, -⟩ := hfollows {} hsteps
  rw [Eval.outcome_evaluate]
  exact hgives.bind (.of_eq rfl)

end SafeExpr.Machine
