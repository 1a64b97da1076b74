/-
  SafeExpr/Proofs/Machine/Run.lean
  ================================
  **No expression makes the program panic.**

  A text is parsed, the tree is checked, and it is evaluated.  A text that is held in memory is
  parsed with the outcome that `parseWith` says, and the tree has no more nodes than the text has
  bytes, so all that is counted while it is evaluated fits into sizes.  The checks go through the
  tree and compare names, which cannot panic; the other stages come to what the exact ones come
  to.
-/
import SafeExpr.Compiled
import SafeExpr.Proofs.Machine.Build
import SafeExpr.Proofs.Machine.Eval
import SafeExpr.Proofs.Machine.Limit
import SafeExpr.Proofs.Machine.Size
import SafeExpr.Proofs.Parse.Spans
import SafeExpr.Proofs.WellFormed

namespace SafeExpr.Machine

/-! ### Parsing -/

/-- The syntax tree of a text that nests at most `maxDepth` levels. -/
def parse (maxDepth : Nat) (text : String) : Reading Expr := do
  let _ ← lengthInMemory (byteLength text.toList)
  scan maxDepth .code 0 0 text.toList
  let tree ← settled (matchSource text.toList)
  checkOperators maxDepth 0 tree
  let e ← source tree
  let depth ← height e
  if maxDepth < depth then throw ⟨.maxDepthExceeded depth maxDepth, e.span⟩
  return e

/-- A tree that was built from a text has no more levels and no more nodes than the text has
    bytes, or is a single node. -/
theorem within_of_matched {text : List Char} {t : Tree Rule} {e : Expr}
    (hmatch : matchSource text = .ok t) (hbuild : Build.source t = .ok e) :
    e.depth ≤ max 1 (byteLength text) ∧ e.nodes.length ≤ byteLength text := by
  obtain ⟨hlevels, hweight⟩ := size_of_matched hmatch
  have hwithin := (Build.source_within t).of_ok hbuild
  refine ⟨Nat.le_trans hwithin.depth ?_, Nat.le_trans hwithin.nodes hweight⟩
  omega

/-- A text in memory is parsed as `parseWith` says. -/
theorem parse_eq (maxDepth : Nat) {text : String} (hsize : byteLength text.toList ≤ maxBytes) :
    parse maxDepth text = settled (parseWith maxDepth text) := by
  have hlarge : max 1 (byteLength text.toList) ≤ maxSize := by
    unfold maxBytes at hsize
    unfold maxSize
    omega
  have hheld : lengthInMemory (byteLength text.toList) = .ok (byteLength text.toList) :=
    if_pos hsize
  have hscan := scan_eq maxDepth .code 0 0 text.toList (Nat.le_refl 0) (by omega)
  rw [parse, parseWith, hheld, lift_ok, pure_bind, hscan]
  refine settled_bind fun _ _ => settled_bind fun tree hmatch => ?_
  obtain ⟨hlevels, hweight⟩ := size_of_matched hmatch
  rw [checkOperators_eq maxDepth tree (by omega)]
  refine settled_bind fun _ _ => ?_
  obtain ⟨z, hlaid⟩ := laid_of_matchSource hmatch
  rw [source_eq (by omega) hlaid]
  refine settled_bind fun e hbuild => ?_
  have hdepth := (within_of_matched hmatch hbuild).1
  rw [height_eq (by omega), lift_ok, pure_bind]
  split
  · rfl
  · rfl

/-- Other texts cannot be there. -/
theorem parse_too_large (maxDepth : Nat) {text : String}
    (hsize : ¬ byteLength text.toList ≤ maxBytes) :
    (parse maxDepth text).run = .error .outOfMemory := by
  have hheld : lengthInMemory (byteLength text.toList) = .error .outOfMemory := if_neg hsize
  rw [parse, hheld]
  rfl

/-- **Parsing never panics.** -/
theorem parse_gives (maxDepth : Nat) (text : String) :
    Gives (parse maxDepth text).run (parseWith maxDepth text) := by
  by_cases hsize : byteLength text.toList ≤ maxBytes
  · rw [parse_eq maxDepth hsize]
    exact .of_eq rfl
  · exact Or.inr (parse_too_large maxDepth hsize)

/-- A parsed tree is no larger than a text in memory. -/
theorem within_of_parse {maxDepth : Nat} {text : String} {e : Expr}
    (h : (parse maxDepth text).run = .ok (.ok e)) :
    e.depth ≤ maxSize ∧ e.nodes.length ≤ maxBytes := by
  by_cases hsize : byteLength text.toList ≤ maxBytes
  · rw [parse_eq maxDepth hsize] at h
    have hparse : parseWith maxDepth text = .ok e := Except.ok.inj h
    obtain ⟨-, tree, hmatch, -, hbuild, -⟩ := parseWith_ok_iff.mp hparse
    obtain ⟨hdepth, hnodes⟩ := within_of_matched hmatch hbuild
    have hlarge : max 1 maxBytes ≤ maxSize := by decide
    omega
  · rw [parse_too_large maxDepth hsize] at h
    cases h

/-! ### Parsing, checking and evaluating -/

/-- Parses a text, checks it and evaluates it. -/
def run (maxDepth : Nat) (source : String) (ns : Namespace) (vars : Variables)
    (options : EvalOptions) : Checked (Except Error Value) := do
  match ← (parse maxDepth source).run with
  | .error err => return .error (.parse err)
  | .ok e =>
    match e.validate with
    | .error r => return .error (.rejected r)
    | .ok _ =>
      match e.checkCalls ns with
      | .error r => return .error (.rejected r)
      | .ok _ => return (← evaluate e ns vars options).mapError .evaluation

/-! ### Namespaces of the library -/

theorem ofLibrary_of_build {m : Module} {selection : BuiltinSelection} {ns : Namespace}
    (hm : m.bindings.Holds InLibrary) (h : Namespace.build m selection = .ok ns) : OfLibrary ns :=
  Namespace.holds_of_build hm (fun _ hf => List.mem_append_left _ hf) h

theorem mathModule_inLibrary : mathModule.bindings.Holds InLibrary :=
  mathModule_holds (fun _ => trivial) fun _ hf => List.mem_append_right _ hf

/-! ### Whole runs -/

section Runs

variable {maxDepth : Nat} {source : String} {ns : Namespace}

theorem compile_of_parse {e : Expr} (hparse : parseWith maxDepth source = .ok e) :
    Compiled.compile source ns maxDepth = (do
      e.validate.mapError .rejected
      (e.checkCalls ns).mapError .rejected
      return { source := source, expr := e, bound := ns, referenced := e.references ns }) := by
  rw [Compiled.compile, hparse]
  rfl

theorem evaluate_gives_of_parse (hlibrary : OfLibrary ns) {e : Expr}
    (hparse : (parse maxDepth source).run = .ok (.ok e)) (vars : Variables)
    (options : EvalOptions) :
    Gives (evaluate e ns vars options) (SafeExpr.evaluate e ns vars options).result := by
  obtain ⟨hdepth, hnodes⟩ := within_of_parse hparse
  exact evaluate_gives hlibrary hdepth hnodes vars options

/-- A run comes to what compiling the text and evaluating it come to. -/
theorem run_gives (hlibrary : OfLibrary ns) (vars : Variables) (options : EvalOptions) :
    Gives (run maxDepth source ns vars options) (do
      let c ← Compiled.compile source ns maxDepth
      (c.evaluate vars options).result.mapError .evaluation) := by
  rw [run]
  rcases parse_gives maxDepth source with hrun | hrun
  · rw [hrun]
    cases hparse : parseWith maxDepth source with
    | error err =>
      rw [Compiled.compile, hparse]
      exact .of_eq rfl
    | ok e =>
      rw [hparse] at hrun
      have hevaluate := evaluate_gives_of_parse hlibrary hrun vars options
      rw [compile_of_parse hparse]
      change Gives (match e.validate with
        | .error r => _
        | .ok _ => _) _
      cases e.validate with
      | error r => exact .of_eq rfl
      | ok _ =>
        cases e.checkCalls ns with
        | error r => exact .of_eq rfl
        | ok _ => exact hevaluate.bind (.of_eq rfl)
  · rw [hrun]
    exact Or.inr rfl

end Runs

/-- **The program never panics.**  With a namespace of values and library functions, every
    text is parsed, every parsed tree is evaluated, checked or not, and the whole run comes
    to what exact arithmetic and taking lists apart come to; all the memory has to do is to
    hold the texts and lists. -/
theorem run_never_panics {ns : Namespace} (hlibrary : OfLibrary ns) (maxDepth : Nat)
    (source : String) (vars : Variables) (options : EvalOptions) :
    Gives (parse maxDepth source).run (parseWith maxDepth source) ∧
    (∀ e, (parse maxDepth source).run = .ok (.ok e) →
      Gives (evaluate e ns vars options) (SafeExpr.evaluate e ns vars options).result) ∧
    Gives (run maxDepth source ns vars options) (do
      let c ← Compiled.compile source ns maxDepth
      (c.evaluate vars options).result.mapError .evaluation) ∧
    ∀ p, (parse maxDepth source).run ≠ panic p ∧ run maxDepth source ns vars options ≠ panic p ∧
      ∀ e, (parse maxDepth source).run = .ok (.ok e) → evaluate e ns vars options ≠ panic p := by
  have hparse := parse_gives maxDepth source
  have hevaluate : ∀ e, (parse maxDepth source).run = .ok (.ok e) →
      Gives (evaluate e ns vars options) (SafeExpr.evaluate e ns vars options).result :=
    fun _ h => evaluate_gives_of_parse hlibrary h vars options
  have hrun : Gives (run maxDepth source ns vars options) _ := run_gives hlibrary vars options
  refine ⟨hparse, hevaluate, hrun, fun p => ⟨hparse.ne_panic p, hrun.ne_panic p, ?_⟩⟩
  exact fun e h => (hevaluate e h).ne_panic p

/-- A power of a negative number by a modulus, which a machine takes in steps. -/
theorem run_never_panics_power :
    let power := Library.native "pow"
      { params := [⟨"base", .required⟩, ⟨"exp", .required⟩, ⟨"mod", .optional⟩] }
      (Builtins.ternary "pow" Builtins.pow)
    let ns : Namespace := ⟨Table.insert {} "pow" (.function power), []⟩
    let vars : Variables := Table.insert {} "n" (.int 3)
    OfLibrary ns ∧
      (∃ v, run 8 "pow(-7, n, 0x5)" ns vars {} = .ok (.ok v) ∧ v.asInt = some 2) ∧
      ∀ p, run 8 "pow(-7, n, 0x5)" ns vars {} ≠ panic p := by
  intro power ns vars
  have hlibrary : OfLibrary ns := by
    refine .insert .empty "pow" ?_
    simp [InLibrary, builtins, power]
  have hcomputes : ((run 8 "pow(-7, n, 0x5)" ns vars {}).toOption.bind fun r =>
      r.toOption.bind Value.asInt) = some 2 := by
    decide +kernel
  obtain ⟨r, hr, hv⟩ := Option.bind_eq_some_iff.mp hcomputes
  obtain ⟨v, hv, hint⟩ := Option.bind_eq_some_iff.mp hv
  rw [Except.toOption_eq_some_iff] at hr hv
  refine ⟨hlibrary, ⟨v, hv ▸ hr, hint⟩, fun p => ?_⟩
  exact ((run_never_panics hlibrary 8 "pow(-7, n, 0x5)" vars {}).2.2.2 p).2.1

end SafeExpr.Machine
