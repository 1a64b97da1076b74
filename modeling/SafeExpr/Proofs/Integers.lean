/-
  SafeExpr/Proofs/Integers.lean
  =============================
  **Integers in the text of a source, and what reads them.**

  A text that the grammar matches as an integer denotes a number.  It is parsed as the literal of
  this number, and `int` with base zero reads it as the same one; both fail if it has more than 64
  bits (`integer_literals`).  The two part at one spelling only, an underscore directly behind the
  mark of a radix, which `int` refuses.

  A negative number is no literal but a minus sign in front of one.  What the library writes of an
  integer can therefore be read as an expression for it, with one exception: the absolute value
  of the smallest integer fits no literal (`written_evaluates`).
-/
import SafeExpr.Proofs.Library.Numerals
import SafeExpr.Proofs.RoundTrip

namespace SafeExpr

open Builtins (writers writes_of_mem intFunction intFunction_mem markedUnderscore)
open Grammar (Reads Yields expression rulePattern IsLeaf IsNegative)
open Outcome (matched)

/-! ### Literals -/

theorem balanced_integerText {k : Nat} {t : List Char} {n : Nat} (h : IntegerText t n) :
    Balanced k t := balanced_of_word (List.all_eq_true.mpr h.word)

/-- The text of an integer is parsed as one token, which covers all of it. -/
theorem parseWith_integerText {t : List Char} {n maxDepth : Nat} (h : IntegerText t n)
    (hroom : 1 ≤ maxDepth) :
    parseWith maxDepth (String.ofList t) = Build.literal .integer ⟨0, byteLength t⟩ t := by
  have htext : (String.ofList t).toList = t := String.toList_ofList
  rw [parseWith_of_leaf (r := .integer) (by rw [htext]; exact Grammar.yields_integer h)
    (by rw [htext]; exact balanced_integerText h) rfl rfl hroom, htext]

/-- **Literals and `int` agree on what integers denote.**  Of a text that is an integer of the
grammar from end to end, a number that fits is parsed as its literal, and one that does not is
reported with the whole text.  `int` with base zero comes to the same number, and fails in the same
cases, except that it always fails where an underscore stands directly behind a mark. -/
theorem integer_literals {g : NativeFunction} (hg : g ∈ builtins) (hgname : g.name = "int")
    {t : List Char} {pos : Nat} {ts : List (Tree Rule)}
    (h : Reads expression true (.one (rulePattern .integer)) (.start t) (matched ⟨pos, []⟩ ts)) :
    ∃ n, IntegerText t n ∧
      (∀ m : Int64, m.toInt = n →
        parse (String.ofList t) = .ok (.literal ⟨0, byteLength t⟩ (.int m)) ∧
        (markedUnderscore t = false →
          g.Answers [.str (String.ofList t), .int 0] (.ok (.int m)))) ∧
      (Int64.maxValue.toInt < n →
        parse (String.ofList t) =
          .error ⟨.invalidNumber (String.ofList t), ⟨0, byteLength t⟩⟩ ∧
        g.Answers [.str (String.ofList t), .int 0]
          (.error { message := (Fault.notAnInteger 0 (String.ofList t)).message })) ∧
      (markedUnderscore t = true →
        g.Answers [.str (String.ofList t), .int 0]
          (.error { message := (Fault.notAnInteger 0 (String.ofList t)).message })) := by
  cases Builtins.builtins_name_inj hg intFunction_mem hgname
  obtain ⟨t', n, hinteger, hpasses⟩ := Grammar.integerText_of_reads h
  have heq : t = t' := by simpa [Cursor.start] using hpasses.rest
  subst heq
  have hparse : parse (String.ofList t) = Build.literal .integer ⟨0, byteLength t⟩ t :=
    parseWith_integerText hinteger (by decide)
  rw [Build.literal, readInteger?_of_integerText hinteger] at hparse
  have hreads : ∀ {m : Int64}, Builtins.readInt? 0 t = some m →
      intFunction.Answers [.str (String.ofList t), .int 0] (.ok (.int m)) := by
    intro m hm
    refine (Builtins.intFunction_reads (by decide) ?_).1
    rw [String.toList_ofList]
    exact hm
  have hrefuses : Builtins.readInt? 0 t = none →
      intFunction.Answers [.str (String.ofList t), .int 0]
        (.error { message := (Fault.notAnInteger 0 (String.ofList t)).message }) := by
    intro hnone
    apply Builtins.intFunction_refuses (by decide)
    rw [String.toList_ofList]
    exact hnone
  refine ⟨n, hinteger, ?_, ?_, ?_⟩
  · intro m hm
    have hfit : fitInt64 n = some m := fitInt64_eq_some_iff.mpr hm
    rw [hfit] at hparse
    refine ⟨hparse, fun hplain => hreads ?_⟩
    rw [Builtins.readInt?_of_integerText hinteger hplain, hfit]
  · intro hlarge
    have hfit : fitInt64 n = none := fitInt64_eq_none_iff.mpr (by omega)
    rw [hfit] at hparse
    refine ⟨hparse, hrefuses ?_⟩
    cases hmarked : markedUnderscore t with
    | false => rw [Builtins.readInt?_of_integerText hinteger hmarked, hfit]
    | true => exact Builtins.readInt?_of_markedUnderscore hinteger hmarked
  · intro hmarked
    exact hrefuses (Builtins.readInt?_of_markedUnderscore hinteger hmarked)

/-- The two ways to read `0x_1`. -/
example : readInteger? "0x_1".toList = some 1 ∧ Builtins.readInt? 0 "0x_1".toList = none := by
  decide

/-! ### Texts that are written -/

/-- Behind a minus sign the literal stands at the second byte. -/
theorem span_of_negative {t : List Char} {n a z : Nat} {sign span : Span} (h : IntegerText t n)
    (hlaid : Grammar.Laid ('-' :: t) a z [.node (.before .neg) sign [], .leaf .integer span t]) :
    span = ⟨1, byteLength ('-' :: t)⟩ := by
  obtain ⟨before, behind, htext, rfl⟩ := hlaid.tail.of_leaf
  have hne : t ≠ [] := by
    cases h <;> exact List.cons_ne_nil _ _
  rcases before with - | ⟨x, before⟩
  · -- an integer does not begin with a minus sign
    have hmem : '-' ∈ t := by
      cases t with
      | nil => exact absurd rfl hne
      | cons c t =>
        rw [List.nil_append, List.cons_append, List.cons.injEq] at htext
        rw [htext.1]
        exact List.mem_cons_self
    exact absurd (h.word '-' hmem) (by decide)
  · rw [List.cons_append, List.cons_append, List.cons.injEq] at htext
    obtain ⟨rfl, htext⟩ := htext
    have hlength := congrArg List.length htext
    rw [List.length_append, List.length_append] at hlength
    have hbefore : before = [] := List.length_eq_zero_iff.mp (by omega)
    subst hbefore
    rfl

/-- What is written of the smallest integer is refused for its absolute value. -/
theorem parseWith_least {t : List Char} (h : IntegerText t Int64.minValue.toInt.natAbs)
    {maxDepth : Nat} (hroom : 2 ≤ maxDepth) :
    parseWith maxDepth (String.ofList ('-' :: t)) =
      .error ⟨.invalidNumber (String.ofList t), ⟨1, byteLength ('-' :: t)⟩⟩ := by
  have htext : (String.ofList ('-' :: t)).toList = '-' :: t := String.toList_ofList
  have hyields : Yields Grammar.expr (String.ofList ('-' :: t)).toList (IsNegative t) := by
    rw [htext]
    exact Grammar.yields_negative h
  have hbalanced : Balanced 0 (String.ofList ('-' :: t)).toList := by
    rw [htext]
    exact balanced_signedText (n := Int64.minValue) h
  obtain ⟨span, tree, more, z, ⟨inner, sign, span', rfl⟩, hlaid, hparse⟩ :=
    parseWith_of_yields hyields hbalanced (Nat.zero_le maxDepth)
      (fun tree ⟨span, _, _, htree⟩ => ⟨span, _, htree⟩) (by
        rintro tree ⟨span, sign, span', rfl⟩
        exact hroom)
  obtain ⟨-, hbelow, -⟩ := hlaid.of_node
  obtain ⟨-, hparts, -⟩ := hbelow.of_node
  rw [htext] at hparts
  have hnone : fitInt64 Int64.minValue.toInt.natAbs = none := by decide
  rw [hparse, expr_negative, Build.literal, readInteger?_of_integerText h, hnone,
    span_of_negative h hparts]
  rfl

/-- **What is written of an integer is an expression for it**, against any namespace and whatever
the variables, unless it is the smallest one.  For that the absolute value is reported as a number
that fits no literal. -/
theorem written_evaluates {f : NativeFunction} (hf : f ∈ builtins)
    (hname : f.name ∈ writers.map Prod.fst) (n : Int64) (ns : Namespace) {maxDepth : Nat}
    (hroom : (Value.int n).levels ≤ maxDepth) :
    ∃ text, f.Answers [.int n] (.ok (.str text)) ∧
      (n ≠ Int64.minValue →
        ∃ c, Compiled.compile text ns maxDepth = .ok c ∧
          ∀ (vars : Variables) (options : EvalOptions), (Value.int n).levels ≤ options.maxDepth →
            (∀ limit ∈ options.maxSteps, c.expr.nodes.length ≤ limit) →
              (c.evaluate vars options).result = .ok (.int n)) ∧
      (n = Int64.minValue →
        ∃ number, text = "-" ++ number ∧ Compiled.compile text ns maxDepth =
          .error (.parse ⟨.invalidNumber number, ⟨1, byteLength text.toList⟩⟩)) := by
  obtain ⟨⟨name, base⟩, hwriter, hname⟩ := List.mem_map.mp hname
  have hpair : (f.name, base) ∈ writers := by rwa [← hname]
  obtain ⟨t, hanswer, -, hinbase⟩ := writes_of_mem hf hpair n
  have hinteger := hinbase.integerText
  refine ⟨_, hanswer, ?_, ?_⟩
  · intro hmin
    refine evaluates_of_denotes ?_ ?_ ns hroom
    · rw [String.toList_ofList]
      exact yields_signedText hmin hinteger
    · rw [String.toList_ofList]
      exact balanced_signedText hinteger
  · rintro rfl
    have hsign : signedText Int64.minValue t = '-' :: t := rfl
    refine ⟨String.ofList t, ?_, ?_⟩
    · rw [hsign, ← String.toList_inj]
      simp
    · have htwo : 2 ≤ maxDepth := hroom
      have herror := parseWith_least hinteger htwo
      rw [hsign, String.toList_ofList]
      simp only [Compiled.compile, herror]
      rfl

/-- A number and the smallest one, of which the first is read back. -/
theorem written_evaluates_hex :
    let hex := Builtins.radixFunction "hex" "0x" 16
    (∃ text, hex.Answers [.int (-255)] (.ok (.str text)) ∧
      ∃ c, Compiled.compile text clampNamespace 256 = .ok c ∧
        (c.evaluate {} {}).result = .ok (.int (-255))) ∧
    ∃ text, hex.Answers [.int Int64.minValue] (.ok (.str text)) ∧
      ∃ number, text = "-" ++ number ∧ Compiled.compile text clampNamespace 256 =
        .error (.parse ⟨.invalidNumber number, ⟨1, byteLength text.toList⟩⟩) := by
  intro hex
  have hmem : hex ∈ builtins := by simp [hex, builtins, Builtins.radixFunction]
  constructor
  · have hroom : (Value.int (-255)).levels ≤ 256 := by decide
    obtain ⟨text, hanswer, hevaluates, -⟩ :=
      written_evaluates hmem (by decide) (-255) clampNamespace hroom
    obtain ⟨c, hc, hresult⟩ := hevaluates (by decide)
    refine ⟨text, hanswer, c, hc, hresult {} {} (by decide) ?_⟩
    intro limit hlimit
    cases hlimit
  · have hroom : (Value.int Int64.minValue).levels ≤ 256 := by decide
    obtain ⟨text, hanswer, -, hleast⟩ :=
      written_evaluates hmem (by decide) Int64.minValue clampNamespace hroom
    exact ⟨text, hanswer, hleast rfl⟩

/-- The text of the smallest integer is no expression for it. -/
theorem least_not_evaluated :
    Builtins.strFunction.Answers [.int Int64.minValue] (.ok (.str "-9223372036854775808")) ∧
      ¬ ∃ c, Compiled.compile "-9223372036854775808" clampNamespace defaultMaxDepth = .ok c ∧
        (c.evaluate {} {}).result = .ok (.int Int64.minValue) := by
  constructor
  · have htext : (Value.int Int64.minValue).render = "-9223372036854775808" := by decide +kernel
    rw [NativeFunction.answers_iff [.int Int64.minValue] rfl, ← htext]
    rfl
  · rintro ⟨c, hc, -⟩
    have hnone : (parseWith defaultMaxDepth "-9223372036854775808").toOption.isSome = false := by
      decide +kernel
    obtain ⟨hparse, -⟩ := stages_of_compile hc
    rw [hparse] at hnone
    cases hnone

end SafeExpr
