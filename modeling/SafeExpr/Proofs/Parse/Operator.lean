/-
  SafeExpr/Proofs/Parse/Operator.lean
  ===================================
  **Each operator is read back from its spelling.**

  The operators between expressions are tried in a fixed order, and several begin alike.
  What follows an operator in a rendered text, a blank and an expression or the equals sign
  of an assignment, decides which one is read.
-/
import SafeExpr.Parse.Build
import SafeExpr.Proofs.Grammar.Opening
import SafeExpr.Proofs.Syntax.Render

namespace SafeExpr

open Grammar

/-- The node stands for this item of a flat expression. -/
def Makes (i : Item) (t : Tree Rule) : Prop := Build.item t = i

/-! ### Keywords -/

theorem takes_single_word {w : String} (hw : w.toList.all isWordChar = true) {rest : List Char}
    (hrest : WordEnds rest) : Takes (word w) w.toList rest := by
  have hwords : Separate [w] := by
    constructor
    · exact List.forall_mem_singleton.mpr hw
    · simp
  exact takes_anyWord_of_mem hwords (List.mem_singleton_self w) hrest

theorem eats_keyword (k : Keyword) {rest more : List Char} (hends : WordEnds rest)
    (hskip : Skips rest more) :
    Eats (keyword k) (k.word.toList ++ rest) more
      (Single (IsToken (.keyword k) k.word.toList)) := by
  have hchars : k.word.toList.all isWordChar = true := by cases k <;> decide
  have htakes : Takes (rulePattern (.keyword k)) k.word.toList rest :=
    takes_single_word hchars hends
  exact htakes.eats rfl hskip

theorem solid_keyword (k : Keyword) (cs : List Char) : Solid (k.word.toList ++ cs) := by
  cases k <;> exact solid_cons (by decide) _

theorem wordEnds_blank (cs : List Char) : WordEnds (' ' :: cs) := wordEnds_cons (by decide) cs

/-! ### Between two expressions -/

section Between

variable {op : Infix} {cs more : List Char}

/-- An operator that is written with signs, in front of a certain character. -/
theorem eats_signs {s : String} {next : Char} (hop : .between op ∈ infixRules)
    (hpattern : infixPattern op = .lit s) (hnode : isSolid (.between op) = false)
    (hsolid : solid ⟨s.toList ++ [next], false⟩ = true)
    (hcheck : (infixRules.takeWhile (· ≠ .between op)).all (fun q =>
      expression.decides [⟨s.toList ++ [next], false⟩] (.rule q) .fails) = true)
    (hskip : Skips (next :: cs) more) :
    Eats infixPart (s.toList ++ next :: cs) more
      (Single (Makes (.between (Build.betweenOf (.error malformed) op)))) := by
  have hbegins : Begins [⟨s.toList ++ [next], false⟩] (s.toList ++ next :: cs) :=
    begins_known cs (by simp)
  have hread : Eats (.rule (.between op)) (s.toList ++ next :: cs) more
      (Single (IsNode (.between op) Nothing)) := by
    refine Eats.rule _ hnode ?_
    rw [rulePattern, hpattern]
    exact eats_text hskip
  rw [infixPart_eq]
  refine (eats_oneOf_except [] hop hbegins ?_ ?_ (List.forall_mem_nil _) hread).imp ?_
  · simp [hsolid]
  · simpa using hcheck
  · rintro _ ⟨_, rfl, span, _, rfl, rfl⟩
    exact ⟨_, rfl, by simp [Makes, Build.item]⟩

/-- An operator that is a word. -/
theorem eats_wordOperator {w : String} (exceptions : List Rule) (hop : .between op ∈ infixRules)
    (hpattern : infixPattern op = word w) (htoken : isSolid (.between op) = true)
    (hw : w.toList.all isWordChar = true)
    (hsolid : solid ⟨w.toList ++ [' '], false⟩ = true)
    (hcheck : (infixRules.takeWhile (· ≠ .between op)).all (fun q => exceptions.contains q ||
      expression.decides [⟨w.toList ++ [' '], false⟩] (.rule q) .fails) = true)
    (hfail : ∀ q ∈ exceptions, Fails (.rule q) (w.toList ++ ' ' :: cs)) (hskip : Skips cs more) :
    Eats infixPart (w.toList ++ ' ' :: cs) more
      (Single (Makes (.between (Build.betweenOf (.error malformed) op)))) := by
  have hbegins : Begins [⟨w.toList ++ [' '], false⟩] (w.toList ++ ' ' :: cs) :=
    begins_known cs (by simp)
  have htakes : Takes (rulePattern (.between op)) w.toList (' ' :: cs) := by
    rw [rulePattern, hpattern]
    exact takes_single_word hw (wordEnds_blank cs)
  rw [infixPart_eq]
  refine (eats_oneOf_except exceptions hop hbegins ?_ hcheck hfail
    (htakes.eats htoken hskip.blank)).imp ?_
  · simp [hsolid]
  · rintro _ ⟨_, rfl, span, rfl⟩
    exact ⟨_, rfl, by simp [Makes, Build.item]⟩

/-- Two keywords with a blank between them. -/
theorem eats_twoWords (k k' : Keyword) (hop : .between op ∈ infixRules)
    (hpattern : infixPattern op = keyword k ++ keyword k') (hnode : isSolid (.between op) = false)
    (hsolid : solid ⟨k.word.toList ++ [' '], false⟩ = true)
    (hcheck : (infixRules.takeWhile (· ≠ .between op)).all (fun q =>
      expression.decides [⟨k.word.toList ++ [' '], false⟩] (.rule q) .fails) = true)
    (hskip : Skips cs more) :
    Eats infixPart (k.word.toList ++ ' ' :: (k'.word.toList ++ ' ' :: cs)) more
      (Single (Makes (.between (Build.betweenOf (.error malformed) op)))) := by
  have hbegins : Begins [⟨k.word.toList ++ [' '], false⟩]
      (k.word.toList ++ ' ' :: (k'.word.toList ++ ' ' :: cs)) :=
    begins_known (k'.word.toList ++ ' ' :: cs) (by simp)
  have hfirst := eats_keyword k (wordEnds_blank (k'.word.toList ++ ' ' :: cs))
    (solid_keyword k' _).skips.blank
  have hread := hfirst.seq (eats_keyword k' (wordEnds_blank cs) hskip.blank)
  rw [infixPart_eq]
  refine (eats_oneOf_except [] hop hbegins ?_ ?_ (List.forall_mem_nil _)
    (Eats.rule (.between op) hnode (by rw [rulePattern, hpattern]; exact hread))).imp ?_
  · simp [hsolid]
  · simpa using hcheck
  · rintro _ ⟨_, rfl, span, _, rfl, _, _, rfl, ⟨t, rfl, ht⟩, t', rfl, ht'⟩
    exact ⟨_, rfl, by simp [Makes, Build.item]⟩

end Between

/-! ### The operators of each kind -/

def BinaryOp.asInfix : BinaryOp → Infix
  | .add => .add
  | .sub => .sub
  | .mul => .mul
  | .div => .div
  | .floorDiv => .floorDiv
  | .mod => .mod
  | .pow => .pow
  | .bitAnd => .bitAnd
  | .bitOr => .bitOr
  | .bitXor => .bitXor
  | .shl => .shl
  | .shr => .shr

def CompareOp.asInfix : CompareOp → Infix
  | .eq => .eq
  | .ne => .ne
  | .lt => .lt
  | .le => .le
  | .gt => .gt
  | .ge => .ge
  | .isIn => .isIn
  | .notIn => .notIn
  | .is => .is
  | .isNot => .isNot

def BoolOp.asInfix : BoolOp → Infix
  | .and => .and
  | .or => .or

theorem betweenOf_binary (c : Built Expr) (op : BinaryOp) :
    Build.betweenOf c op.asInfix = .binary op := by
  cases op <;> rfl

theorem betweenOf_compare (c : Built Expr) (op : CompareOp) :
    Build.betweenOf c op.asInfix = .compare op := by
  cases op <;> rfl

theorem betweenOf_bool (c : Built Expr) (op : BoolOp) :
    Build.betweenOf c op.asInfix = .boolOp op := by
  cases op <;> rfl

/-- A binary operator, in front of an operand or of the equals sign that makes it an
    assignment. -/
theorem eats_binary (op : BinaryOp) {next : Char} (hnext : next ∈ [' ', '=']) {cs more : List Char}
    (hskip : Skips (next :: cs) more) :
    Eats infixPart (op.symbol.toList ++ next :: cs) more
      (Single (Makes (.between (.binary op)))) := by
  have hpattern : infixPattern op.asInfix = .lit op.symbol := by cases op <;> rfl
  rw [← betweenOf_binary (.error malformed)]
  simp only [List.mem_cons, List.not_mem_nil, or_false] at hnext
  refine eats_signs ?_ hpattern ?_ ?_ ?_ hskip
  · cases op <;> decide
  · cases op <;> rfl
  · rcases hnext with rfl | rfl <;> cases op <;> decide
  · rcases hnext with rfl | rfl <;> cases op <;> decide

section Operand

variable {cs : List Char} (h : Opens cs)
include h

theorem eats_compare (op : CompareOp) :
    Eats infixPart (op.symbol.toList ++ ' ' :: cs) cs (Single (Makes (.between (.compare op)))) := by
  have hskip := h.solid.skips
  rw [← betweenOf_compare (.error malformed)]
  cases op with
  | isIn => exact eats_wordOperator [] (by decide) rfl rfl (by decide) (by decide) (by decide) (List.forall_mem_nil _) hskip
  | is =>
    refine eats_wordOperator [.between .isNot] (by decide) rfl rfl (by decide) (by decide)
      (by decide) ?_ hskip
    intro q hq
    rw [List.mem_singleton.mp hq]
    exact .rule ((eats_keyword .is (wordEnds_blank cs) hskip.blank).fails (h.keyword_fails .not)) rfl
  | notIn => exact eats_twoWords .not .in (by decide) rfl rfl (by decide) (by decide) hskip
  | isNot => exact eats_twoWords .is .not (by decide) rfl rfl (by decide) (by decide) hskip
  | eq | ne | lt | le | gt | ge =>
    exact eats_signs (by decide) rfl rfl (by decide) (by decide) hskip.blank

theorem eats_bool (op : BoolOp) :
    Eats infixPart (op.symbol.toList ++ ' ' :: cs) cs (Single (Makes (.between (.boolOp op)))) := by
  have hskip := h.solid.skips
  rw [← betweenOf_bool (.error malformed)]
  cases op with
  | and | or =>
    exact eats_wordOperator [] (by decide) rfl rfl (by decide) (by decide) (by decide) (List.forall_mem_nil _) hskip

theorem eats_walrus :
    Eats infixPart (":=".toList ++ ' ' :: cs) cs (Single (Makes (.between .named))) := by
  have hnamed : Build.betweenOf (.error malformed) .walrus = .named := rfl
  rw [← hnamed]
  exact eats_signs (by decide) rfl rfl (by decide) (by decide) h.solid.skips.blank

end Operand

/-! ### Names -/

/-- The nodes are tokens with these texts. -/
def Named (names : List String) (ts : List (Tree Rule)) : Prop := Build.texts ts = names

theorem headed_name {n : String} (hn : isName n = true) : Headed n.toList := by
  rw [isName, Bool.and_eq_true, Bool.not_eq_true', ← Bool.not_eq_true, List.contains_iff_mem] at hn
  obtain ⟨hword, hfree⟩ := hn
  rw [← List.append_nil n.toList]
  refine .word ?_ (all_isWordChar_of_isWord hword) ?_ ?_
  · intro hnil
    rw [hnil] at hword
    cases hword
  · intro v hv heq
    rw [String.toList_inj.mp heq] at hv
    exact absurd hv hfree
  · rintro _ ⟨⟩

theorem named_cons {n : String} {names : List String} {ts : List (Tree Rule)}
    (h : Both (Single (IsToken .ident n.toList)) (Named names) ts) : Named (n :: names) ts := by
  obtain ⟨_, us, rfl, ⟨_, rfl, span, rfl⟩, hus⟩ := h
  rw [Named] at hus ⊢
  rw [← hus, List.singleton_append]
  simp [Build.texts]

section Names

variable {rest more : List Char} (hends : WordEnds rest) (hskip : Skips rest more)
  (hcomma : Fails comma more)
include hends hskip hcomma

/-- Further names, each behind a comma. -/
theorem eatsMore_names {names : List String} (hnames : ∀ n ∈ names, isName n = true) :
    ∃ mid, Skips (continued (names.map (·.toList)) ++ rest) mid ∧
      WordEnds (continued (names.map (·.toList)) ++ rest) ∧
        EatsMore (comma ++ ident) mid more (Named names) := by
  induction names with
  | nil =>
    refine ⟨more, hskip, hends, (Fails.seq hcomma).more hskip.solid |>.imp ?_⟩
    rintro _ rfl
    rfl
  | cons n names ih =>
    obtain ⟨hn, hnames⟩ := List.forall_mem_cons.mp hnames
    obtain ⟨mid, hskip', hends', hmore⟩ := ih hnames
    have htext : continued ((n :: names).map (·.toList)) ++ rest =
        ',' :: ' ' :: (n.toList ++ (continued (names.map (·.toList)) ++ rest)) := by
      simp [continued]
    rw [htext]
    have hsolid : Solid (',' :: ' ' :: (n.toList ++ (continued (names.map (·.toList)) ++ rest))) :=
      solid_cons (by decide) _
    have hname := (takes_ident hn hends').eats rfl hskip'
    have hnext := (eats_mark ',' ((headed_name hn).opens hends').solid.skips.blank).skipSeq hname
    exact ⟨_, hsolid.skips, wordEnds_cons (by decide) _,
      (EatsMore.cons hnext hmore).imp fun _ => named_cons⟩

/-- One name or more. -/
theorem eats_names {n : String} {names : List String} (hn : isName n = true)
    (hnames : ∀ n ∈ names, isName n = true) :
    Eats (ident ++ .many (comma ++ ident)) (Expr.nameChars (n :: names) ++ rest) more
      (Named (n :: names)) := by
  obtain ⟨mid, hskip', hends', hmore⟩ := eatsMore_names hends hskip hcomma hnames
  have hfirst := (takes_ident hn hends').eats rfl hskip'
  rw [Expr.nameChars_eq, List.map_cons, separated, List.append_assoc]
  exact (hfirst.seq (hmore.many hskip'.solid)).imp fun _ => named_cons

end Names

/-! ### In front of an expression -/

/-- The node stands for this operator in front of an operand. -/
def MakesBefore (op : Before) (t : Tree Rule) : Prop := ∃ start, Build.item t = .before start op

def UnaryOp.asPrefix : UnaryOp → Prefix
  | .not => .not
  | .neg => .neg
  | .pos => .pos
  | .invert => .invert

theorem eats_unary (op : UnaryOp) {cs : List Char} (h : Opens cs) :
    Eats prefixPart (op.lead ++ cs) cs (Single (MakesBefore (.unary op))) := by
  have hskip := h.solid.skips
  have hbegins : Begins [⟨op.lead, false⟩] (op.lead ++ cs) :=
    begins_known cs rfl
  have hsign : ∀ {op' : Prefix} {c : Char}, prefixPattern op' = .text [c] →
      isSolid (.before op') = false →
        Eats (.rule (.before op')) (c :: cs) cs (Single (IsNode (.before op') Nothing)) := by
    intro op' c hpattern hnode
    refine Eats.rule _ hnode ?_
    rw [rulePattern, hpattern]
    exact eats_mark c hskip
  have hread : Eats (.rule (.before op.asPrefix)) (op.lead ++ cs) cs
      (Single (MakesBefore (.unary op))) := by
    cases op with
    | not =>
      have htakes : Takes (rulePattern (.before .not)) "not".toList (' ' :: cs) :=
        takes_single_word (by decide) (wordEnds_blank cs)
      refine (htakes.eats rfl hskip.blank).imp ?_
      rintro _ ⟨_, rfl, span, rfl⟩
      exact ⟨_, rfl, span.start, by simp [Build.item, Build.beforeOf]⟩
    | neg | pos | invert =>
      refine (hsign rfl rfl).imp ?_
      rintro _ ⟨_, rfl, span, _, rfl, rfl⟩
      exact ⟨_, rfl, span.start, by simp [Build.item, Build.beforeOf, UnaryOp.asPrefix]⟩
  rw [prefixPart_eq]
  refine eats_oneOf_except [] ?_ hbegins ?_ ?_ (List.forall_mem_nil _) hread
  · cases op <;> decide
  · cases op <;> decide
  · cases op <;> decide

/-- The word, the parameters and the colon of a lambda. -/
theorem eats_lambda {params : List String} (hparams : ∀ n ∈ params, isName n = true)
    {cs : List Char} (h : Opens cs) :
    Eats prefixPart ("lambda ".toList ++ (Expr.nameChars params ++ ':' :: ' ' :: cs)) cs
      (Single (MakesBefore (.lambda params))) := by
  have hcolon : Solid (':' :: ' ' :: cs) := solid_cons (by decide) _
  have hends : WordEnds (':' :: ' ' :: cs) := wordEnds_cons (by decide) _
  have hmark := eats_mark ':' h.solid.skips.blank
  have hread : Eats (.rule (.before .lambda))
      ("lambda ".toList ++ (Expr.nameChars params ++ ':' :: ' ' :: cs)) cs
        (Single (MakesBefore (.lambda params))) := by
    cases params with
    | nil =>
      have hnone : Fails (.rule .lambdaParams) (':' :: ' ' :: cs) :=
        fails_at (by decide) (by decide) _
      have hword := eats_keyword .lambda (wordEnds_blank _) hcolon.skips.blank
      have hall := (hword.seq (hnone.optional hcolon)).seq hmark
      refine (Eats.rule (.before .lambda) rfl hall).imp ?_
      rintro _ ⟨_, rfl, span, _, rfl, _, _, rfl, ⟨_, _, rfl, ⟨t, rfl, ht⟩, rfl⟩, rfl⟩
      exact ⟨_, rfl, span.start, by simp [Build.item, Build.beforeOf, Build.lambdaParams]⟩
    | cons n names =>
      obtain ⟨hn, hnames⟩ := List.forall_mem_cons.mp hparams
      have hcomma : Fails comma (':' :: ' ' :: cs) := fails_at (by decide) (by decide) _
      have hlist := eats_names hends hcolon.skips hcomma hn hnames
      have hheaded : Solid (Expr.nameChars (n :: names) ++ ':' :: ' ' :: cs) := by
        rw [Expr.nameChars_eq, List.map_cons, separated, List.append_assoc]
        refine ((headed_name hn).opens ?_).solid
        cases names with
        | nil => exact hends
        | cons n' names => exact wordEnds_cons (by decide) _
      have hword := eats_keyword .lambda (wordEnds_blank _) hheaded.skips.blank
      have hnodes := Eats.rule .lambdaParams rfl (hlist.seqSkip (hcomma.optional hcolon))
      have hall := (hword.seq hnodes.optional).seq hmark
      refine (Eats.rule (.before .lambda) rfl hall).imp ?_
      rintro _ ⟨_, rfl, span, _, rfl, _, _, rfl,
        ⟨_, _, rfl, ⟨t, rfl, ht⟩, _, rfl, span', us, rfl, hus⟩, rfl⟩
      refine ⟨_, rfl, span.start, ?_⟩
      rw [← hus]
      simp [Build.item, Build.beforeOf, Build.lambdaParams, Tree.children]
  have hbegins : Begins [⟨"lambda ".toList, false⟩]
      ("lambda ".toList ++ (Expr.nameChars params ++ ':' :: ' ' :: cs)) :=
    begins_known _ rfl
  rw [prefixPart_eq]
  exact eats_oneOf_except [] (by decide) hbegins (by decide) (by decide) (List.forall_mem_nil _) hread

end SafeExpr
