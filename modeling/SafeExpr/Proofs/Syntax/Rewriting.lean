/-
  SafeExpr/Proofs/Syntax/Rewriting.lean
  =====================================
  **The text of a reworded tree.**

  If a rewriting of texts does to the text of every name and constant what a rewording of trees
  does to the name or constant, it does so to the text of every tree (`rewrites_chars`).  A part
  of a text can be rewritten on its own where a token ends behind it (`Rewrites`), and stands
  behind another part if it begins with what ends a token (`Joins`).
-/
import SafeExpr.Proofs.Syntax.Render
import SafeExpr.Proofs.Syntax.Reworded
import SafeExpr.Proofs.Text.Rewriting

namespace SafeExpr

namespace Rewriting

variable {f : Rewriting} {cs cs' ds ds' : List Char}

/-! ### Part by part -/

/-- The one text is rewritten as the other, wherever tokens end behind it. -/
def Rewrites (f : Rewriting) (cs ds : List Char) : Prop :=
  ∀ rest, f.Breaks rest → f.run (cs ++ rest) = ds ++ f.run rest

/-- … and tokens end in front of it. -/
def Joins (f : Rewriting) (cs ds : List Char) : Prop :=
  f.Rewrites cs ds ∧ ∀ rest, f.Breaks rest → f.Breaks (cs ++ rest)

theorem joins_nil : f.Joins [] [] := ⟨fun _ _ => rfl, fun _ h => h⟩

theorem Rewrites.append (h : f.Rewrites cs ds) (h' : f.Joins cs' ds') :
    f.Rewrites (cs ++ cs') (ds ++ ds') := by
  intro rest hrest
  rw [List.append_assoc, h _ (h'.2 rest hrest), h'.1 rest hrest, List.append_assoc]

theorem Joins.append (h : f.Joins cs ds) (h' : f.Joins cs' ds') :
    f.Joins (cs ++ cs') (ds ++ ds') := by
  refine ⟨h.1.append h', fun rest hrest => ?_⟩
  rw [List.append_assoc]
  exact h.2 _ (h'.2 rest hrest)

theorem Rewrites.plain {c : Char} (hc : isBetween c = true) (h : f.Rewrites cs ds) :
    f.Rewrites (c :: cs) (c :: ds) := by
  intro rest hrest
  rw [List.cons_append, f.run_plain hc, h rest hrest]
  rfl

/-- A character between tokens. -/
theorem Rewrites.behind {c : Char} (hc : (isBetween c && isBreak c) = true) (h : f.Rewrites cs ds) :
    f.Joins (c :: cs) (c :: ds) := by
  rw [Bool.and_eq_true] at hc
  exact ⟨h.plain hc.1, fun rest _ => f.breaks_cons hc.2 _⟩

theorem joins_sign {c : Char} (hc : (isBetween c && isBreak c) = true) : f.Joins [c] [c] :=
  joins_nil.1.behind hc

theorem rewrites_word (hword : isWord cs = true) : f.Rewrites cs (f.word cs) :=
  fun _ hrest => f.run_word hword hrest

/-! ### Texts of several items -/

section Items

variable {α : Type} {xs : List α} {text text' : α → List Char}

theorem joins_flatMap (h : ∀ x ∈ xs, f.Joins (text x) (text' x)) :
    f.Joins (xs.flatMap text) (xs.flatMap text') := by
  induction xs with
  | nil => exact joins_nil
  | cons x xs ih =>
    rw [List.forall_mem_cons] at h
    rw [List.flatMap_cons, List.flatMap_cons]
    exact h.1.append (ih h.2)

theorem joins_continued (h : ∀ x ∈ xs, f.Rewrites (text x) (text' x)) :
    f.Joins (continued (xs.map text)) (continued (xs.map text')) := by
  rw [continued, continued, List.flatMap_map, List.flatMap_map]
  exact joins_flatMap fun x hx => ((h x hx).plain (by decide)).behind (by decide)

theorem rewrites_separated (h : ∀ x ∈ xs, f.Rewrites (text x) (text' x)) :
    f.Rewrites (separated (xs.map text)) (separated (xs.map text')) := by
  cases xs with
  | nil => exact joins_nil.1
  | cons x xs =>
    rw [List.forall_mem_cons] at h
    exact h.1.append (joins_continued h.2)

theorem rewrites_tupled (h : ∀ x ∈ xs, f.Rewrites (text x) (text' x)) :
    f.Rewrites (tupled (xs.map text)) (tupled (xs.map text')) := by
  cases xs with
  | nil => exact joins_nil.1
  | cons x xs =>
    rw [List.forall_mem_cons] at h
    refine h.1.append (Rewrites.behind (by decide) ?_)
    cases xs with
    | nil => exact joins_nil.1
    | cons y ys => exact (rewrites_separated h.2).plain (by decide)

end Items

/-! ### Operators and words of the grammar -/

/-- Behind a blank. -/
theorem Rewrites.spaced (h : f.Rewrites cs ds) : f.Joins (' ' :: cs) (' ' :: ds) :=
  h.behind (by decide)

section Brackets

variable (h : f.Rewrites cs ds)
include h

theorem Rewrites.inParens : f.Joins ('(' :: cs ++ [')']) ('(' :: ds ++ [')']) :=
  (h.behind (by decide)).append (joins_sign (by decide))

theorem Rewrites.inBrackets : f.Joins ('[' :: cs ++ [']']) ('[' :: ds ++ [']']) :=
  (h.behind (by decide)).append (joins_sign (by decide))

theorem Rewrites.inBraces : f.Joins ('\x7b' :: cs ++ ['\x7d']) ('\x7b' :: ds ++ ['\x7d']) :=
  (h.behind (by decide)).append (joins_sign (by decide))

end Brackets

/-- Two operands, and an operator between blanks. -/
theorem Rewrites.operator {op : List Char} (hl : f.Rewrites cs ds) (hop : f.Rewrites op op)
    (hr : f.Rewrites cs' ds') :
    f.Rewrites (cs ++ ' ' :: op ++ ' ' :: cs') (ds ++ ' ' :: op ++ ' ' :: ds') :=
  (hl.append hop.spaced).append hr.spaced

theorem Rewrites.behind_plain (hcs : cs.all isBetween = true) (h : f.Rewrites ds ds') :
    f.Rewrites (cs ++ ds) (cs ++ ds') := by
  induction cs with
  | nil => exact h
  | cons c cs ih =>
    rw [List.all_cons, Bool.and_eq_true] at hcs
    exact (ih hcs.2).plain hcs.1

theorem rewrites_plain (h : cs.all isBetween = true) : f.Rewrites cs cs := by
  have hcs := joins_nil.1.behind_plain (f := f) h
  rwa [List.append_nil] at hcs

/-- Nothing else is put for the words of the grammar. -/
def KeepsWords (f : Rewriting) : Prop := ∀ w ∈ reservedWords, f.word w.toList = w.toList

section Keywords

variable (hf : f.KeepsWords)
include hf

theorem rewrites_reserved {w : String} (hw : w ∈ reservedWords) : f.Rewrites w.toList w.toList := by
  have hword : ∀ w ∈ reservedWords, isWord w.toList = true := by decide
  have h := rewrites_word (f := f) (hword w hw)
  rwa [hf w hw] at h

/-- A word of the grammar between blanks. -/
theorem Rewrites.behind_keyword {w lead : String} (hw : w ∈ reservedWords)
    (hlead : lead.toList = ' ' :: (w.toList ++ [' '])) (h : f.Rewrites cs ds) :
    f.Joins (lead.toList ++ cs) (lead.toList ++ ds) := by
  have htext : ∀ es, lead.toList ++ es = ' ' :: (w.toList ++ ' ' :: es) := by
    intro es
    rw [hlead, List.cons_append, List.append_assoc]
    rfl
  rw [htext, htext]
  exact ((rewrites_reserved hf hw).append h.spaced).spaced

/-- Two operands, and a word of the grammar between blanks. -/
theorem Rewrites.keyword {w lead : String} (hw : w ∈ reservedWords)
    (hlead : lead.toList = ' ' :: (w.toList ++ [' '])) (hl : f.Rewrites cs ds)
    (hr : f.Rewrites cs' ds') :
    f.Rewrites (cs ++ lead.toList ++ cs') (ds ++ lead.toList ++ ds') := by
  rw [List.append_assoc, List.append_assoc]
  exact hl.append (hr.behind_keyword hf hw hlead)

theorem rewrites_boolOp (op : BoolOp) : f.Rewrites op.symbol.toList op.symbol.toList := by
  cases op with
  | and | or => exact rewrites_reserved hf (by decide)

theorem rewrites_compareOp (op : CompareOp) : f.Rewrites op.symbol.toList op.symbol.toList := by
  have hnot : f.Rewrites "not".toList "not".toList := rewrites_reserved hf (by decide)
  have hin : f.Rewrites "in".toList "in".toList := rewrites_reserved hf (by decide)
  have his : f.Rewrites "is".toList "is".toList := rewrites_reserved hf (by decide)
  cases op with
  | eq | ne | lt | le | gt | ge => exact rewrites_plain (by decide)
  | isIn => exact hin
  | is => exact his
  | notIn => exact hnot.append hin.spaced
  | isNot => exact his.append hnot.spaced

theorem rewrites_unaryOp (op : UnaryOp) (h : f.Rewrites cs ds) :
    f.Rewrites (op.lead ++ cs) (op.lead ++ ds) := by
  cases op with
  | neg | pos | invert => exact h.plain (by decide)
  | not => exact (rewrites_reserved hf (w := "not") (by decide)).append h.spaced

end Keywords

theorem rewrites_binaryOp (op : BinaryOp) : f.Rewrites op.symbol.toList op.symbol.toList :=
  rewrites_plain (by cases op <;> decide)

theorem rewrites_assignOp (op : AssignOp) : f.Rewrites op.symbol.toList op.symbol.toList := by
  cases op with
  | assign | matMul => exact rewrites_plain (by decide)
  | augmented op => exact rewrites_plain (by cases op <;> decide)

/-- The point in front of a member. -/
theorem joins_member (hword : isWord cs = true) : f.Joins ('.' :: cs) ('.' :: f.word cs) := by
  refine ⟨(rewrites_word hword).plain (by decide), fun rest _ => ?_⟩
  cases cs with
  | nil => cases hword
  | cons c cs =>
    rw [isWord, Bool.and_eq_true] at hword
    exact f.breaks_point (isDigit_of_isWordStart hword.1) _

end Rewriting

/-! ### Trees -/

open Rewriting

/-- What the rewriting puts for the texts of words, names and constants are the texts of what the
    rewording puts for them. -/
structure Rewriting.Follows (f : Rewriting) (g : Rewording) : Prop where
  keeps : f.KeepsWords
  word (n : String) : (g.word n).toList = f.word n.toList
  atom {a : Atom} {s : Span} : (a.expr s).Fits →
    f.Rewrites (a.expr s).chars ((g.atom a).expr s).chars

namespace Expr

variable {f : Rewriting} {g : Rewording} (h : f.Follows g)
include h

/-! ### The parts of a node -/

theorem rewrites_words {n : String} (hn : isWord n.toList = true) :
    f.Rewrites n.toList (g.word n).toList := by
  rw [h.word]
  exact rewrites_word hn

theorem rewrites_names {names : List String} (hnames : ∀ n ∈ names, isName n = true) :
    f.Rewrites (nameChars names) (nameChars (names.map g.word)) := by
  rw [nameChars_eq, nameChars_eq, List.map_map]
  refine rewrites_separated fun n hn => ?_
  have hname := hnames n hn
  rw [isName, Bool.and_eq_true] at hname
  exact rewrites_words h hname.1

theorem rewrites_argument {arg : Argument Expr} (hfits : arg.Fits)
    (hvalue : f.Rewrites arg.value.chars (arg.value.reworded g).chars) :
    f.Rewrites arg.chars (arg.mapParts id g.word (reworded g)).chars := by
  cases arg with
  | positional e => exact hvalue
  | keyword s n e =>
    have hname := hfits.1
    rw [isName, Bool.and_eq_true] at hname
    exact (rewrites_words h hname.1).append (hvalue.behind (by decide))

omit h in
theorem joins_link {link : CompareOp × Expr} (hkeeps : f.KeepsWords)
    (hright : f.Rewrites link.2.chars (link.2.reworded g).chars) :
    f.Joins (linkText link) (linkText (link.1, link.2.reworded g)) :=
  (rewrites_compareOp hkeeps link.1).spaced.append hright.spaced

omit h in
theorem rewrites_entry {entry : Expr × Expr}
    (hkey : f.Rewrites entry.1.chars (entry.1.reworded g).chars)
    (hvalue : f.Rewrites entry.2.chars (entry.2.reworded g).chars) :
    f.Rewrites (entryText entry) (entryText (entry.1.reworded g, entry.2.reworded g)) :=
  hkey.append ((hvalue.plain (by decide)).behind (by decide))

theorem joins_clause {c : Clause Expr} (hfits : c.Fits)
    (hparts : ∀ e ∈ clauseParts c, f.Rewrites e.chars (e.reworded g).chars) :
    f.Joins (clauseText c) (clauseText (c.mapParts g.word (reworded g))) := by
  have hfor : f.Joins (" for ".toList ++ nameChars c.targets)
      (" for ".toList ++ nameChars (c.targets.map g.word)) :=
    (rewrites_names h hfits.targets).behind_keyword h.keeps (w := "for") (by decide) (by decide)
  have hin : f.Joins (" in ".toList ++ c.iter.chars) (" in ".toList ++ (c.iter.reworded g).chars) :=
    (hparts _ List.mem_cons_self).behind_keyword h.keeps (w := "in") (by decide) (by decide)
  have hconditions : f.Joins (c.conditions.flatMap conditionText)
      ((c.conditions.map (reworded g)).flatMap conditionText) := by
    rw [List.flatMap_map]
    exact joins_flatMap fun e he => (hparts e (List.mem_cons_of_mem _ he)).behind_keyword h.keeps
      (w := "if") (by decide) (by decide)
  have hall := (hfor.append hin).append hconditions
  rw [← List.append_assoc, ← List.append_assoc] at hall
  exact hall

omit h in
theorem rewrites_option {v : Option Expr}
    (hv : ∀ e ∈ v, f.Rewrites e.chars (e.reworded g).chars) :
    f.Rewrites (optionChars [] v) (optionChars [] (v.map (reworded g))) := by
  cases v with
  | none => exact joins_nil.1
  | some e => exact hv e rfl

omit h in
theorem joins_option {blanks : List Char} (hblanks : blanks.all isBetween = true) {v : Option Expr}
    (hv : ∀ e ∈ v, f.Rewrites e.chars (e.reworded g).chars) :
    f.Joins (optionChars (':' :: blanks) v) (optionChars (':' :: blanks) (v.map (reworded g))) := by
  cases v with
  | none => exact joins_nil
  | some e => exact ((hv e rfl).behind_plain hblanks).behind (by decide)

/-! ### Node by node -/

theorem rewrites_node {e : Expr} (hatom : e.atom? = none) (hfits : e.Fits)
    (hparts : ∀ c ∈ e.children, f.Rewrites c.chars (c.reworded g).chars) :
    f.Rewrites e.chars (e.mapParts id g.word (reworded g)).chars := by
  cases e with
  | literal | name => cases hatom
  | paren s e => exact hparts e (by simp [children])
  | unary s op e =>
    rw [mapParts, chars_unary, chars_unary]
    exact (rewrites_unaryOp h.keeps op (hparts e (by simp [children]))).inParens.1
  | binary s op l r =>
    rw [mapParts, chars_binary, chars_binary]
    exact ((hparts l (by simp [children])).operator (rewrites_binaryOp op)
      (hparts r (by simp [children]))).inParens.1
  | boolOp s op l r =>
    rw [mapParts, chars_boolOp, chars_boolOp]
    exact ((hparts l (by simp [children])).operator (rewrites_boolOp h.keeps op)
      (hparts r (by simp [children]))).inParens.1
  | named s l r =>
    rw [mapParts, chars_named, chars_named]
    exact ((hparts l (by simp [children])).operator (rewrites_plain (by decide))
      (hparts r (by simp [children]))).inParens.1
  | assign s op l r =>
    rw [mapParts, chars_assign, chars_assign]
    exact (hparts l (by simp [children])).operator (rewrites_assignOp op)
      (hparts r (by simp [children]))
  | compare s l links =>
    rw [mapParts, chars_compare, chars_compare, List.flatMap_map]
    have hlinks : ∀ link ∈ links,
        f.Joins (linkText link) (linkText (link.1, link.2.reworded g)) := fun link hlink =>
      joins_link h.keeps (hparts link.2 (List.mem_cons_of_mem l (List.mem_map_of_mem hlink)))
    exact ((hparts l List.mem_cons_self).append (joins_flatMap hlinks)).inParens.1
  | conditional s c yes no =>
    rw [mapParts, chars_conditional, chars_conditional]
    refine (Rewrites.inParens (.keyword h.keeps (w := "else") (by decide) (by decide) ?_
      (hparts no (by simp [children])))).1
    exact .keyword h.keeps (w := "if") (by decide) (by decide) (hparts yes (by simp [children]))
      (hparts c (by simp [children]))
  | call s callee args =>
    rw [mapParts, chars_call, chars_call, List.map_map]
    have hargs : ∀ arg ∈ args, f.Rewrites arg.chars (arg.mapParts id g.word (reworded g)).chars :=
      fun arg harg => rewrites_argument h (hfits.2.2 arg harg)
        (hparts arg.value (List.mem_cons_of_mem callee (List.mem_map_of_mem harg)))
    exact (hparts callee List.mem_cons_self).append (rewrites_separated hargs).inParens
  | subscript s l r =>
    rw [mapParts, chars_subscript, chars_subscript]
    exact (hparts l (by simp [children])).append (hparts r (by simp [children])).inBrackets
  | member s e attr =>
    rw [mapParts, chars_member, chars_member, h.word]
    exact (hparts e (by simp [children])).append (joins_member hfits.2)
  | list s es =>
    rw [mapParts, chars_list, chars_list, List.map_map]
    exact (rewrites_separated hparts).inBrackets.1
  | set s es =>
    rw [mapParts, chars_set, chars_set, List.map_map]
    exact (rewrites_separated hparts).inBraces.1
  | tuple s es =>
    rw [mapParts, chars_tuple, chars_tuple, List.map_map]
    exact (rewrites_tupled hparts).inParens.1
  | dict s entries =>
    rw [mapParts, chars_dict, chars_dict, List.map_map]
    have hentries : ∀ entry ∈ entries, f.Rewrites (entryText entry)
        (entryText (entry.1.reworded g, entry.2.reworded g)) := by
      intro entry hentry
      have hpair : ∀ c ∈ [entry.1, entry.2], c ∈ (dict s entries).children :=
        fun c hc => List.mem_flatMap_of_mem hentry hc
      exact rewrites_entry (hparts _ (hpair _ List.mem_cons_self)) (hparts _ (hpair _ (by simp)))
    exact (rewrites_separated hentries).inBraces.1
  | starred s double e =>
    rw [mapParts, chars_starred, chars_starred]
    exact (hparts e (by simp [children])).behind_plain (by cases double <;> decide)
  | slice s l u t =>
    rw [mapParts, chars_slice, chars_slice]
    have hl : ∀ e ∈ l, e ∈ (slice s l u t).children := fun e he => by simp_all [children]
    have hu : ∀ e ∈ u, e ∈ (slice s l u t).children := fun e he => by simp_all [children]
    have ht : ∀ e ∈ t, e ∈ (slice s l u t).children := fun e he => by simp_all [children]
    have hbounds := (rewrites_option fun e he => hparts e (hl e he)).append
      ((rewrites_option fun e he => hparts e (hu e he)).behind (c := ':') (by decide))
    exact hbounds.append (joins_option rfl fun e he => hparts e (ht e he))
  | lambda s params e =>
    rw [mapParts, chars_lambda, chars_lambda]
    have hword : f.Rewrites "lambda".toList "lambda".toList :=
      rewrites_reserved h.keeps (by decide)
    have hparams := hword.append (rewrites_names h hfits.1).spaced
    have hbody := ((hparts e (by simp [children])).plain (c := ' ') (by decide)).behind (c := ':')
      (by decide)
    exact (hparams.append hbody).inParens.1
  | comprehension s kind e v clauses =>
    rw [mapParts, chars_comprehension, chars_comprehension, List.flatMap_map]
    obtain ⟨-, -, -, -, hclauses⟩ := hfits
    have hv : f.Joins (optionChars [':', ' '] v) (optionChars [':', ' '] (v.map (reworded g))) :=
      joins_option (by decide) fun x hx => hparts x (by simp_all [children])
    have hall : ∀ c ∈ clauses,
        f.Joins (clauseText c) (clauseText (c.mapParts g.word (reworded g))) := by
      intro c hc
      refine joins_clause h (hclauses c hc) fun x hx => hparts x ?_
      exact List.mem_cons_of_mem e (List.mem_append_right _ (List.mem_flatMap_of_mem hc hx))
    have hinner := ((hparts e List.mem_cons_self).append hv).append (joins_flatMap hall)
    cases kind with
    | list => exact hinner.inBrackets.1
    | set | dict => exact hinner.inBraces.1
    | generator => exact hinner.inParens.1
  | statement s keyword =>
    have hreserved : ∀ w ∈ statementWords, w ∈ reservedWords := by decide
    have hdots : f.Rewrites "...".toList "...".toList := rewrites_plain (by decide)
    rw [mapParts, chars_statement]
    exact (rewrites_reserved h.keeps (hreserved keyword hfits)).append hdots.spaced

/-- **The text of a reworded tree is the rewritten text.** -/
theorem rewrites_chars {e : Expr} (he : e.AllFit) : f.Rewrites e.chars (e.reworded g).chars := by
  induction e using Expr.induction with
  | step e ih =>
    cases hatom : e.atom? with
    | some a =>
      have hself := he.self
      rw [reworded_of_some hatom]
      rw [eq_expr_of_atom? hatom] at hself
      have htext := h.atom hself
      rwa [← eq_expr_of_atom? hatom] at htext
    | none =>
      rw [reworded_of_none hatom]
      exact rewrites_node h hatom he.self fun c hc => ih c hc (he.child hc)

theorem run_chars {e : Expr} (he : e.AllFit) : f.run e.chars = (e.reworded g).chars := by
  have hrun := rewrites_chars h he [] f.breaks_nil
  rwa [List.append_nil, show f.run [] = [] from rfl, List.append_nil] at hrun

end Expr

end SafeExpr
