/-
  SafeExpr/Proofs/Parse/Applied.lean
  ==================================
  **Reading back calls, subscripts and members.**

  Inside of a call, what begins like an expression may be the name of a keyword, and what is
  an expression might go on as a comprehension; inside of a subscript it may be the lower
  bound of a slice.  What stands behind the expression decides: an equals sign, a `for`, a
  colon, or none of them.
-/
import SafeExpr.Proofs.Parse.Comprehension

namespace SafeExpr

open Grammar
open Pattern (lit oneOf)

/-! ### Arguments -/

/-- The node of an argument. -/
inductive ArgumentMeans : Argument Expr → Tree Rule → Prop
  | plain {e : Expr} {t : Tree Rule} (he : e.isExpression = true) (h : Means e t) :
    ArgumentMeans (.positional e) t
  | starred {s : Span} {x : Expr} {v : Tree Rule} (span : Span) (h : Means x v) :
    ArgumentMeans (.positional (.starred s false x)) (.node .starred span [v])
  | doubleStarred {s : Span} {x : Expr} {v : Tree Rule} (span : Span) (h : Means x v) :
    ArgumentMeans (.positional (.starred s true x)) (.node .doubleStarred span [v])
  | keyword {s : Span} {n : String} {e : Expr} {v : Tree Rule} (span span' : Span)
    (h : Means e v) :
    ArgumentMeans (.keyword s n e) (.node .keywordArg span [.leaf .ident span' n.toList, v])

def argumentRules : List Rule := [.doubleStarred, .starred, .keywordArg, .expression]

theorem argument_eq : argument = oneOf (argumentRules.map .rule) := rfl

theorem Legible.listed_argument {e : Expr} (h : Legible e) :
    Listed argument e.chars (Means e) where
  starts := h.listed.starts
  reads {rest more} hstops := by
    have hopens := h.opens hstops.cut.word
    have hkeyword := h.headed.keywordArg_fails hstops.cut.word hstops.skips hstops.equals
    rw [argument_eq]
    exact eats_oneOf_except [.keywordArg] (by decide) hopens.begins (by decide) (by decide)
      (fun q hq => List.mem_singleton.mp hq ▸ hkeyword) (h.reads hstops)

theorem listed_stars (s : Span) (double : Bool) {x : Expr} (hx : Legible x) :
    Listed argument (Expr.starred s double x).chars
      (ArgumentMeans (.positional (.starred s double x))) := by
  rw [Expr.chars_starred]
  cases double with
  | true =>
    refine ⟨fun _ => begins_cons List.mem_cons_self _, fun {rest more} hstops => ?_⟩
    refine (Eats.choice (eats_starred ['*', '*'] rfl rfl hx hstops)).imp ?_
    rintro _ ⟨_, rfl, span, _, rfl, v, rfl, hv⟩
    exact ⟨_, rfl, .doubleStarred span hv⟩
  | false =>
    refine ⟨fun _ => begins_cons List.mem_cons_self _, fun {rest more} hstops => ?_⟩
    have hstar := (hx.opens hstops.cut.word).head_ne (c := '*') (by decide)
    have hstars : Fails (.text ['*', '*']) ('*' :: (x.chars ++ rest)) := by
      refine fails_text ?_
      rintro ⟨cs, heq⟩
      rw [← (List.cons.inj heq).2] at hstar
      exact hstar rfl
    have hdouble : Fails (.rule .doubleStarred) ('*' :: (x.chars ++ rest)) :=
      .rule (.seq hstars) rfl
    refine (Eats.choiceLater hdouble (.choice (eats_starred ['*'] rfl rfl hx hstops))).imp ?_
    rintro _ ⟨_, rfl, span, _, rfl, v, rfl, hv⟩
    exact ⟨_, rfl, .starred span hv⟩

theorem listed_keyword (s : Span) {n : String} {e : Expr} (hn : isName n = true)
    (he : Legible e) :
    Listed argument (Argument.keyword s n e).chars (ArgumentMeans (.keyword s n e)) := by
  have hname : ∀ cs, Opens (n.toList ++ '=' :: cs) :=
    fun cs => (headed_name hn).opens (wordEnds_cons (by decide) cs)
  constructor
  · intro rest _
    rw [Argument.chars, List.append_assoc]
    exact (hname _).begins.mono (List.subset_cons_self _ _)
  · intro rest more hstops
    have hopens := he.opens hstops.cut.word
    have hequals : Solid ('=' :: (e.chars ++ rest)) := solid_cons (by decide) _
    have hends : WordEnds ('=' :: (e.chars ++ rest)) := wordEnds_cons (by decide) _
    have hident := (takes_ident hn hends).eats rfl hequals.skips
    have hsecond : Fails (lit "=") (e.chars ++ rest) := hopens.fails (by decide)
    have hread := ((hident.seqSkip (eats_mark '=' hopens.solid.skips)).seqSkip
      (hsecond.unless hopens.solid)).seq (he.reads hstops)
    rw [Argument.chars, List.append_assoc, argument_eq]
    refine (eats_oneOf_except [] (r := .keywordArg) (by decide) (hname _).begins (by decide)
      (by decide) (List.forall_mem_nil _) (Eats.rule .keywordArg rfl hread)).imp ?_
    rintro _ ⟨_, rfl, span, _, rfl, _, _, rfl, ⟨_, rfl, span', rfl⟩, v, rfl, hv⟩
    exact ⟨_, rfl, .keyword span span' hv⟩

theorem listed_argument {arg : Argument Expr} (hfits : arg.Fits) (h : Readable arg.value) :
    Listed argument arg.chars (ArgumentMeans arg) := by
  cases arg with
  | keyword s n e => exact listed_keyword s hfits.1 (h.legible hfits.2)
  | positional e =>
    by_cases he : e.isExpression = true
    · have hlisted := (h.legible he).listed_argument
      refine ⟨hlisted.starts, fun {rest more} hstops => (hlisted.reads hstops).imp ?_⟩
      rintro _ ⟨t, rfl, ht⟩
      exact ⟨t, rfl, .plain he ht⟩
    · cases e with
      | starred s double x => exact listed_stars s double h.of_starred
      | slice | assign | statement => cases hfits
      | _ => exact absurd rfl he

theorem arguments_of_means {args : List (Argument Expr)} {ts : List (Tree Rule)}
    (h : List.Forall₂ ArgumentMeans args ts) (seen : Bool)
    (hordered : Expr.argumentsOrdered seen args = true) :
    ∃ args', Build.arguments seen ts = .ok args' ∧
      args'.map Argument.bare = args.map Argument.bare := by
  induction h generalizing seen with
  | nil => exact ⟨[], by rw [Build.arguments], rfl⟩
  | cons hfirst hrest ih =>
    cases hfirst with
    | @plain e t he h =>
      rw [Expr.argumentsOrdered_plain he, Bool.and_eq_true, Bool.not_eq_true'] at hordered
      obtain ⟨rfl, hlater⟩ := hordered
      obtain ⟨args', hargs', hbares⟩ := ih false hlater
      obtain ⟨span, parts, e', rfl, he', hbare⟩ := h
      refine ⟨.positional e' :: args', ?_, ?_⟩
      · simp only [Build.arguments, he', hargs']
        rfl
      · rw [List.map_cons, List.map_cons, hbares, Argument.bare, Argument.bare, hbare]
    | @starred s x v span h =>
      rw [Expr.argumentsOrdered, Bool.or_false] at hordered
      obtain ⟨args', hargs', hbares⟩ := ih seen hordered
      obtain ⟨span', parts, e', rfl, he', hbare⟩ := h
      refine ⟨.positional (.starred span false e') :: args', ?_, ?_⟩
      · simp only [Build.arguments, he', hargs']
        rfl
      · rw [List.map_cons, List.map_cons, hbares, Argument.bare, Argument.bare, Expr.bare, Expr.bare,
          hbare]
    | @doubleStarred s x v span h =>
      rw [Expr.argumentsOrdered, Bool.or_true] at hordered
      obtain ⟨args', hargs', hbares⟩ := ih true hordered
      obtain ⟨span', parts, e', rfl, he', hbare⟩ := h
      refine ⟨.positional (.starred span true e') :: args', ?_, ?_⟩
      · simp only [Build.arguments, he', hargs']
        rfl
      · rw [List.map_cons, List.map_cons, hbares, Argument.bare, Argument.bare, Expr.bare, Expr.bare,
          hbare]
    | @keyword s n e v span span' h =>
      rw [Expr.argumentsOrdered] at hordered
      obtain ⟨args', hargs', hbares⟩ := ih true hordered
      obtain ⟨span'', parts, e', rfl, he', hbare⟩ := h
      refine ⟨.keyword span n e' :: args', ?_, ?_⟩
      · simp only [Build.arguments, he', hargs', String.ofList_toList]
        rfl
      · rw [List.map_cons, List.map_cons, hbares, Argument.bare, Argument.bare, hbare]

/-! ### Calls -/

section Calls

variable {args : List (Argument Expr)} (hfits : ∀ arg ∈ args, arg.Fits)
  (hreadable : ∀ arg ∈ args, Readable arg.value)
include hfits hreadable

/-- No comprehension alone stands between the parentheses of a call. -/
theorem callGenerator_fails (rest : List Char) :
    Fails (.rule .callGenerator) (separated (args.map Argument.chars) ++ ')' :: rest) := by
  refine .rule ?_ rfl
  cases args with
  | nil =>
    have hexpr : Fails expr (')' :: rest) := fails_at_closing (by decide) (by decide) rest
    exact hexpr.seq
  | cons arg args =>
    have hclosing : ')' ∈ closingChars := by decide
    have hstops := stops_continued (args.map Argument.chars) hclosing rest
    rw [List.map_cons, separated, List.append_assoc]
    cases arg with
    | positional e =>
      have hfor : Fails (.rule .compFor) (continued (args.map Argument.chars) ++ ')' :: rest) :=
        fails_continued _ hclosing (by decide) rest
      have harg : e.isArgument = true := hfits _ List.mem_cons_self
      rcases expr_eats_or_fails harg (hreadable _ List.mem_cons_self) hstops with ⟨Q, hread⟩ | hfail
      · exact hread.fails hfor.seq
      · exact hfail.seq
    | keyword s n e =>
      obtain ⟨hn, he⟩ := hfits _ List.mem_cons_self
      have hlegible := (hreadable _ List.mem_cons_self).legible he
      let behind := e.chars ++ (continued (args.map Argument.chars) ++ ')' :: rest)
      have hopens : Opens behind := hlegible.opens hstops.cut.word
      have hends : Ends ('=' :: behind) ('=' :: behind) :=
        ends_mark (by decide) (by decide) (by decide) behind
      have hname := (legible_name default hn).reads_before hends
        (equals_fails (hopens.head_ne (by decide)))
      have hfor : Fails (.rule .compFor) ('=' :: behind) := fails_at (by decide) (by decide) _
      rw [Argument.chars, List.append_assoc]
      exact hname.fails hfor.seq

theorem legible_call (s : Span) {f : Expr} (hf : Legible f)
    (hordered : Expr.argumentsOrdered false args = true) : Legible (.call s f args) := by
  have hlisted : ∀ arg ∈ args, Listed argument arg.chars (ArgumentMeans arg) :=
    fun arg harg => listed_argument (hfits arg harg) (hreadable arg harg)
  refine Legible.after hf (Expr.chars_call s f args) (by simp) ?_ ?_ ?_
    (T := IsNode .callOp (List.Forall₂ ArgumentMeans args))
  · exact fun rest => cut_cons (by decide) (by decide) _
  · intro rest more _ hskip
    have hclosing : ')' ∈ closingChars := by decide
    have hsolid := solid_separated hclosing rest hlisted
    have hgenerator := callGenerator_fails hfits hreadable rest
    have hfirst := Fails.seq (q := lit ")") ((eats_mark '(' hsolid.skips).fails hgenerator)
    have hread := eats_enclosed hclosing rest '(' hlisted
      (fails_at_closing hclosing (by decide) rest) hskip
    rw [List.append_assoc]
    exact Eats.choice (Eats.rule .callOp rfl (Eats.choiceLater hfirst hread))
  · rintro us _ ⟨f', hf', hbare⟩ ⟨span, ts, rfl, hts⟩
    obtain ⟨args', hargs', hbares⟩ := arguments_of_means hts false hordered
    refine ⟨.call ⟨f'.span.start, span.stop⟩ f' args', ?_, ?_⟩
    · rw [Build.items_append, Build.items, Build.items, Build.item, hargs']
      exact .call span.stop args' hf'
    · rw [Expr.bare, Expr.bare, hbare, Expr.bareArgs_eq, Expr.bareArgs_eq, hbares]

end Calls

/-! ### Members -/

theorem legible_member (s : Span) {e : Expr} (he : Legible e) {attr : String}
    (hattr : isWord attr.toList = true) : Legible (.member s e attr) := by
  have hpoint : ∀ rest, Cut ('.' :: (attr.toList ++ rest)) := by
    intro rest
    refine ⟨wordEnds_cons (by decide) _, ?_⟩
    rintro _ ⟨⟩ d hd
    obtain ⟨a, ha, more, heq, -⟩ := begins_word hattr rest
    obtain ⟨c, hc, rfl⟩ := List.mem_map.mp ha
    have hnone : letterChars.any Char.isDigit = false := by decide
    have hletters : ∀ c ∈ letterChars, c.isDigit = false := by simpa using hnone
    rw [heq] at hd
    cases hd
    exact hletters _ hc
  have hsolid : ∀ rest, Solid (attr.toList ++ rest) :=
    fun rest => solid_of_begins (begins_word hattr rest) (by decide)
  refine Legible.after he (Expr.chars_member s e attr) (by simp) hpoint ?_ ?_
    (T := IsNode .memberOp (Single (IsToken .memberName attr.toList)))
  · intro rest more hcut hskip
    have hname : Takes (rulePattern .memberName) attr.toList rest := takes_word hattr hcut.word
    have hread := (eats_mark '.' (hsolid rest).skips).skipSeq (hname.eats rfl hskip)
    have hcall : Fails (.rule .callOp) ('.' :: (attr.toList ++ rest)) :=
      fails_at (by decide) (by decide) _
    have hsubscript : Fails (.rule .subscriptOp) ('.' :: (attr.toList ++ rest)) :=
      fails_at (by decide) (by decide) _
    exact .choiceLater hcall (.choiceLater hsubscript (Eats.rule .memberOp rfl hread))
  · rintro us _ ⟨e', he', hbare⟩ ⟨span, _, rfl, _, rfl, span', rfl⟩
    refine ⟨.member ⟨e'.span.start, span.stop⟩ e' attr, ?_, by rw [Expr.bare, Expr.bare, hbare]⟩
    have hname : Build.texts [.leaf Rule.memberName span' attr.toList] = [attr] := by
      simp [Build.texts]
    have hjoin : String.join [attr] = attr := by
      simp [String.join]
    rw [Build.items_append, Build.items, Build.items, Build.item, hname, hjoin]
    exact .member span.stop attr he'

/-! ### Subscripts -/

/-- The nodes of a bound of a slice. -/
inductive BoundMeans (r : Rule) : Option Expr → List (Tree Rule) → Prop
  | none : BoundMeans r none []
  | some {x : Expr} {v : Tree Rule} (span : Span) (h : Means x v) :
    BoundMeans r (some x) [.node r span [v]]

/-- The node of what stands in a subscript. -/
inductive IndexMeans : Expr → Tree Rule → Prop
  | plain {e : Expr} {t : Tree Rule} (h : Means e t) : IndexMeans e t
  | slice {s : Span} {lower upper step : Option Expr} {us vs ws : List (Tree Rule)} (span : Span)
    (hlower : BoundMeans .sliceLower lower us) (hupper : BoundMeans .sliceUpper upper vs)
    (hstep : BoundMeans .sliceStep step ws) :
    IndexMeans (.slice s lower upper step) (.node .slice span (us ++ vs ++ ws))

theorem eats_bound {r : Rule} {o : Option Expr} (hpattern : rulePattern r = expr)
    (hnode : isSolid r = false) (ho : ∀ x ∈ o, Legible x) {rest : List Char}
    (hstops : Stops rest rest) (hfail : Fails expr rest) :
    Eats (.optional (.rule r)) (Expr.optionChars [] o ++ rest) rest (BoundMeans r o) := by
  cases o with
  | none =>
    have hrule : Fails (.rule r) rest := .rule (hpattern ▸ hfail) hnode
    refine (hrule.optional hstops.skips.solid).imp ?_
    rintro _ rfl
    exact .none
  | some x =>
    have hread := (ho x rfl).reads hstops
    rw [← hpattern] at hread
    refine (Eats.rule r hnode hread).optional.imp ?_
    rintro _ ⟨_, rfl, span, _, rfl, v, rfl, hv⟩
    exact .some span hv

theorem solid_bound {o : Option Expr} (ho : ∀ x ∈ o, Legible x) {rest : List Char}
    (hstops : Stops rest rest) : Solid (Expr.optionChars [] o ++ rest) := by
  cases o with
  | none => exact hstops.skips.solid
  | some x => exact ((ho x rfl).opens hstops.cut.word).solid

theorem bounds_of_means {r : Rule} {o : Option Expr} {us : List (Tree Rule)}
    (h : BoundMeans r o us) (place : Option Expr → List (Tree Rule) → Built Expr)
    (hplace : ∀ span v e rest, Build.expr v = .ok e →
      place none (.node r span [v] :: rest) = place (some e) rest) (rest : List (Tree Rule)) :
    ∃ o', place none (us ++ rest) = place o' rest ∧ Expr.bareOption o' = Expr.bareOption o := by
  cases h with
  | none => exact ⟨none, rfl, rfl⟩
  | some span h =>
    obtain ⟨span', parts, e, rfl, he, hbare⟩ := h
    refine ⟨some e, hplace span _ e rest he, ?_⟩
    rw [Expr.bareOption, Expr.bareOption, hbare]

theorem slice_of_means {lower upper step : Option Expr} {us vs ws : List (Tree Rule)}
    (s span : Span) (hlower : BoundMeans .sliceLower lower us)
    (hupper : BoundMeans .sliceUpper upper vs) (hstep : BoundMeans .sliceStep step ws) :
    ∃ e, Build.bounds span none none none (us ++ vs ++ ws) = .ok e ∧
      e.bare = (Expr.slice s lower upper step).bare := by
  obtain ⟨l, hl, hlbare⟩ := bounds_of_means hlower
    (fun o ts => Build.bounds span o none none ts)
    (fun _ v e rest he => by simp only [Build.bounds, he]; rfl) (vs ++ ws)
  obtain ⟨u, hu, hubare⟩ := bounds_of_means hupper
    (fun o ts => Build.bounds span l o none ts)
    (fun _ v e rest he => by simp only [Build.bounds, he]; rfl) ws
  obtain ⟨x, hx, hxbare⟩ := bounds_of_means hstep
    (fun o ts => Build.bounds span l u o ts)
    (fun _ v e rest he => by simp only [Build.bounds, he]; rfl) []
  rw [List.append_nil] at hx
  refine ⟨.slice span l u x, ?_, by rw [Expr.bare, Expr.bare, hlbare, hubare, hxbare]⟩
  rw [List.append_assoc, hl, hu, hx, Build.bounds]

/-- Between the brackets of a subscript, behind the colon of the lower bound. -/
theorem stops_step {step : Option Expr} (hstep : ∀ x ∈ step, Legible x) (rest : List Char) :
    Stops (Expr.optionChars [':'] step ++ ']' :: rest)
      (Expr.optionChars [':'] step ++ ']' :: rest) := by
  cases step with
  | none => exact stops_mark (by simp) rest
  | some x =>
    have hclosing : Stops (']' :: rest) (']' :: rest) := stops_mark (by simp) rest
    exact stops_colon (((hstep x rfl).opens hclosing.cut.word).head_ne (by decide))

theorem eats_slice {lower upper step : Option Expr} (hlower : ∀ x ∈ lower, Legible x)
    (hupper : ∀ x ∈ upper, Legible x) (hstep : ∀ x ∈ step, Legible x) (s : Span)
    (rest : List Char) :
    Solid ((Expr.slice s lower upper step).chars ++ ']' :: rest) ∧
      Eats (.rule .slice) ((Expr.slice s lower upper step).chars ++ ']' :: rest) (']' :: rest)
        (Single (IndexMeans (.slice s lower upper step))) := by
  have hclosing : Stops (']' :: rest) (']' :: rest) := stops_mark (by simp) rest
  have hend : Fails expr (']' :: rest) := fails_at (by decide) (by decide) rest
  let behindUpper := Expr.optionChars [':'] step ++ ']' :: rest
  let behindLower := Expr.optionChars [] upper ++ behindUpper
  have hstopsUpper : Stops behindUpper behindUpper := stops_step hstep rest
  have hfailUpper : Fails expr behindUpper := by
    cases step with
    | none => exact hend
    | some x => exact fails_at (by decide) (by decide) _
  have hstopsLower : Stops (':' :: behindLower) (':' :: behindLower) := by
    refine stops_colon ?_
    cases upper with
    | none =>
      cases step with
      | none => simp [behindLower, behindUpper, Expr.optionChars]
      | some x => simp [behindLower, behindUpper, Expr.optionChars]
    | some x => exact ((hupper x rfl).opens hstopsUpper.cut.word).head_ne (by decide)
  have hfailLower : Fails expr (':' :: behindLower) := fails_at (by decide) (by decide) _
  have hfirst := eats_bound (r := .sliceLower) rfl rfl hlower hstopsLower hfailLower
  have hcolon := eats_mark ':' (solid_bound hupper hstopsUpper).skips
  have hsecond := eats_bound (r := .sliceUpper) rfl rfl hupper hstopsUpper hfailUpper
  have hthird : Eats (.optional (lit ":" ++ .optional (.rule .sliceStep))) behindUpper (']' :: rest)
      (BoundMeans .sliceStep step) := by
    cases step with
    | none =>
      have hnone : Fails (lit ":" ++ .optional (.rule .sliceStep)) (']' :: rest) :=
        .seq (fails_at (by decide) (by decide) rest)
      refine (hnone.optional hclosing.skips.solid).imp ?_
      rintro _ rfl
      exact .none
    | some x =>
      have hbound := eats_bound (r := .sliceStep) rfl rfl hstep hclosing hend
      exact ((eats_mark ':' (solid_bound hstep hclosing).skips).skipSeq hbound).optional
  have htext : (Expr.slice s lower upper step).chars ++ ']' :: rest =
      Expr.optionChars [] lower ++ ':' :: behindLower := by
    rw [Expr.chars_slice]
    simp [behindLower, behindUpper]
  rw [htext]
  refine ⟨solid_bound hlower hstopsLower, ?_⟩
  refine (Eats.rule .slice rfl (((hfirst.seqSkip hcolon).seq hsecond).seq hthird)).imp ?_
  rintro _ ⟨_, rfl, span, _, rfl, _, ws, rfl, ⟨us, vs, rfl, hus, hvs⟩, hws⟩
  exact ⟨_, rfl, .slice span hus hvs hws⟩

theorem eats_index {i : Expr} (hindex : i.isIndex = true) (h : Readable i) (rest : List Char) :
    Solid (i.chars ++ ']' :: rest) ∧
      Eats (.rule .slice ||| expr) (i.chars ++ ']' :: rest) (']' :: rest)
        (Single (IndexMeans i)) := by
  have hclosing : Stops (']' :: rest) (']' :: rest) := stops_mark (by simp) rest
  by_cases hi : i.isExpression = true
  · have hlegible := h.legible hi
    have hread := hlegible.reads hclosing
    have hcolon : Fails (lit ":") (']' :: rest) := fails_at (by decide) (by decide) rest
    have hlower := (Eats.rule .sliceLower rfl hread).optional
    refine ⟨(hlegible.opens hclosing.cut.word).solid, ?_⟩
    refine (Eats.choiceLater (.rule (.seq (.seq (hlower.fails hcolon))) rfl) hread).imp ?_
    rintro _ ⟨t, rfl, ht⟩
    exact ⟨t, rfl, .plain ht⟩
  · cases i with
    | slice s lower upper step =>
      have hparts : ∀ x ∈ lower.toList ++ upper.toList ++ step.toList, Legible x := h
      have hlower : ∀ x ∈ lower, Legible x :=
        fun x hx => hparts x (by simp [Option.mem_def.mp hx])
      have hupper : ∀ x ∈ upper, Legible x :=
        fun x hx => hparts x (by simp [Option.mem_def.mp hx])
      have hstep : ∀ x ∈ step, Legible x := fun x hx => hparts x (by simp [Option.mem_def.mp hx])
      obtain ⟨hsolid, hread⟩ := eats_slice hlower hupper hstep s rest
      exact ⟨hsolid, hread.choice⟩
    | starred | assign | statement => cases hindex
    | _ => exact absurd rfl hi

theorem legible_subscript (s : Span) {e i : Expr} (he : Legible e) (hindex : i.isIndex = true)
    (hi : Readable i) : Legible (.subscript s e i) := by
  refine Legible.after he (Expr.chars_subscript s e i) (by simp) ?_ ?_ ?_
    (T := IsNode .subscriptOp (Single (IndexMeans i)))
  · exact fun rest => cut_cons (by decide) (by decide) _
  · intro rest more _ hskip
    obtain ⟨hsolid, hinner⟩ := eats_index hindex hi rest
    have hread := ((eats_mark '[' hsolid.skips).skipSeq hinner).seqSkip (eats_mark ']' hskip)
    have hcall : Fails (.rule .callOp) ('[' :: (i.chars ++ ']' :: rest)) :=
      fails_at (by decide) (by decide) _
    rw [List.append_assoc]
    exact .choiceLater hcall (.choice (Eats.rule .subscriptOp rfl hread))
  · rintro us _ ⟨e', he', hbare⟩ ⟨span, _, rfl, t, rfl, ht⟩
    have hitem : ∃ i', Build.item (.node .subscriptOp span [t]) =
        .after span.stop (.subscript (.ok i')) ∧ i'.bare = i.bare := by
      cases ht with
      | plain h =>
        obtain ⟨span', parts, i', rfl, hi', hbare'⟩ := h
        exact ⟨i', by simp only [Build.item, hi'], hbare'⟩
      | @slice s' lower upper step _ _ _ span' hlower hupper hstep =>
        obtain ⟨i', hi', hbare'⟩ := slice_of_means s' span' hlower hupper hstep
        exact ⟨i', by simp only [Build.item, hi'], hbare'⟩
    obtain ⟨i', hitem, hbare'⟩ := hitem
    refine ⟨.subscript ⟨e'.span.start, span.stop⟩ e' i', ?_, ?_⟩
    · rw [Build.items_append, Build.items, Build.items, hitem]
      exact .subscript span.stop i' he'
    · rw [Expr.bare, Expr.bare, hbare, hbare']

end SafeExpr
