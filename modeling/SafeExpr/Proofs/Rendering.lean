/-
  SafeExpr/Proofs/Rendering.lean
  ==============================
  **What the text of a tree tells.**

  Parsed trees have the same text just when they are the same tree, spans and grouping parentheses
  aside; but an infinite fraction, which no literal can spell, is written as the name `inf` is
  (`same_text_iff`).  Without infinite fractions the text tells the tree (`same_text_iff_same_tree`).

  The grammar cannot read all texts back.  So quoted texts and fractions become names first, in the
  text as in the tree (`Rewriting.naming`), and the text that is left is read as one tree only.
-/
import SafeExpr.Proofs.Reparse
import SafeExpr.Proofs.Syntax.Naming

namespace SafeExpr

namespace Expr

/-! ### What is not in the text -/

section MapParts

variable (place : Span → Span) {g : Expr → Expr} {e : Expr}

theorem texts_map (es : List Expr) (h : ∀ e ∈ es, (g e).chars = e.chars) :
    (es.map g).map chars = es.map chars := by
  rw [List.map_map]
  exact List.map_congr_left h

theorem optionChars_map (lead : List Char) {v : Option Expr}
    (h : ∀ e ∈ v, (g e).chars = e.chars) : optionChars lead (v.map g) = optionChars lead v := by
  cases v with
  | none => rfl
  | some e => exact congrArg (lead ++ ·) (h e rfl)

theorem clauseText_mapParts {c : Clause Expr} (h : ∀ e ∈ clauseParts c, (g e).chars = e.chars) :
    clauseText (c.mapParts id g) = clauseText c := by
  have hconditions : ∀ e ∈ c.conditions, conditionText (g e) = conditionText e :=
    fun e he => congrArg (" if ".toList ++ ·) (h e (List.mem_cons_of_mem _ he))
  have htext : ∀ c : Clause Expr, clauseText c = " for ".toList ++ nameChars c.targets ++
      " in ".toList ++ c.iter.chars ++ c.conditions.flatMap conditionText := fun _ => rfl
  rw [htext, htext, Clause.mapParts, List.map_id, List.flatMap_map, List.flatMap_congr hconditions,
    h _ List.mem_cons_self]

/-- The text of a node is made of the texts of its parts. -/
theorem chars_mapParts (h : ∀ c ∈ e.children, (g c).chars = c.chars) :
    (e.mapParts place id g).chars = e.chars := by
  cases e with
  | literal | name | statement => rfl
  | paren s e => exact h e (by simp [children])
  | unary s op e => rw [mapParts, chars_unary, chars_unary, h e (by simp [children])]
  | starred s double e => rw [mapParts, chars_starred, chars_starred, h e (by simp [children])]
  | member s e attr => rw [mapParts, chars_member, chars_member, h e (by simp [children]), id]
  | lambda s params e =>
    rw [mapParts, chars_lambda, chars_lambda, h e (by simp [children]), List.map_id]
  | binary s op l r =>
    rw [mapParts, chars_binary, chars_binary, h l (by simp [children]), h r (by simp [children])]
  | boolOp s op l r =>
    rw [mapParts, chars_boolOp, chars_boolOp, h l (by simp [children]), h r (by simp [children])]
  | named s l r =>
    rw [mapParts, chars_named, chars_named, h l (by simp [children]), h r (by simp [children])]
  | assign s op l r =>
    rw [mapParts, chars_assign, chars_assign, h l (by simp [children]), h r (by simp [children])]
  | subscript s l r =>
    rw [mapParts, chars_subscript, chars_subscript, h l (by simp [children]),
      h r (by simp [children])]
  | conditional s c yes no =>
    rw [mapParts, chars_conditional, chars_conditional, h yes (by simp [children]),
      h c (by simp [children]), h no (by simp [children])]
  | compare s l links =>
    have hlinks : ∀ link ∈ links, linkText (link.1, g link.2) = linkText link := by
      intro link hlink
      rw [linkText, linkText, h link.2 (List.mem_cons_of_mem l (List.mem_map_of_mem hlink))]
    rw [mapParts, chars_compare, chars_compare, h l List.mem_cons_self, List.flatMap_map,
      List.flatMap_congr hlinks]
  | call s callee args =>
    have hargs : ∀ arg ∈ args, (arg.mapParts place id g).chars = arg.chars := by
      intro arg harg
      have hvalue := h arg.value (List.mem_cons_of_mem callee (List.mem_map_of_mem harg))
      cases arg with
      | positional e => exact hvalue
      | keyword s n e => exact congrArg (n.toList ++ '=' :: ·) hvalue
    rw [mapParts, chars_call, chars_call, h callee List.mem_cons_self, List.map_map]
    exact congrArg (fun texts => _ ++ '(' :: (separated texts ++ [')'])) (List.map_congr_left hargs)
  | list s es => rw [mapParts, chars_list, chars_list, texts_map es h]
  | tuple s es => rw [mapParts, chars_tuple, chars_tuple, texts_map es h]
  | set s es => rw [mapParts, chars_set, chars_set, texts_map es h]
  | dict s entries =>
    have hentries : ∀ entry ∈ entries, entryText (g entry.1, g entry.2) = entryText entry := by
      intro entry hentry
      have hpair : ∀ c ∈ [entry.1, entry.2], c ∈ (dict s entries).children :=
        fun c hc => List.mem_flatMap_of_mem hentry hc
      rw [entryText, entryText, h _ (hpair _ List.mem_cons_self), h _ (hpair _ (by simp))]
    rw [mapParts, chars_dict, chars_dict, List.map_map]
    exact congrArg (fun texts => '\x7b' :: separated texts ++ ['\x7d'])
      (List.map_congr_left hentries)
  | slice s l u t =>
    rw [mapParts, chars_slice, chars_slice, optionChars_map _ fun e he => h e (by simp_all [children]),
      optionChars_map _ fun e he => h e (by simp_all [children]),
      optionChars_map _ fun e he => h e (by simp_all [children])]
  | comprehension s kind e v clauses =>
    have hclauses : ∀ c ∈ clauses, clauseText (c.mapParts id g) = clauseText c := by
      intro c hc
      refine clauseText_mapParts fun x hx => h x ?_
      exact List.mem_cons_of_mem e (List.mem_append_right _ (List.mem_flatMap_of_mem hc hx))
    rw [mapParts, chars_comprehension, chars_comprehension, h e List.mem_cons_self,
      optionChars_map _ fun x hx => h x (by simp_all [children]), List.flatMap_map,
      List.flatMap_congr hclauses]

end MapParts

/-- Spans and grouping parentheses are not in the text. -/
theorem chars_bare (e : Expr) : e.bare.chars = e.chars := by
  induction e using Expr.induction with
  | step e ih =>
    cases hparen : e.isParen with
    | true =>
      cases e with
      | paren s inner => exact ih inner (List.mem_singleton_self inner)
      | _ => cases hparen
    | false =>
      rw [bare_of_not_paren hparen]
      exact chars_mapParts _ ih

theorem chars_atom_seen {a : Atom} {s : Span} (h : (a.expr s).Fits) :
    (a.seen.expr s).chars = (a.expr s).chars := by
  cases a with
  | name n => rfl
  | constant v =>
    cases v with
    | none | bool | int | str => rfl
    | float x =>
      rw [Atom.seen]
      split
      · next hinfinite =>
        have hchars : (Atom.expr s (.constant (.float x))).chars = (x.render .literal).toList := rfl
        rw [hchars, Double.render_infinite h.1 hinfinite]
        rfl
      · rfl

theorem AllFit.atom {e n : Expr} {a : Atom} (h : e.AllFit) (hn : n ∈ e.nodes)
    (hatom : n.atom? = some a) : (a.expr n.span).Fits := by
  have hfits := h n hn
  rwa [eq_expr_of_atom? hatom] at hfits

/-- An infinite fraction is written as the name `inf`. -/
theorem chars_seen {e : Expr} (h : e.AllFit) : (e.reworded .seen).chars = e.chars := by
  induction e using Expr.induction with
  | step e ih =>
    cases hatom : e.atom? with
    | some a =>
      rw [reworded_of_some hatom, Rewording.seen, chars_atom_seen (h.atom e.mem_nodes_self hatom),
        ← eq_expr_of_atom? hatom]
    | none =>
      rw [reworded_of_none hatom]
      exact chars_mapParts id fun c hc => ih c hc (h.child hc)

end Expr

/-! ### What is in the text -/

namespace Rewording

/-- What is shown of an atom with the name, if there is one. -/
noncomputable def shown (b : Atom) : Atom := by
  classical
  exact if h : ∃ a s, (Atom.expr s a).Fits ∧ a.named = b then (Classical.choose h).seen else b

theorem shown_named {a : Atom} {s : Span} (h : (a.expr s).Fits) : shown a.named = a.seen := by
  have hsome : ∃ a' s, (Atom.expr s a').Fits ∧ a'.named = a.named := ⟨a, s, h, rfl⟩
  obtain ⟨s', hfits, hnamed⟩ := Classical.choose_spec hsome
  rw [shown, dif_pos hsome]
  exact Atom.seen_of_named hfits h hnamed

/-- From the names back to what they were put for. -/
noncomputable def unnaming : Rewording := ⟨Function.invFun naming.word, shown⟩

theorem unnaming_word (n : String) : unnaming.word (naming.word n) = n :=
  Function.leftInverse_invFun naming_word_injective n

end Rewording

namespace Expr

open Rewording (naming seen unnaming)

theorem reworded_unnaming {e : Expr} (h : e.AllFit) :
    (e.reworded naming).reworded unnaming = e.reworded seen := by
  rw [reworded_reworded]
  refine reworded_congr (funext Rewording.unnaming_word) fun n hn a hatom => ?_
  exact Rewording.shown_named (h.atom hn hatom)

/-- The named tree tells the tree. -/
theorem bare_seen_of_naming {e e' : Expr} (he : e.AllFit) (he' : e'.AllFit)
    (h : (e.reworded naming).bare = (e'.reworded naming).bare) :
    e.bare.reworded seen = e'.bare.reworded seen := by
  have hback := congrArg (reworded unnaming) h
  rwa [← bare_reworded, ← bare_reworded, reworded_unnaming he, reworded_unnaming he',
    bare_reworded, bare_reworded] at hback

/-- The text without quoted texts and fractions is read as the tree without them. -/
theorem readsAs_naming {e : Expr} (hplace : e.isSource = true) (h : e.AllFit) :
    ReadsAs (e.reworded naming) (Rewriting.naming.run e.chars) := by
  rw [run_chars Rewriting.follows_naming h]
  refine readsAs_of_fits (by rwa [isSource_reworded])
    (allFit_reworded Rewording.proper_naming h) fun n hn => ?_
  rw [nodes_reworded] at hn
  obtain ⟨m, -, rfl⟩ := List.mem_map.mp hn
  exact isSimple_reworded Rewording.proper_naming m

end Expr

/-- A text is read as one tree only. -/
theorem ReadsAs.unique {e e' : Expr} {cs : List Char} (h : ReadsAs e cs) (h' : ReadsAs e' cs) :
    e.bare = e'.bare := by
  obtain ⟨tree, x, hmatch, hbuild, hbare⟩ := h
  obtain ⟨tree', x', hmatch', hbuild', hbare'⟩ := h'
  cases hmatch.symm.trans hmatch'
  cases hbuild.symm.trans hbuild'
  exact hbare.symm.trans hbare'

section Parsed

variable {maxDepth maxDepth' : Nat} {source source' : String} {e e' : Expr}

/-- **Parsed trees with the same text differ in spans and parentheses only**, and in that one may have
    an infinite fraction where the other has the name `inf`. -/
theorem same_text_iff (h : parseWith maxDepth source = .ok e)
    (h' : parseWith maxDepth' source' = .ok e') :
    e.render = e'.render ↔ e.bare.reworded .seen = e'.bare.reworded .seen := by
  obtain ⟨hplace, hfits⟩ := parseWith_fits h
  obtain ⟨hplace', hfits'⟩ := parseWith_fits h'
  rw [Expr.render, Expr.render, String.ofList_inj]
  constructor
  · intro htext
    have hread := Expr.readsAs_naming hplace hfits
    rw [htext] at hread
    exact Expr.bare_seen_of_naming hfits hfits'
      (hread.unique (Expr.readsAs_naming hplace' hfits'))
  · intro hsame
    rw [← Expr.bare_reworded, ← Expr.bare_reworded] at hsame
    have hchars := congrArg Expr.chars hsame
    rwa [Expr.chars_bare, Expr.chars_bare, Expr.chars_seen hfits, Expr.chars_seen hfits'] at hchars

/-- A literal out of range, and the name that its text is. -/
example : ["1e999", "inf"].map (fun source => (parseWith 8 source).toOption.map Expr.render) =
    [some "inf", some "inf"] := by
  decide +kernel

/-- No fraction of the tree is infinite. -/
def Expr.IsFinite (e : Expr) : Prop :=
  ∀ n ∈ e.nodes, ∀ x, n.atom? = some (.constant (.float x)) → x.isInfinite = false

theorem Expr.IsFinite.bare_seen (h : e.IsFinite) : e.bare.reworded .seen = e.bare := by
  have hsame : e.reworded .seen = e.reworded ⟨id, id⟩ := by
    refine Expr.reworded_congr rfl fun n hn a hatom => ?_
    cases a with
    | name n => rfl
    | constant v =>
      cases v with
      | none | bool | int | str => rfl
      | float x =>
        have hx := h n hn x hatom
        exact if_neg (by simp [hx])
  rw [← Expr.bare_reworded, hsame, Expr.reworded_id]

/-- **The text tells the tree**, spans and grouping parentheses aside, where no fraction is infinite. -/
theorem same_text_iff_same_tree (h : parseWith maxDepth source = .ok e)
    (h' : parseWith maxDepth' source' = .ok e') (hfinite : e.IsFinite) (hfinite' : e'.IsFinite) :
    e.render = e'.render ↔ e.bare = e'.bare := by
  rw [same_text_iff h h', hfinite.bare_seen, hfinite'.bare_seen]

end Parsed

end SafeExpr
