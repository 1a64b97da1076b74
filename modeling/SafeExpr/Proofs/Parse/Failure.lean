/-
  SafeExpr/Proofs/Parse/Failure.lean
  ==================================
  **What the building of a matched tree fails with.**

  Building a tree fails with one of the flaws of its nodes, or succeeds where there are none
  (`source_fails`), whatever the order in which the parts are built.  The shapes of the nodes show
  that nothing else goes wrong, node by node up to the whole text.

  So a flaw is fatal for parsing, within the limits and beyond them (`parseWith_of_flaw`).
-/
import SafeExpr.Proofs.Machine.Build
import SafeExpr.Proofs.Parse.Fits
import SafeExpr.Proofs.Parse.Flaw
import SafeExpr.Proofs.Parse.Limit
import SafeExpr.Proofs.Parse.ReadBack

namespace SafeExpr

open Grammar (Laid Shape OfRule isSolid rulePattern)
open Machine (affix? partRules)

namespace Build

/-! ### Nodes of their shapes -/

/-- All nodes of the tree have the shapes of their rules. -/
def Formed (t : Tree Rule) : Prop :=
  ∀ r s ts, .node r s ts ∈ t.nodes → Shape (rulePattern r) ts

theorem formed_of_laid {source : List Char} {a z : Nat} {t : Tree Rule}
    (h : Laid source a z [t]) : Formed t := by
  intro r s ts hmem
  obtain ⟨a', z', hlaid⟩ := laid_of_mem_nodes h t (List.mem_singleton_self t) _ hmem
  exact hlaid.shape_node

namespace Formed

variable {t c : Tree Rule}

theorem child (h : Formed t) (hc : c ∈ t.children) : Formed c :=
  fun r s ts hmem => h r s ts (Tree.mem_nodes_of_child hc hmem)

/-- A child is a node of a rule that the node's own rule leaves. -/
theorem rule_mem (h : Formed t) (hc : c ∈ t.children) :
    c.rule ∈ Grammar.rulesOf (rulePattern t.rule) := by
  cases t with
  | leaf r s text => cases hc
  | node r s ts =>
    obtain ⟨r', hr', hrule⟩ := (h r s ts (Tree.mem_nodes_self _)).ofRules c hc
    rwa [hrule.rule_eq]

end Formed

/-- All nodes of the tree have their shapes, and building an expression among them fails with
    one of its flaws. -/
def Sound (t : Tree Rule) : Prop :=
  Formed t ∧ ∀ u ∈ t.nodes, OfRule .expression u → (expr u).FailsWith (flaws u)

namespace Sound

variable {r : Rule} {s : Span} {t c : Tree Rule} {ts : List (Tree Rule)}

theorem child (h : Sound t) (hc : c ∈ t.children) : Sound c := by
  obtain ⟨hformed, hfails⟩ := h
  constructor
  · exact hformed.child hc
  · exact fun u hu => hfails u (Tree.mem_nodes_of_child hc hu)

theorem children (h : Sound (.node r s ts)) : ∀ t ∈ ts, Sound t := fun _ => h.child

theorem shape (h : Sound (.node r s ts)) : Shape (rulePattern r) ts :=
  h.1 r s ts (Tree.mem_nodes_self _)

theorem expression (h : Sound t) (ht : OfRule .expression t) : (expr t).FailsWith (flaws t) :=
  h.2 t t.mem_nodes_self ht

/-- A node that encloses one expression and leaves no other. -/
theorem enclosed (h : Sound t) (ht : OfRule r t) (hsolid : isSolid r = false) (hr : r ≠ .callOp)
    (hshape : ∀ ts, Shape (rulePattern r) ts → ∃ v, ts = [v] ∧ OfRule .expression v) :
    ∃ s v, t = .node r s [v] ∧ (Build.expr v).FailsWith (flaws t) := by
  obtain ⟨s, ts, rfl⟩ := ht.node hsolid
  obtain ⟨v, rfl, hv⟩ := hshape ts h.shape
  refine ⟨s, v, rfl, ?_⟩
  rw [flaws_of_ne hr, List.flatMap_singleton]
  exact (h.children v (List.mem_singleton_self v)).expression hv

end Sound

/-- An expression behind a sign. -/
theorem expression_of_shape {o : String} {ts : List (Tree Rule)}
    (h : Shape (Pattern.lit o ++ Grammar.expr) ts) : ∃ v, ts = [v] ∧ OfRule .expression v := by
  obtain ⟨_, _, rfl, rfl, v, rfl, hv⟩ := h
  exact ⟨v, rfl, hv⟩

theorem grouped_of_shape {ts : List (Tree Rule)} (h : Shape (rulePattern .grouped) ts) :
    ∃ v, ts = [v] ∧ OfRule .expression v := by
  obtain ⟨_, _, rfl, hinner, rfl⟩ := h
  obtain ⟨v, rfl, hv⟩ := expression_of_shape hinner
  exact ⟨v, rfl, hv⟩

/-- The targets of a clause are names. -/
theorem flaws_targets {t : Tree Rule} (ht : Sound t) (hrule : OfRule .compTarget t) :
    flaws t = [] := by
  obtain ⟨s, ts, rfl⟩ := hrule.node rfl
  obtain ⟨first, more, rfl, hfirst, hmore⟩ := ht.shape
  rw [flaws_of_ne (by decide)]
  exact flaws_words (Grammar.idents_of_shape hfirst hmore).2 rfl (by decide)

/-- The parameters of a lambda are names. -/
theorem flaws_params {t : Tree Rule} (ht : Sound t) (hrule : OfRule .lambdaParams t) :
    flaws t = [] := by
  obtain ⟨s, ts, rfl⟩ := hrule.node rfl
  obtain ⟨_, last, rfl, ⟨first, more, rfl, hfirst, hmore⟩, hlast⟩ := ht.shape
  have hlast : last = [] := by rcases hlast with hlast | hlast <;> exact hlast
  rw [flaws_of_ne (by decide), hlast, List.append_nil]
  exact flaws_words (Grammar.idents_of_shape hfirst hmore).2 rfl (by decide)

/-! ### Lists of parts -/

theorem elements_fails {ts : List (Tree Rule)} (hts : ∀ t ∈ ts, Sound t)
    (hrules : ∀ t ∈ ts, OfRule .starred t ∨ OfRule .expression t) :
    (elements ts).FailsWith (ts.flatMap flaws) := by
  induction ts with
  | nil =>
    rw [elements]
    exact .ok
  | cons t ts ih =>
    obtain ⟨ht, hrest⟩ := List.forall_mem_cons.mp hts
    obtain ⟨hrule, hrules⟩ := List.forall_mem_cons.mp hrules
    have hrest := ih hrest hrules
    rw [List.flatMap_cons]
    rcases hrule with hrule | hrule
    · obtain ⟨s, v, rfl, hv⟩ := ht.enclosed hrule rfl (by decide) fun _ => expression_of_shape
      rw [elements]
      exact hv.bind fun e => hrest.bind_pure fun es => ⟨_, rfl⟩
    · have he := ht.expression hrule
      obtain ⟨s, parts, rfl⟩ := hrule.node rfl
      rw [elements]
      · exact he.bind fun e => hrest.bind_pure fun es => ⟨_, rfl⟩
      · intro s' v heq
        cases heq

/-- A key and a value. -/
theorem entry_fails {t : Tree Rule} (ht : Sound t) (hrule : OfRule .dictEntry t) :
    ∃ s key value, t = .node .dictEntry s [key, value] ∧ (expr key).FailsWith (flaws key) ∧
      (expr value).FailsWith (flaws value) ∧ flaws t = flaws key ++ flaws value := by
  obtain ⟨s, parts, rfl⟩ := hrule.node rfl
  obtain ⟨_, _, rfl, ⟨_, _, rfl, ⟨key, rfl, hkey⟩, rfl⟩, value, rfl, hvalue⟩ := ht.shape
  refine ⟨s, key, value, rfl, ?_, ?_, ?_⟩
  · exact (ht.children key (by simp)).expression hkey
  · exact (ht.children value (by simp)).expression hvalue
  · rw [flaws_of_ne (by decide)]
    simp

theorem entries_fails {ts : List (Tree Rule)} (hts : ∀ t ∈ ts, Sound t)
    (hrules : ∀ t ∈ ts, OfRule .dictEntry t) : (entries ts).FailsWith (ts.flatMap flaws) := by
  induction ts with
  | nil =>
    rw [entries]
    exact .ok
  | cons t ts ih =>
    obtain ⟨ht, hrest⟩ := List.forall_mem_cons.mp hts
    obtain ⟨hrule, hrules⟩ := List.forall_mem_cons.mp hrules
    have hrest := ih hrest hrules
    obtain ⟨s, key, value, rfl, hkey, hvalue, hflaws⟩ := entry_fails ht hrule
    rw [List.flatMap_cons, hflaws, entries, List.append_assoc]
    exact hkey.bind fun k => hvalue.bind fun v => hrest.bind_pure fun es => ⟨_, rfl⟩

theorem conditions_fails {ts : List (Tree Rule)} (hts : ∀ t ∈ ts, Sound t)
    (hrules : ∀ t ∈ ts, OfRule .compIf t) : (conditions ts).FailsWith (ts.flatMap flaws) := by
  induction ts with
  | nil =>
    rw [conditions]
    exact .ok
  | cons t ts ih =>
    obtain ⟨ht, hrest⟩ := List.forall_mem_cons.mp hts
    obtain ⟨hrule, hrules⟩ := List.forall_mem_cons.mp hrules
    have hrest := ih hrest hrules
    obtain ⟨s, parts, rfl⟩ := hrule.node rfl
    obtain ⟨_, _, rfl, ⟨word, rfl, hword⟩, test, rfl, htest⟩ := ht.shape
    have he := (ht.children test (by simp)).expression htest
    rw [List.flatMap_cons, flaws_of_ne (by decide), List.singleton_append, List.flatMap_cons,
      List.flatMap_singleton, flaws_word hword rfl (by decide), List.nil_append, conditions]
    exact he.bind fun e => hrest.bind_pure fun es => ⟨_, rfl⟩

theorem clauses_fails {ts : List (Tree Rule)} (hts : ∀ t ∈ ts, Sound t)
    (hrules : ∀ t ∈ ts, OfRule .compFor t) : (clauses ts).FailsWith (ts.flatMap flaws) := by
  induction ts with
  | nil =>
    rw [clauses]
    exact .ok
  | cons t ts ih =>
    obtain ⟨ht, hrest⟩ := List.forall_mem_cons.mp hts
    obtain ⟨hrule, hrules⟩ := List.forall_mem_cons.mp hrules
    have hrest := ih hrest hrules
    obtain ⟨s, parts, rfl⟩ := hrule.node rfl
    obtain ⟨_, tests, rfl, ⟨_, _, rfl, ⟨_, _, rfl, ⟨_, _, rfl, ⟨word, rfl, hword⟩,
      targets, rfl, htargets⟩, word', rfl, hword'⟩, iter, rfl, hiter⟩, htests⟩ := ht.shape
    have hchildren := ht.children
    simp only [List.cons_append, List.nil_append, List.forall_mem_cons] at hchildren
    obtain ⟨-, hsound, -, hsound', hsound''⟩ := hchildren
    have hi := hsound'.expression hiter
    have hcs := conditions_fails hsound'' (Grammar.forall_of_shape_many htests fun us hus => by
      obtain ⟨u, rfl, hu⟩ := hus
      exact List.forall_mem_singleton.mpr hu)
    have hflaws : flaws (.node .compFor s (word :: targets :: word' :: iter :: tests)) =
        flaws iter ++ tests.flatMap flaws := by
      rw [flaws_of_ne (by decide), List.flatMap_cons, List.flatMap_cons, List.flatMap_cons,
        List.flatMap_cons, flaws_word hword rfl (by decide), flaws_targets hsound htargets,
        flaws_word hword' rfl (by decide)]
      rfl
    simp only [List.cons_append, List.nil_append]
    rw [List.flatMap_cons, hflaws, clauses, List.append_assoc]
    exact hi.bind fun i => hcs.bind fun cs => hrest.bind_pure fun es => ⟨_, rfl⟩

theorem clauses_of_shape {ts : List (Tree Rule)} (h : Shape (Pattern.some (.rule .compFor)) ts) :
    ∀ t ∈ ts, OfRule .compFor t := by
  have hone : ∀ us, Shape (.rule .compFor) us → ∀ u ∈ us, OfRule .compFor u := by
    rintro _ ⟨u, rfl, hu⟩
    exact List.forall_mem_singleton.mpr hu
  obtain ⟨first, more, rfl, hfirst, hmore⟩ := h
  exact List.forall_mem_append.mpr ⟨hone _ hfirst, Grammar.forall_of_shape_many hmore hone⟩

/-- An element or an entry, and its clauses. -/
theorem comprehension_fails {r : Rule} {t : Tree Rule} {us : List (Tree Rule)}
    (hr : r = .expression ∨ r = .dictEntry) (hts : ∀ u ∈ t :: us, Sound u) (ht : OfRule r t)
    (hus : ∀ u ∈ us, OfRule .compFor u) (kind : ComprehensionKind) (s : Span) :
    (comprehension kind s (t :: us)).FailsWith ((t :: us).flatMap flaws) := by
  obtain ⟨hsound, hmore⟩ := List.forall_mem_cons.mp hts
  have hclauses := clauses_fails hmore hus
  rw [List.flatMap_cons]
  rcases hr with rfl | rfl
  · have he := hsound.expression ht
    obtain ⟨s', parts, rfl⟩ := ht.node rfl
    rw [comprehension]
    · exact he.bind fun e => hclauses.bind_pure fun cs => ⟨_, rfl⟩
    · intro s'' k v heq
      cases heq
  · obtain ⟨s', key, value, rfl, hkey, hvalue, hflaws⟩ := entry_fails hsound ht
    rw [comprehension, hflaws, List.append_assoc]
    exact hkey.bind fun k => hvalue.bind fun v => hclauses.bind_pure fun cs => ⟨_, rfl⟩

/-- A comprehension in brackets. -/
theorem Sound.comprehension {r r' : Rule} {s : Span} {ts : List (Tree Rule)} {o c : String}
    (h : Sound (.node r s ts)) (hr : r ≠ .callOp) (hr' : r' = .expression ∨ r' = .dictEntry)
    (hpattern : rulePattern r = Grammar.comprehension o c (.rule r')) (kind : ComprehensionKind) :
    (Build.comprehension kind s ts).FailsWith (flaws (.node r s ts)) := by
  have hshape := h.shape
  have hchildren := h.children
  rw [hpattern] at hshape
  obtain ⟨_, _, rfl, ⟨_, us, rfl, ⟨_, _, rfl, rfl, t, rfl, ht⟩, hus⟩, rfl⟩ := hshape
  rw [flaws_of_ne hr]
  simp only [List.nil_append, List.append_nil, List.singleton_append] at hchildren ⊢
  exact comprehension_fails hr' hchildren ht (clauses_of_shape hus) kind s

/-- The rules of the arguments of a call. -/
def IsArgumentNode (t : Tree Rule) : Prop :=
  OfRule .doubleStarred t ∨ OfRule .starred t ∨ OfRule .keywordArg t ∨ OfRule .expression t

theorem keyword_fails {t : Tree Rule} (ht : Sound t) (hrule : OfRule .keywordArg t) :
    ∃ s s' name value, t = .node .keywordArg s [.leaf .ident s' name, value] ∧
      (expr value).FailsWith (flaws t) := by
  obtain ⟨s, parts, rfl⟩ := hrule.node rfl
  obtain ⟨_, _, rfl, ⟨_, _, rfl, ⟨_, _, rfl, ⟨name, rfl, hname⟩, rfl⟩, rfl⟩, value, rfl, hvalue⟩ :=
    ht.shape
  obtain ⟨s', text, rfl⟩ := hname.leaf rfl
  refine ⟨s, s', text, value, rfl, ?_⟩
  have he := (ht.children value (by simp)).expression hvalue
  have hword : flaws (.leaf .ident s' text) = [] := flaws_word hname rfl (by decide)
  rw [flaws_of_ne (by decide)]
  simpa [hword] using he

/-- An argument in front of others, whose places are looked at before their values. -/
theorem bind_fails {α β : Type} {m : Built α} {k : α → Built β} {V P W : List ParseError}
    (hm : m.FailsWith V) (hk : ∀ a, (k a).FailsWith (P ++ W)) :
    (m >>= k).FailsWith (P ++ (V ++ W)) := by
  refine (hm.bind hk).congr fun x => ?_
  simp only [List.mem_append, or_left_comm]

theorem arguments_fails {ts : List (Tree Rule)} (hts : ∀ t ∈ ts, Sound t)
    (hrules : ∀ t ∈ ts, IsArgumentNode t) :
    ∀ seenKeyword, (arguments seenKeyword ts).FailsWith
      (misplaced seenKeyword ts ++ ts.flatMap flaws) := by
  induction ts with
  | nil =>
    intro seenKeyword
    rw [arguments]
    exact .ok
  | cons t ts ih =>
    intro seenKeyword
    obtain ⟨ht, hrest⟩ := List.forall_mem_cons.mp hts
    obtain ⟨hrule, hrules⟩ := List.forall_mem_cons.mp hrules
    have hrest := ih hrest hrules
    rw [List.flatMap_cons]
    rcases hrule with hrule | hrule | hrule | hrule
    · obtain ⟨s, v, rfl, hv⟩ := ht.enclosed hrule rfl (by decide) fun _ => expression_of_shape
      have hplaces : misplaced seenKeyword (.node .doubleStarred s [v] :: ts) =
          misplaced true ts := by simp [misplaced, Tree.rule]
      rw [arguments, hplaces]
      exact bind_fails hv fun e => (hrest true).bind_pure fun as => ⟨_, rfl⟩
    · obtain ⟨s, v, rfl, hv⟩ := ht.enclosed hrule rfl (by decide) fun _ => expression_of_shape
      have hplaces : misplaced seenKeyword (.node .starred s [v] :: ts) =
          misplaced seenKeyword ts := by simp [misplaced, Tree.rule]
      rw [arguments, hplaces]
      exact bind_fails hv fun e => (hrest seenKeyword).bind_pure fun as => ⟨_, rfl⟩
    · obtain ⟨s, s', name, v, rfl, hv⟩ := keyword_fails ht hrule
      have hplaces : misplaced seenKeyword
          (.node .keywordArg s [.leaf .ident s' name, v] :: ts) = misplaced true ts := by
        simp [misplaced, Tree.rule]
      rw [arguments, hplaces]
      exact bind_fails hv fun e => (hrest true).bind_pure fun as => ⟨_, rfl⟩
    · have he := ht.expression hrule
      obtain ⟨s, parts, rfl⟩ := hrule.node rfl
      rw [arguments]
      · cases seenKeyword with
        | true =>
          rw [if_pos rfl, misplaced, if_pos ⟨rfl, rfl⟩]
          exact .error List.mem_cons_self
        | false =>
          have hplaces : misplaced false (.node .expression s parts :: ts) =
              misplaced false ts := by simp [misplaced, Tree.rule]
          rw [if_neg Bool.false_ne_true, hplaces]
          exact bind_fails he fun e => (hrest false).bind_pure fun as => ⟨_, rfl⟩
      · intro s' ps heq
        cases heq
      · intro s' r s'' name v heq
        cases heq
      · intro s' v heq
        cases heq
      · intro s' v heq
        cases heq

/-- The arguments of a call: a single generator, or a list without one. -/
theorem call_fails {s : Span} {args : List (Tree Rule)} (h : Sound (.node .callOp s args)) :
    (arguments false args).FailsWith (flaws (.node .callOp s args)) := by
  have hchildren := h.children
  rw [flaws_node, ownFlaws, if_pos rfl]
  rcases h.shape with hgenerator | hlist
  · obtain ⟨_, _, rfl, ⟨_, _, rfl, rfl, g, rfl, hg⟩, rfl⟩ := hgenerator
    obtain ⟨s', parts, rfl⟩ := hg.node rfl
    have hsound : Sound (.node .callGenerator s' parts) := hchildren _ (by simp)
    have hparts := hsound.children
    obtain ⟨_, us, rfl, ⟨t, rfl, ht⟩, hus⟩ := hsound.shape
    have he : (comprehension .generator s' ([t] ++ us)).FailsWith
        (flaws (.node .callGenerator s' ([t] ++ us))) := by
      rw [flaws_of_ne (by decide)]
      exact comprehension_fails (Or.inl rfl) hparts ht (clauses_of_shape hus) .generator s'
    rw [List.nil_append, List.append_nil, arguments, arguments]
    refine (he.bind_pure fun e => ⟨_, rfl⟩).congr fun x => ?_
    simp [misplaced]
  · obtain ⟨_, _, rfl, ⟨_, ts, rfl, rfl, hts⟩, rfl⟩ := hlist
    rw [List.nil_append, List.append_nil] at hchildren ⊢
    refine arguments_fails hchildren ?_ false
    refine Grammar.forall_of_shape_commaList hts fun us hus => ?_
    rcases hus with ⟨t, rfl, ht⟩ | ⟨t, rfl, ht⟩ | ⟨t, rfl, ht⟩ | ⟨t, rfl, ht⟩
    · exact List.forall_mem_singleton.mpr (Or.inl ht)
    · exact List.forall_mem_singleton.mpr (Or.inr (Or.inl ht))
    · exact List.forall_mem_singleton.mpr (Or.inr (Or.inr (Or.inl ht)))
    · exact List.forall_mem_singleton.mpr (Or.inr (Or.inr (Or.inr ht)))

/-- A bound of a slice, or none. -/
theorem boundOf_fails {r : Rule} {ts : List (Tree Rule)} (hts : ∀ t ∈ ts, Sound t)
    (hsolid : isSolid r = false) (hr : r ≠ .callOp) (hpattern : rulePattern r = Grammar.expr)
    (hshape : Shape (.optional (.rule r)) ts) :
    IsBound r ts ∧ (boundOf ts).FailsWith (ts.flatMap flaws) := by
  rcases hshape with ⟨t, rfl, ht⟩ | rfl
  · obtain ⟨s, v, rfl, hv⟩ := (hts t (List.mem_singleton_self t)).enclosed ht hsolid hr
      fun ts hts => by rwa [hpattern] at hts
    refine ⟨Or.inr ⟨s, v, rfl⟩, ?_⟩
    rw [List.flatMap_singleton]
    exact hv.bind_pure fun e => ⟨_, rfl⟩
  · exact ⟨Or.inl rfl, .ok⟩

theorem slice_fails {s : Span} {parts : List (Tree Rule)} (h : Sound (.node .slice s parts)) :
    (bounds s none none none parts).FailsWith (flaws (.node .slice s parts)) := by
  have hchildren := h.children
  rw [flaws_of_ne (by decide)]
  obtain ⟨_, step, rfl, ⟨_, upper, rfl, ⟨lower, _, rfl, hlower, rfl⟩, hupper⟩, hstep⟩ := h.shape
  have hstep : Shape (.optional (.rule .sliceStep)) step := by
    rcases hstep with ⟨_, _, rfl, rfl, hstep⟩ | rfl
    · exact hstep
    · exact Or.inr rfl
  rw [List.append_nil, List.append_assoc] at hchildren ⊢
  rw [List.forall_mem_append, List.forall_mem_append] at hchildren
  obtain ⟨hlower, hlowerFails⟩ := boundOf_fails hchildren.1 rfl (by decide) rfl hlower
  obtain ⟨hupper, hupperFails⟩ := boundOf_fails hchildren.2.1 rfl (by decide) rfl hupper
  obtain ⟨hstep, hstepFails⟩ := boundOf_fails hchildren.2.2 rfl (by decide) rfl hstep
  rw [bounds_lower _ _ hlower, List.flatMap_append, List.flatMap_append]
  refine hlowerFails.bind fun l => ?_
  rw [bounds_upper _ _ _ hupper]
  refine hupperFails.bind fun u => ?_
  rw [bounds_step _ _ _ hstep]
  exact hstepFails.bind_pure fun e => ⟨_, rfl⟩

/-! ### Items -/

/-- Signs and words leave nothing that could be wrong. -/
theorem flaws_between {op : Infix} (hop : op ≠ .ternary) {ts : List (Tree Rule)}
    (h : Shape (Grammar.infixPattern op) ts) : ts.flatMap flaws = [] := by
  have hwords : ∀ {k k' : Keyword}, Shape (Grammar.keyword k ++ Grammar.keyword k') ts →
      ts.flatMap flaws = [] := by
    rintro k k' ⟨_, _, rfl, ⟨t, rfl, ht⟩, u, rfl, hu⟩
    have hk : Rule.keyword k ∉ valueRules := by simp [valueRules]
    have hk' : Rule.keyword k' ∉ valueRules := by simp [valueRules]
    simp [flaws_word ht rfl hk, flaws_word hu rfl hk']
  have hsign : ts = [] → ts.flatMap flaws = [] := by
    rintro rfl
    rfl
  have hword : ∀ {w : String}, Shape (Grammar.word w) ts → ts.flatMap flaws = [] := by
    rintro w ⟨_, _, rfl, rfl, rfl⟩
    rfl
  cases op with
  | ternary => exact absurd rfl hop
  | notIn | isNot => exact hwords h
  | or | and | isIn | is => exact hword h
  | _ => exact hsign h

theorem flaws_before {op : Prefix} {s : Span} {ts : List (Tree Rule)}
    (h : Sound (.node (.before op) s ts)) : flaws (.node (.before op) s ts) = [] := by
  have hshape := h.shape
  rw [flaws_of_ne (by simp)]
  cases op with
  | lambda =>
    have hchildren := h.children
    obtain ⟨_, _, rfl, ⟨_, params, rfl, ⟨word, rfl, hword⟩, hparams⟩, rfl⟩ := hshape
    rcases hparams with ⟨t, rfl, ht⟩ | rfl
    · have hsound := hchildren t (by simp)
      simp [flaws_word hword rfl (by decide), flaws_params hsound ht]
    · simp [flaws_word hword rfl (by decide)]
  | not =>
    obtain ⟨_, _, rfl, rfl, rfl⟩ := hshape
    rfl
  | neg | pos | invert =>
    obtain rfl : ts = [] := hshape
    rfl

theorem between_fails {condition : Built Expr} {op : Infix} {V : List ParseError}
    (h : if op = .ternary then condition.FailsWith V else V = []) :
    (betweenOf condition op).FailsWith V := by
  cases op <;> exact h

/-- A token of the rules that have a value fails with its flaws. -/
theorem literal_fails {r : Rule} (hr : r ∈ Grammar.operandRules) (hsolid : isSolid r = true)
    (s : Span) (text : List Char) : (literal r s text).FailsWith (flaws (.leaf r s text)) := by
  rw [flaws_leaf, ownFlaws]
  split
  · exact Except.failsWith_errors _
  · next hvalue =>
    have hplain : r ∈ [.boolean, .none, .ident] := by
      revert r
      decide
    simp only [List.mem_cons, List.not_mem_nil, or_false] at hplain
    rcases hplain with rfl | rfl | rfl <;> exact .ok

theorem item_leaf_fails {r : Rule} (hr : r ∈ partRules) (hsolid : isSolid r = true) (s : Span)
    (text : List Char) : (item (.leaf r s text)).Fails r (flaws (.leaf r s text)) := by
  have hword : r ∉ valueRules → flaws (.leaf r s text) = [] := by
    intro hvalue
    rw [flaws_leaf, ownFlaws, if_neg hvalue]
  simp only [partRules, List.mem_append] at hr
  rcases hr with ((hr | hr) | hr) | hr
  · obtain ⟨op, -, rfl⟩ := List.mem_map.mp hr
    rw [item, hword (by simp [valueRules])]
    exact .before (Machine.affix?_before [] op)
  · have hnone : affix? r = none := by
      have hall : ∀ r ∈ Grammar.operandRules, r.isOperator ≠ true := by decide
      exact Machine.affix?_eq_none (hall r hr)
    rw [item_leaf]
    · exact .operand hnone (literal_fails hr hsolid s text)
    · rintro op rfl
      rw [Machine.affix?_before []] at hnone
      cases hnone
    · rintro op rfl
      rw [Machine.affix?_between (.error malformed)] at hnone
      cases hnone
  · have hall : ∀ r ∈ Machine.postfixRules, isSolid r ≠ true := by decide
    exact absurd hsolid (hall r hr)
  · obtain ⟨op, -, rfl⟩ := List.mem_map.mp hr
    rw [item, hword (by simp [valueRules])]
    refine .between (Machine.affix?_between (.error malformed) op) (between_fails ?_)
    rw [if_neg]
    rintro rfl
    cases hsolid

/-- The items of a display. -/
theorem items_of_shape {us : List (Tree Rule)} (h : Shape Grammar.item us) :
    ∀ u ∈ us, OfRule .starred u ∨ OfRule .expression u := by
  rcases h with ⟨t, rfl, ht⟩ | ⟨t, rfl, ht⟩
  · exact List.forall_mem_singleton.mpr (Or.inl ht)
  · exact List.forall_mem_singleton.mpr (Or.inr ht)

theorem display_items {r : Rule} {s : Span} {ts : List (Tree Rule)} (h : Sound (.node r s ts))
    (hr : r = .tuple ∨ r = .list ∨ r = .set) :
    (elements ts).FailsWith (flaws (.node r s ts)) := by
  have hchildren := h.children
  have hne : r ≠ .callOp := by
    rintro rfl
    rcases hr with hr | hr | hr <;> cases hr
  rw [flaws_of_ne hne]
  refine elements_fails hchildren ?_
  have hlist : ∀ us, Shape (.commaList Grammar.item) us →
      ∀ u ∈ us, OfRule .starred u ∨ OfRule .expression u := fun us hus =>
    Grammar.forall_of_shape_commaList hus fun us => items_of_shape
  rcases hr with rfl | rfl | rfl
  · rcases h.shape with ⟨_, _, rfl, rfl, rfl⟩ | hsome
    · exact List.forall_mem_nil _
    · obtain ⟨_, _, rfl, ⟨_, more, rfl, ⟨_, _, rfl, ⟨_, first, rfl, rfl, hfirst⟩, rfl⟩, hmore⟩,
        rfl⟩ := hsome
      simp only [List.nil_append, List.append_nil, List.forall_mem_append]
      exact ⟨items_of_shape hfirst, hlist more hmore⟩
  · obtain ⟨_, _, rfl, ⟨_, us, rfl, rfl, hus⟩, rfl⟩ := h.shape
    rw [List.nil_append, List.append_nil]
    exact hlist us hus
  · obtain ⟨_, _, rfl, ⟨_, last, rfl, ⟨_, more, rfl, ⟨_, first, rfl, rfl, hfirst⟩, hmore⟩, hlast⟩,
      rfl⟩ := h.shape
    have hlast : last = [] := by rcases hlast with hlast | hlast <;> exact hlast
    rw [hlast, List.nil_append, List.append_nil, List.append_nil, List.forall_mem_append]
    refine ⟨items_of_shape hfirst, Grammar.forall_of_shape_many hmore ?_⟩
    rintro _ ⟨_, us, rfl, rfl, hus⟩
    exact items_of_shape hus

theorem display_entries {s : Span} {ts : List (Tree Rule)} (h : Sound (.node .dict s ts)) :
    (entries ts).FailsWith (flaws (.node .dict s ts)) := by
  rw [flaws_of_ne (by decide)]
  refine entries_fails h.children ?_
  obtain ⟨_, _, rfl, ⟨_, us, rfl, rfl, hus⟩, rfl⟩ := h.shape
  rw [List.nil_append, List.append_nil]
  refine Grammar.forall_of_shape_commaList hus ?_
  rintro _ ⟨t, rfl, ht⟩
  exact List.forall_mem_singleton.mpr ht

/-- An operand in brackets fails with its flaws. -/
theorem bracketed_fails {r : Rule} {s : Span} {ts : List (Tree Rule)}
    (hr : r ∈ Grammar.operandRules) (hsolid : isSolid r = false) (h : Sound (.node r s ts)) :
    ∃ e, item (.node r s ts) = .operand e ∧ e.FailsWith (flaws (.node r s ts)) := by
  have hbracketed : r ∈ [.grouped, .tuple, .generator, .list, .listComp, .dict, .dictComp, .set,
      .setComp] := by
    clear h
    revert r
    decide
  simp only [List.mem_cons, List.not_mem_nil, or_false] at hbracketed
  rcases hbracketed with rfl | rfl | rfl | rfl | rfl | rfl | rfl | rfl | rfl
  · obtain ⟨v, rfl, hv⟩ := grouped_of_shape h.shape
    have he := (h.children v (List.mem_singleton_self v)).expression hv
    rw [flaws_of_ne (by decide), List.flatMap_singleton, item]
    exact ⟨_, rfl, he.map _⟩
  · exact ⟨_, by rw [item], (display_items h (Or.inl rfl)).map _⟩
  · exact ⟨_, by rw [item], h.comprehension (by decide) (Or.inl rfl) rfl _⟩
  · exact ⟨_, by rw [item], (display_items h (Or.inr (Or.inl rfl))).map _⟩
  · exact ⟨_, by rw [item], h.comprehension (by decide) (Or.inl rfl) rfl _⟩
  · exact ⟨_, by rw [item], (display_entries h).map _⟩
  · exact ⟨_, by rw [item], h.comprehension (by decide) (Or.inr rfl) rfl _⟩
  · exact ⟨_, by rw [item], (display_items h (Or.inr (Or.inr rfl))).map _⟩
  · exact ⟨_, by rw [item], h.comprehension (by decide) (Or.inl rfl) rfl _⟩

theorem item_after_fails {r : Rule} {s : Span} {ts : List (Tree Rule)}
    (hr : r ∈ Machine.postfixRules) (h : Sound (.node r s ts)) :
    (item (.node r s ts)).Fails r (flaws (.node r s ts)) := by
  have hchildren := h.children
  simp only [Machine.postfixRules, List.mem_cons, List.not_mem_nil, or_false] at hr
  rcases hr with rfl | rfl | rfl
  · rw [item]
    exact .after rfl (call_fails h)
  · rw [flaws_of_ne (by decide)]
    obtain ⟨_, _, rfl, ⟨_, _, rfl, rfl, hindex⟩, rfl⟩ := h.shape
    rw [List.nil_append, List.append_nil] at hchildren ⊢
    rcases hindex with ⟨t, rfl, ht⟩ | ⟨t, rfl, ht⟩
    · have hsound := hchildren t (List.mem_singleton_self t)
      obtain ⟨s', parts, rfl⟩ := ht.node rfl
      rw [item, List.flatMap_singleton]
      exact .after rfl (slice_fails hsound)
    · have he := (hchildren t (List.mem_singleton_self t)).expression ht
      obtain ⟨s', parts, rfl⟩ := ht.node rfl
      rw [item, List.flatMap_singleton]
      · exact .after rfl he
      · intro inner ps heq
        cases heq
  · rw [flaws_of_ne (by decide), item]
    obtain ⟨_, _, rfl, rfl, t, rfl, ht⟩ := h.shape
    rw [List.nil_append, List.flatMap_singleton, flaws_word ht rfl (by decide)]
    exact .after rfl rfl

theorem item_between (op : Infix) (s : Span) (ts : List (Tree Rule)) :
    ∃ condition, item (.node (.between op) s ts) = .between (betweenOf condition op) := by
  by_cases hthree : ∃ word condition word', ts = [word, condition, word']
  · obtain ⟨word, condition, word', rfl⟩ := hthree
    exact ⟨expr condition, by rw [item]⟩
  · refine ⟨.error malformed, ?_⟩
    rw [item]
    exact fun word condition word' heq => hthree ⟨word, condition, word', heq⟩

theorem item_between_fails {op : Infix} {s : Span} {ts : List (Tree Rule)}
    (h : Sound (.node (.between op) s ts)) :
    (item (.node (.between op) s ts)).Fails (.between op) (flaws (.node (.between op) s ts)) := by
  have hchildren := h.children
  rw [flaws_of_ne (by simp)]
  by_cases hop : op = .ternary
  · subst hop
    obtain ⟨_, _, rfl, ⟨_, _, rfl, ⟨word, rfl, hword⟩, c, rfl, hc⟩, word', rfl, hword'⟩ := h.shape
    have he := (hchildren c (by simp)).expression hc
    have hflaws : ([word] ++ [c] ++ [word']).flatMap flaws = flaws c := by
      simp [flaws_word hword rfl (by decide), flaws_word hword' rfl (by decide)]
    rw [hflaws]
    change (item (.node (.between .ternary) s [word, c, word'])).Fails _ _
    rw [item]
    exact .between (Machine.affix?_between (.error malformed) .ternary) (between_fails he)
  · obtain ⟨condition, hitem⟩ := item_between op s ts
    rw [hitem, flaws_between hop h.shape]
    refine .between (Machine.affix?_between condition op) (between_fails ?_)
    rw [if_neg hop]

theorem item_node_fails {r : Rule} {s : Span} {ts : List (Tree Rule)} (hr : r ∈ partRules)
    (hsolid : isSolid r = false) (h : Sound (.node r s ts)) :
    (item (.node r s ts)).Fails r (flaws (.node r s ts)) := by
  simp only [partRules, List.mem_append] at hr
  rcases hr with ((hr | hr) | hr) | hr
  · obtain ⟨op, -, rfl⟩ := List.mem_map.mp hr
    rw [item, flaws_before h]
    exact .before (Machine.affix?_before [] op)
  · have hall : ∀ r ∈ Grammar.operandRules, r.isOperator ≠ true := by decide
    obtain ⟨e, hitem, he⟩ := bracketed_fails hr hsolid h
    rw [hitem]
    exact .operand (Machine.affix?_eq_none (hall r hr)) he
  · exact item_after_fails hr h
  · obtain ⟨op, -, rfl⟩ := List.mem_map.mp hr
    exact item_between_fails h

/-! ### Trees -/

/-- Each part of an expression fails with its flaws. -/
theorem item_fails {t : Tree Rule} (ht : Sound t) (hrule : OfRule t.rule t)
    (hpart : t.rule ∈ partRules) : (item t).Fails t.rule (flaws t) := by
  cases t with
  | leaf r s text =>
    cases hsolid : isSolid r with
    | true => exact item_leaf_fails hpart hsolid s text
    | false =>
      obtain ⟨s', parts, heq⟩ := OfRule.node hrule hsolid
      cases heq
  | node r s ts =>
    cases hsolid : isSolid r with
    | true =>
      obtain ⟨s', text, heq⟩ := OfRule.leaf hrule hsolid
      cases heq
    | false => exact item_node_fails hpart hsolid ht

/-- **Building an expression fails with one of its flaws, or there are none.** -/
theorem sound_of_formed (t : Tree Rule) : Formed t → Sound t := by
  induction t using Tree.induction with
  | h t ih =>
    intro hformed
    have hchildren : ∀ c ∈ t.children, Sound c := by
      intro c hc
      exact ih c hc fun r s ts hmem => hformed r s ts (Tree.mem_nodes_of_child hc hmem)
    refine ⟨hformed, ?_⟩
    intro u hu hrule
    rcases Tree.mem_nodes_iff.mp hu with rfl | ⟨c, hc, hu⟩
    · obtain ⟨s, parts, rfl⟩ := hrule.node rfl
      have hshape := hformed _ s parts (Tree.mem_nodes_self _)
      obtain ⟨hfirst, hrules⟩ := Machine.operandFirst_expression hshape
      rw [expr, flaws_of_ne (by decide)]
      refine resolve_fails hfirst fun t ht => ?_
      exact item_fails (hchildren t ht) (hshape.ofRule t ht) (hrules _ (List.mem_map_of_mem ht))
    · exact (hchildren c hc).2 u hu hrule

theorem assignOp_of_laid {source : List Char} {a z : Nat} {s : Span} {text : List Char}
    {ts : List (Tree Rule)} (h : Laid source a z (.leaf .assignOp s text :: ts)) :
    ∃ op, assignOp text = .ok op := by
  cases h with
  | leaf hc hstart hread hrest => exact assignOp_of_reads hread

theorem assignment_fails {source : List Char} {a z : Nat} {t : Tree Rule}
    {more rest : List (Tree Rule)} {s : Span} (h : Laid source a z (t :: rest))
    (ht : Sound t) (hrule : OfRule .assignment t) :
    (Build.source (.node .source s (t :: more))).FailsWith (flaws t) := by
  obtain ⟨s', parts, rfl⟩ := hrule.node rfl
  have hchildren := ht.children
  have hparts := h.of_node.2.1
  obtain ⟨_, _, rfl, ⟨_, _, rfl, ⟨target, rfl, htarget⟩, op, rfl, hop⟩, value, rfl, hvalue⟩ :=
    ht.shape
  obtain ⟨s'', text, rfl⟩ := hop.leaf rfl
  obtain ⟨op, hassign⟩ := assignOp_of_laid hparts.tail
  have hflaws : flaws (.leaf .assignOp s'' text) = [] := flaws_word hop rfl (by decide)
  have hl := (hchildren target (by simp)).expression htarget
  have hr := (hchildren value (by simp)).expression hvalue
  rw [flaws_of_ne (by decide)]
  change (Build.source (.node .source s
    (.node .assignment s' [target, .leaf .assignOp s'' text, value] :: more))).FailsWith _
  rw [Build.source, hassign]
  refine (hl.bind fun l => hr.bind_pure fun r => ⟨_, rfl⟩).congr fun x => ?_
  simp [hflaws]

/-- **Building a tree fails with one of the flaws of what was matched, or there are none.** -/
theorem source_fails {source : List Char} {a z : Nat} {t : Tree Rule} (h : Laid source a z [t])
    (hrule : OfRule .source t) : (Build.source t).FailsWith (flaws t) := by
  have hsound := sound_of_formed t (formed_of_laid h)
  obtain ⟨s, ts, rfl⟩ := hrule.node rfl
  have hchildren := hsound.children
  have hinner := h.of_node.2.1
  obtain ⟨_, _, rfl, ⟨_, us, rfl, rfl, hus⟩, stop, rfl, hstop⟩ := hsound.shape
  have hend : flaws stop = [] := by
    have hsound' := hchildren stop (by simp)
    obtain ⟨s', parts, rfl⟩ := hstop.node rfl
    obtain rfl : parts = [] := hsound'.shape
    rfl
  rw [flaws_of_ne (by decide), List.nil_append, List.flatMap_append, List.flatMap_singleton, hend,
    List.append_nil]
  rcases hus with ⟨t, rfl, ht⟩ | ⟨t, rfl, ht⟩ | ⟨t, rfl, ht⟩
  · have hsound' := hchildren t (by simp)
    obtain ⟨s', parts, rfl⟩ := ht.node rfl
    obtain ⟨_, _, rfl, ⟨word, rfl, hword⟩, body, rfl, hbody⟩ := hsound'.shape
    obtain ⟨s'', text, rfl⟩ := hword.leaf rfl
    have hflaws : flaws (.leaf .statementKeyword s'' text) = [] :=
      flaws_word hword rfl (by decide)
    rw [List.flatMap_singleton, flaws_of_ne (by decide), List.flatMap_append,
      List.flatMap_singleton, List.flatMap_singleton, hflaws, flaws_word hbody rfl (by decide)]
    exact .ok
  · rw [List.flatMap_singleton]
    exact assignment_fails hinner (hchildren t (by simp)) ht
  · have he := (hchildren t (by simp)).expression ht
    obtain ⟨s', parts, rfl⟩ := ht.node rfl
    rw [List.flatMap_singleton]
    change (Build.source (.node .source s (.node .expression s' parts :: [stop]))).FailsWith _
    rw [Build.source]
    · exact he
    · intro span r s₁ word ts heq
      cases heq
    · intro span target r s₁ op value heq
      cases heq

end Build

/-- The node of a whole text. -/
theorem ofRule_of_matchSource {source : List Char} {tree : Tree Rule}
    (h : matchSource source = .ok tree) : OfRule .source tree := by
  have hread := Grammar.reads_readSource source
  unfold matchSource at h
  rcases hrun : Grammar.readSource source with ⟨o, trail⟩
  rw [hrun] at h hread
  cases o with
  | matched d ts =>
    obtain ⟨t, rfl, ht⟩ := Grammar.shape_of_reads hread d ts rfl rfl
    cases h
    exact ht
  | failed => cases h
  | outOfFuel => cases h

/-- **A flaw of a matched text is fatal.**  Within the limits parsing fails with one of the flaws of
    the matched tree, and otherwise with an error about a limit. -/
theorem parseWith_of_flaw {maxDepth : Nat} {source : String} {tree : Tree Rule} {flaw : ParseError}
    (hmatch : matchSource source.toList = .ok tree) (hflaw : flaw ∈ flaws tree) :
    (bracketDepth source.toList ≤ maxDepth → levels tree ≤ maxDepth →
      ∃ err ∈ flaws tree, parseWith maxDepth source = .error err) ∧
    (¬ (bracketDepth source.toList ≤ maxDepth ∧ levels tree ≤ maxDepth) →
      ∃ err, err.IsDepth ∧ parseWith maxDepth source = .error err) := by
  obtain ⟨z, hlaid⟩ := laid_of_matchSource hmatch
  obtain ⟨err, herr, hbuild⟩ :=
    (Build.source_fails hlaid (ofRule_of_matchSource hmatch)).exists_error hflaw
  have hlevels : checkOperators maxDepth 0 tree = .ok () ↔ levels tree ≤ maxDepth := by
    rw [checkOperators_ok_iff, Nat.zero_add]
  constructor
  · intro hbrackets hroom
    refine ⟨err, herr, ?_⟩
    simp only [parseWith, bind, checkBrackets_ok_iff.mpr hbrackets, hmatch, Except.bind,
      hlevels.mpr hroom, hbuild]
  · intro hover
    cases hbrackets : checkBrackets maxDepth source.toList with
    | error err =>
      refine ⟨err, isDepth_of_checkBrackets hbrackets, ?_⟩
      simp only [parseWith, bind, hbrackets, Except.bind]
    | ok u =>
      cases hoperators : checkOperators maxDepth 0 tree with
      | error err =>
        refine ⟨err, isDepth_of_checkOperators tree hoperators, ?_⟩
        simp only [parseWith, bind, hbrackets, hmatch, Except.bind, hoperators]
      | ok u =>
        exact absurd ⟨checkBrackets_ok_iff.mp hbrackets, hlevels.mp hoperators⟩ hover

end SafeExpr
