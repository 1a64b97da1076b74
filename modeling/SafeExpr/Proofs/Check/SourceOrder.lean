/-
  SafeExpr/Proofs/Check/SourceOrder.lean
  ======================================
  **The names of an expression are listed in the order of the source.**

  The nodes of a tree follow one another in pre-order.  In a tree whose spans are placed, a
  node that comes later stands within the earlier one or behind it (`nodes_pairwise`), so the
  names that are written come in the order of the text, and so do the calls of names.
  `introspection_in_source_order` says this of the lists of a compiled expression.
-/
import SafeExpr.Proofs.Spans
import Mathlib.Data.Prod.Lex

namespace SafeExpr

open Eval (Calls)

/-! ### Names ordered by their places -/

section Ordered

variable {κ : Type} [LT κ]

/-- Each name has a place before all places of the names behind it: the names are ordered by
    their smallest places. -/
def OrderedBy (places : String → Set κ) (names : List String) : Prop :=
  names.Pairwise fun a b => ∃ p ∈ places a, ∀ q ∈ places b, p < q

/-- The places at which a name occurs. -/
def placesIn (occurrences : List (κ × String)) (name : String) : Set κ :=
  {place | (place, name) ∈ occurrences}

omit [LT κ] in
theorem map_snd_filter (occurrences : List (κ × String)) (keep : String → Bool) :
    (occurrences.map Prod.snd).filter keep =
      (occurrences.filter fun o => keep o.2).map Prod.snd :=
  List.filter_map

omit [LT κ] in
theorem placesIn_filter {occurrences : List (κ × String)} {keep : String → Bool} {name : String}
    (h : keep name = true) :
    placesIn (occurrences.filter fun o => keep o.2) name = placesIn occurrences name := by
  ext place
  simp [placesIn, h]

/-- Names in the order of their first occurrences are ordered by their smallest places, if
    the occurrences are listed by place. -/
theorem orderedBy_eraseDups : ∀ occurrences : List (κ × String),
    (occurrences.Pairwise fun x y => x.1 < y.1) →
      OrderedBy (placesIn occurrences) (occurrences.map Prod.snd).eraseDups
  | [], _ => List.Pairwise.nil
  | (place, name) :: rest, h => by
    obtain ⟨hfirst, hrest⟩ := List.pairwise_cons.mp h
    rw [List.map_cons, List.eraseDups_cons, map_snd_filter]
    have ih := orderedBy_eraseDups (rest.filter fun o => !o.2 == name) (hrest.filter _)
    have hother : ∀ b ∈ ((rest.filter fun o => !o.2 == name).map Prod.snd).eraseDups,
        b ≠ name := by
      intro b hb
      rw [List.mem_eraseDups, ← map_snd_filter rest (fun n => !n == name), List.mem_filter] at hb
      simpa using hb.2
    refine List.pairwise_cons.mpr ⟨fun b hb => ?_, ?_⟩
    · refine ⟨place, List.mem_cons_self, fun q hq => ?_⟩
      rcases List.mem_cons.mp hq with heq | hq
      · exact absurd (congrArg Prod.snd heq) (hother b hb)
      · exact hfirst _ hq
    · -- what is left out are places of the first name
      refine List.Pairwise.imp_of_mem (fun {a b} _ hb hab => ?_) ih
      obtain ⟨p, hp, hbefore⟩ := hab
      refine ⟨p, List.mem_cons_of_mem _ (List.mem_filter.mp hp).1, fun q hq => hbefore q ?_⟩
      rcases List.mem_cons.mp hq with heq | hq
      · exact absurd (congrArg Prod.snd heq) (hother b hb)
      · exact List.mem_filter.mpr ⟨hq, by simpa using hother b hb⟩
termination_by occurrences => occurrences.length
decreasing_by
  have := List.length_filter_le (fun o : κ × String => !o.2 == name) rest
  simp only [List.length_cons]
  omega

/-- … also where names are left out. -/
theorem orderedBy_filter {occurrences : List (κ × String)} (keep : String → Bool)
    (h : occurrences.Pairwise fun x y => x.1 < y.1) :
    OrderedBy (placesIn occurrences) ((occurrences.map Prod.snd).filter keep).eraseDups := by
  have hkept : ∀ name ∈ ((occurrences.map Prod.snd).filter keep).eraseDups, keep name = true :=
    fun name hname => (List.mem_filter.mp (List.mem_eraseDups.mp hname)).2
  rw [map_snd_filter] at hkept ⊢
  refine List.Pairwise.imp_of_mem (fun {a b} ha hb hab => ?_) (orderedBy_eraseDups _ (h.filter _))
  rwa [placesIn_filter (hkept a ha), placesIn_filter (hkept b hb)] at hab

end Ordered

theorem mem_map_snd_iff {κ : Type} {occurrences : List (κ × String)} {name : String} :
    name ∈ occurrences.map Prod.snd ↔ (placesIn occurrences name).Nonempty := by
  rw [List.mem_map]
  constructor
  · rintro ⟨⟨place, _⟩, hmem, rfl⟩
    exact ⟨place, hmem⟩
  · rintro ⟨place, hmem⟩
    exact ⟨(place, name), hmem, rfl⟩

theorem nodup_of_orderedBy {κ : Type} [Preorder κ] {places : String → Set κ}
    {names : List String} (h : OrderedBy places names) : names.Nodup := by
  refine List.Pairwise.imp ?_ h
  rintro a _ ⟨p, hp, hbefore⟩ rfl
  exact lt_irrefl p (hbefore p hp)

namespace Expr

/-! ### Nodes in the order of the text -/

section Placed

variable {source : List Char} {e : Expr}

theorem wellPlaced_child (h : ∀ n ∈ e.nodes, n.WellPlaced source) {c : Expr}
    (hc : c ∈ e.children) : ∀ n ∈ c.nodes, n.WellPlaced source :=
  fun n hn => h n (mem_nodes_of_child hc hn)

/-- All nodes of a tree stand within its span. -/
theorem span_of_mem_nodes (h : ∀ n ∈ e.nodes, n.WellPlaced source) :
    ∀ n ∈ e.nodes, e.span.start ≤ n.span.start ∧ n.span.stop ≤ e.span.stop := by
  induction e using Expr.induction with
  | step e ih =>
    intro n hn
    rw [nodes_eq, List.mem_cons, List.mem_flatMap] at hn
    rcases hn with rfl | ⟨c, hc, hn⟩
    · exact ⟨Nat.le_refl _, Nat.le_refl _⟩
    · obtain ⟨hstart, hstop⟩ := (h e e.mem_nodes_self).inside c hc
      obtain ⟨hstart', hstop'⟩ := ih c hc (wellPlaced_child h hc) n hn
      exact ⟨Nat.le_trans hstart hstart', Nat.le_trans hstop' hstop⟩

/-- **A later node stands within an earlier one or behind it.** -/
theorem nodes_pairwise (h : ∀ n ∈ e.nodes, n.WellPlaced source) :
    e.nodes.Pairwise fun n m => m ∈ n.children.flatMap nodes ∨ n.span.stop ≤ m.span.start := by
  induction e using Expr.induction with
  | step e ih =>
    rw [nodes_eq, List.pairwise_cons, List.pairwise_flatMap]
    refine ⟨fun m hm => Or.inl hm, fun c hc => ih c hc (wellPlaced_child h hc), ?_⟩
    refine List.Pairwise.imp_of_mem (fun {c d} hc hd hcd n hn m hm => Or.inr ?_)
      (h e e.mem_nodes_self).ordered
    have hn' := span_of_mem_nodes (wellPlaced_child h hc) n hn
    have hm' := span_of_mem_nodes (wellPlaced_child h hd) m hm
    exact Nat.le_trans hn'.2 (Nat.le_trans hcd hm'.1)

end Placed

/-! ### Names that are written -/

/-- The bytes at which a name is written in a tree. -/
def places (e : Expr) (name : String) : Set Nat :=
  {pos | ∃ span, .name span name ∈ e.nodes ∧ span.start = pos}

/-- A name and the byte at which it starts. -/
def writtenAt? : Expr → Option (Nat × String)
  | .name span n => some (span.start, n)
  | _ => none

theorem writtenAt?_eq_some_iff {e : Expr} {pos : Nat} {name : String} :
    e.writtenAt? = some (pos, name) ↔ ∃ span, e = .name span name ∧ span.start = pos := by
  cases e with
  | name span n => simp [writtenAt?, and_comm, eq_comm]
  | _ => simp [writtenAt?]

def written (e : Expr) : List (Nat × String) := e.nodes.filterMap writtenAt?

theorem placesIn_written (e : Expr) : placesIn e.written = e.places := by
  funext name
  ext pos
  simp only [placesIn, places, written, Set.mem_ofPred_eq, List.mem_filterMap,
    writtenAt?_eq_some_iff]
  constructor
  · rintro ⟨n, hn, span, rfl, hpos⟩
    exact ⟨span, hn, hpos⟩
  · rintro ⟨span, hn, hpos⟩
    exact ⟨_, hn, span, rfl, hpos⟩

theorem map_snd_written (e : Expr) : e.written.map Prod.snd = e.nodes.filterMap nameOf? := by
  rw [written, List.map_filterMap]
  congr 1
  funext n
  cases n <;> rfl

/-- Behind a name stands nothing that belongs to it. -/
theorem written_pairwise {source : List Char} {e : Expr}
    (h : ∀ n ∈ e.nodes, n.WellPlaced source) :
    e.written.Pairwise fun x y => x.1 < y.1 := by
  refine List.pairwise_filterMap.mpr (List.Pairwise.imp_of_mem ?_ (nodes_pairwise h))
  rintro n m hn hm hnm ⟨pos, name⟩ hx ⟨pos', name'⟩ hy
  obtain ⟨span, rfl, rfl⟩ := writtenAt?_eq_some_iff.mp hx
  obtain ⟨span', rfl, rfl⟩ := writtenAt?_eq_some_iff.mp hy
  rcases hnm with hinside | hbehind
  · cases hinside
  · exact Nat.lt_of_lt_of_le (h _ hn).nonempty hbehind

/-! ### Names that calls look up -/

/-- Where the calls of a tree look a name up by themselves: the byte at which the call starts,
    and the number of the name among those that the function looks up. -/
def lookups (ns : Namespace) (e : Expr) (name : String) : Set (Nat ×ₗ Nat) :=
  {place | ∃ n ∈ e.nodes, ∃ span called f args i, Calls ns n span called f args ∧
    f.signature.impliedNames[i]? = some name ∧ place = toLex (span.start, i)}

def lookedUpAt (ns : Namespace) (n : Expr) : List ((Nat ×ₗ Nat) × String) :=
  (n.impliedBy ns).zipIdx.map fun entry => (toLex (n.span.start, entry.2), entry.1)

theorem impliedBy_ne_nil {ns : Namespace} {n : Expr} {name : String}
    (h : name ∈ n.impliedBy ns) : ∃ span called f args, Calls ns n span called f args ∧
      n.impliedBy ns = f.signature.impliedNames := by
  unfold impliedBy at h ⊢
  split at h
  · next span callee args =>
    cases hbind : callee.asName.bind ns.function? with
    | none => simp [hbind] at h
    | some f =>
      obtain ⟨called, hcalled, hf⟩ := Option.bind_eq_some_iff.mp hbind
      exact ⟨span, called, f, args, ⟨hcalled, hf⟩, by simp⟩
  · cases h

theorem impliedBy_of_calls {ns : Namespace} {n : Expr} {span : Span} {called : String}
    {f : NativeFunction} {args : List (Argument Expr)} (h : Calls ns n span called f args) :
    n.impliedBy ns = f.signature.impliedNames ∧ n.span = span := by
  obtain ⟨hname, hf⟩ := h
  exact ⟨by simp [impliedBy, hname, hf], rfl⟩

theorem mem_lookedUpAt {ns : Namespace} {n : Expr} {place : Nat ×ₗ Nat} {name : String} :
    (place, name) ∈ lookedUpAt ns n ↔ ∃ span called f args i, Calls ns n span called f args ∧
      f.signature.impliedNames[i]? = some name ∧ place = toLex (span.start, i) := by
  simp only [lookedUpAt, List.mem_map, List.mem_zipIdx_iff_getElem?, Prod.exists, Prod.mk.injEq]
  constructor
  · rintro ⟨name', i, hi, rfl, rfl⟩
    obtain ⟨span, called, f, args, hcalls, himplied⟩ := impliedBy_ne_nil (List.mem_of_getElem? hi)
    refine ⟨span, called, f, args, i, hcalls, himplied ▸ hi, ?_⟩
    rw [(impliedBy_of_calls hcalls).2]
  · rintro ⟨span, called, f, args, i, hcalls, hi, rfl⟩
    obtain ⟨himplied, hspan⟩ := impliedBy_of_calls hcalls
    exact ⟨name, i, himplied ▸ hi, by rw [hspan], rfl⟩

theorem placesIn_lookedUp (ns : Namespace) (e : Expr) :
    placesIn (e.nodes.flatMap (lookedUpAt ns)) = e.lookups ns := by
  funext name
  ext place
  simp only [placesIn, lookups, Set.mem_ofPred_eq, List.mem_flatMap, mem_lookedUpAt]

theorem map_snd_lookedUp (ns : Namespace) (e : Expr) :
    (e.nodes.flatMap (lookedUpAt ns)).map Prod.snd = e.nodes.flatMap (impliedBy ns) := by
  rw [List.map_flatMap]
  congr 1
  funext n
  simp [lookedUpAt, Function.comp_def]

/-- A name in parentheses contains no call. -/
theorem impliedBy_of_asName {ns : Namespace} {e : Expr} (h : e.asName.isSome = true) :
    ∀ n ∈ e.nodes, n.impliedBy ns = [] := by
  induction e using Expr.induction with
  | step e ih =>
    intro n hn
    rw [nodes_eq] at hn
    cases e with
    | name span m =>
      rw [List.mem_singleton.mp hn]
      rfl
    | paren span inner =>
      rcases List.mem_cons.mp hn with rfl | hn
      · rfl
      · obtain ⟨c, hc, hn⟩ := List.mem_flatMap.mp hn
        rw [List.mem_singleton.mp hc] at hn
        exact ih inner (List.mem_singleton_self _) h n hn
    | _ => cases h

/-- The call of a name starts before every other call within it. -/
theorem start_lt_of_calls {source : List Char} {ns : Namespace} {n m : Expr} {span : Span}
    {called : String} {f : NativeFunction} {args : List (Argument Expr)}
    (h : ∀ k ∈ n.nodes, k.WellPlaced source) (hcalls : Calls ns n span called f args)
    (hm : m ∈ n.children.flatMap nodes) (himplied : m.impliedBy ns ≠ []) :
    n.span.start < m.span.start := by
  cases hcalls with
  | @mk _ callee _ _ _ hname hf =>
    have hself := h _ (mem_nodes_self _)
    obtain ⟨hbehind, -⟩ := List.pairwise_cons.mp hself.ordered
    rw [children, List.flatMap_cons, List.mem_append, List.mem_flatMap] at hm
    rcases hm with hm | ⟨arg, harg, hm⟩
    · exact absurd (impliedBy_of_asName (by rw [hname]; rfl) m hm) himplied
    · -- it stands in an argument, behind the callee
      have hcallee : callee.span.start < callee.span.stop :=
        (h callee (mem_nodes_of_child List.mem_cons_self callee.mem_nodes_self)).nonempty
      have hstart := (hself.inside callee List.mem_cons_self).1
      have hargs := hbehind arg harg
      have hinside := (span_of_mem_nodes (wellPlaced_child h (List.mem_cons_of_mem _ harg)) m hm).1
      omega

theorem lookedUpAt_pairwise (ns : Namespace) (n : Expr) :
    (lookedUpAt ns n).Pairwise fun x y => x.1 < y.1 := by
  have hindices : (n.impliedBy ns).zipIdx.Pairwise fun x y => x.2 < y.2 := by
    rw [← List.pairwise_map (f := Prod.snd) (R := (· < ·)), List.zipIdx_map_snd]
    exact List.pairwise_lt_range'
  refine List.pairwise_map.mpr (hindices.imp fun {x y} hxy => ?_)
  exact Prod.Lex.toLex_lt_toLex.mpr (Or.inr ⟨rfl, hxy⟩)

/-- Calls of names come in the order in which they start. -/
theorem lookedUp_pairwise {source : List Char} {ns : Namespace} {e : Expr}
    (h : ∀ n ∈ e.nodes, n.WellPlaced source) :
    (e.nodes.flatMap (lookedUpAt ns)).Pairwise fun x y => x.1 < y.1 := by
  refine List.pairwise_flatMap.mpr ⟨fun n _ => lookedUpAt_pairwise ns n, ?_⟩
  refine List.Pairwise.imp_of_mem ?_ (nodes_pairwise h)
  rintro n m hn hm hnm ⟨place, name⟩ hx ⟨place', name'⟩ hy
  obtain ⟨span, called, f, args, i, hcalls, -, rfl⟩ := mem_lookedUpAt.mp hx
  obtain ⟨span', called', f', args', i', hcalls', hi', rfl⟩ := mem_lookedUpAt.mp hy
  obtain ⟨himplied, hspan'⟩ := impliedBy_of_calls hcalls'
  have hspan := (impliedBy_of_calls hcalls).2
  have hstart : n.span.start < m.span.start := by
    rcases hnm with hinside | hbehind
    · have hne : m.impliedBy ns ≠ [] := by
        rw [himplied]
        exact List.ne_nil_of_mem (List.mem_of_getElem? hi')
      exact start_lt_of_calls (fun k hk => h k (mem_nodes_trans hn hk)) hcalls hinside hne
    · exact Nat.lt_of_lt_of_le (h n hn).nonempty hbehind
  rw [hspan, hspan'] at hstart
  exact Prod.Lex.toLex_lt_toLex.mpr (Or.inl hstart)

/-! ### The references of a tree -/

/-- The names that are written, each once. -/
def writtenNames (e : Expr) : List String := (e.nodes.filterMap nameOf?).eraseDups

/-- The other names that calls look up by themselves, each once. -/
def impliedNames (ns : Namespace) (e : Expr) : List String :=
  ((e.nodes.flatMap (impliedBy ns)).removeAll (e.nodes.filterMap nameOf?)).eraseDups

theorem references_eq (ns : Namespace) (e : Expr) :
    e.references ns = e.writtenNames ++ e.impliedNames ns :=
  List.eraseDups_append

theorem mem_writtenNames {e : Expr} {name : String} :
    name ∈ e.writtenNames ↔ (e.places name).Nonempty := by
  rw [writtenNames, List.mem_eraseDups, ← map_snd_written, mem_map_snd_iff, placesIn_written]

theorem mem_impliedNames {ns : Namespace} {e : Expr} {name : String} :
    name ∈ e.impliedNames ns ↔ name ∉ e.writtenNames ∧ (e.lookups ns name).Nonempty := by
  rw [impliedNames, List.mem_eraseDups, List.removeAll, List.mem_filter, ← map_snd_lookedUp,
    mem_map_snd_iff, placesIn_lookedUp, writtenNames, List.mem_eraseDups, and_comm]
  simp

section Placed

variable {source : List Char} {e : Expr} (h : ∀ n ∈ e.nodes, n.WellPlaced source)
include h

theorem writtenNames_ordered : OrderedBy e.places e.writtenNames := by
  have hordered := orderedBy_eraseDups e.written (written_pairwise h)
  rwa [placesIn_written, map_snd_written] at hordered

theorem impliedNames_ordered (ns : Namespace) : OrderedBy (e.lookups ns) (e.impliedNames ns) := by
  have hpairwise : (e.nodes.flatMap (lookedUpAt ns)).Pairwise fun x y => x.1 < y.1 :=
    lookedUp_pairwise h
  -- the names that are written anyway are left out
  have hordered := orderedBy_filter (fun n => !(e.nodes.filterMap nameOf?).contains n) hpairwise
  rwa [placesIn_lookedUp, map_snd_lookedUp] at hordered

/-- **The references of a tree are pairwise different.** -/
theorem references_nodup (ns : Namespace) : (e.references ns).Nodup := by
  rw [references_eq]
  refine List.nodup_append.mpr ⟨nodup_of_orderedBy (writtenNames_ordered h),
    nodup_of_orderedBy (impliedNames_ordered h ns), ?_⟩
  rintro name hname _ hname' rfl
  exact (mem_impliedNames.mp hname').1 hname

end Placed

end Expr

/-! ### Compiled expressions -/

/-- **The lists of names are in source order.**  The references are pairwise different.  First
    come the names that are written, by the smallest byte at which each starts, then the other
    names that calls look up by themselves, by the place of the call and the number of the name
    there.  Which names are predefined and which free is a partition of that list. -/
theorem introspection_in_source_order {source : String} {ns : Namespace} {maxDepth : Nat}
    {c : Compiled} (h : Compiled.compile source ns maxDepth = .ok c) :
    c.referenced.Nodup ∧
    (∃ direct implied, c.referenced = direct ++ implied ∧
      (∀ name, name ∈ direct ↔ (c.expr.places name).Nonempty) ∧
      OrderedBy c.expr.places direct ∧
      (∀ name, name ∈ implied ↔ name ∉ direct ∧ (c.expr.lookups ns name).Nonempty) ∧
      OrderedBy (c.expr.lookups ns) implied) ∧
    c.referenced.partition ns.contains = (c.predefined, c.free) := by
  obtain ⟨hparse, -, -, rfl, hreferenced⟩ := stages_of_compile h
  have hplaced := wellPlaced_of_parse hparse
  refine ⟨?_, ⟨c.expr.writtenNames, c.expr.impliedNames c.bound, ?_⟩, ?_⟩
  · rw [hreferenced]
    exact Expr.references_nodup hplaced c.bound
  · rw [hreferenced]
    exact ⟨Expr.references_eq c.bound c.expr, fun _ => Expr.mem_writtenNames,
      Expr.writtenNames_ordered hplaced, fun _ => Expr.mem_impliedNames,
      Expr.impliedNames_ordered hplaced c.bound⟩
  · rw [List.partition_eq_filter_filter]
    rfl

/-- A condition stands between its branches, and what `clamp` looks up comes last. -/
theorem introspection_in_source_order_clamp :
    ∃ c, Compiled.compile "b if clamp(a) else (clamp)(x=b)" clampNamespace 20 = .ok c ∧
      c.referenced = ["b", "clamp", "a", "low"] ∧ c.predefined = ["clamp"] ∧
      c.free = ["b", "a", "low"] ∧ c.referenced.Nodup := by
  have hcompiles : ((Compiled.compile "b if clamp(a) else (clamp)(x=b)" clampNamespace 20
      ).toOption.map fun c => (c.referenced, c.predefined, c.free)) =
        some (["b", "clamp", "a", "low"], ["clamp"], ["b", "a", "low"]) := by
    decide +kernel
  obtain ⟨c, hc, hnames⟩ := Option.map_eq_some_iff.mp hcompiles
  rw [Except.toOption_eq_some_iff] at hc
  simp only [Prod.mk.injEq] at hnames
  obtain ⟨hreferenced, hpredefined, hfree⟩ := hnames
  exact ⟨c, hc, hreferenced, hpredefined, hfree, (introspection_in_source_order hc).1⟩

end SafeExpr
