/-
  SafeExpr/Proofs/Syntax/Reworded.lean
  ====================================
  **Trees with other words.**

  A rewording puts other words for the words of a tree, and other names or constants for its
  names and constants, and leaves the shape of the tree as it is.  One rewording after another
  is a rewording again (`reworded_reworded`).  A tree that fits still does if names become names
  and only they.
-/
import Mathlib.Data.List.Basic
import SafeExpr.Proofs.Syntax.Bare
import SafeExpr.Proofs.Syntax.Fits

namespace SafeExpr

/-- What stands at the end of a branch: a constant or a name. -/
inductive Atom where
  | constant (v : Literal)
  | name (n : String)
deriving DecidableEq

def Atom.expr (s : Span) : Atom → Expr
  | .constant v => .literal s v
  | .name n => .name s n

structure Rewording where
  /-- For members, parameters, targets of clauses and names of arguments. -/
  word : String → String
  atom : Atom → Atom

namespace Rewording

/-- One rewording after another. -/
def after (g f : Rewording) : Rewording := ⟨g.word ∘ f.word, g.atom ∘ f.atom⟩

end Rewording

namespace Expr

section Definition

variable (f : Rewording)

mutual

/-- The tree with other words. -/
def reworded : Expr → Expr
  | .literal s v => (f.atom (.constant v)).expr s
  | .name s n => (f.atom (.name n)).expr s
  | .unary s op e => .unary s op (reworded e)
  | .binary s op l r => .binary s op (reworded l) (reworded r)
  | .boolOp s op l r => .boolOp s op (reworded l) (reworded r)
  | .compare s l links => .compare s (reworded l) (rewordedLinks links)
  | .conditional s c yes no => .conditional s (reworded c) (reworded yes) (reworded no)
  | .call s callee args => .call s (reworded callee) (rewordedArgs args)
  | .list s es => .list s (rewordedAll es)
  | .tuple s es => .tuple s (rewordedAll es)
  | .set s es => .set s (rewordedAll es)
  | .dict s entries => .dict s (rewordedEntries entries)
  | .paren s e => .paren s (reworded e)
  | .member s e attr => .member s (reworded e) (f.word attr)
  | .subscript s e i => .subscript s (reworded e) (reworded i)
  | .slice s l u t => .slice s (rewordedOption l) (rewordedOption u) (rewordedOption t)
  | .lambda s params e => .lambda s (params.map f.word) (reworded e)
  | .comprehension s kind e v clauses =>
    .comprehension s kind (reworded e) (rewordedOption v) (rewordedClauses clauses)
  | .starred s double e => .starred s double (reworded e)
  | .named s target e => .named s (reworded target) (reworded e)
  | .assign s op target e => .assign s op (reworded target) (reworded e)
  | .statement s keyword => .statement s keyword

def rewordedAll : List Expr → List Expr
  | [] => []
  | e :: es => reworded e :: rewordedAll es

def rewordedOption : Option Expr → Option Expr
  | none => none
  | some e => some (reworded e)

def rewordedLinks : List (CompareOp × Expr) → List (CompareOp × Expr)
  | [] => []
  | (op, e) :: rest => (op, reworded e) :: rewordedLinks rest

def rewordedArgs : List (Argument Expr) → List (Argument Expr)
  | [] => []
  | .positional e :: rest => .positional (reworded e) :: rewordedArgs rest
  | .keyword s n e :: rest => .keyword s (f.word n) (reworded e) :: rewordedArgs rest

def rewordedEntries : List (Expr × Expr) → List (Expr × Expr)
  | [] => []
  | (k, v) :: rest => (reworded k, reworded v) :: rewordedEntries rest

def rewordedClauses : List (Clause Expr) → List (Clause Expr)
  | [] => []
  | ⟨targets, i, conditions⟩ :: rest =>
    ⟨targets.map f.word, reworded i, rewordedAll conditions⟩ :: rewordedClauses rest

end

end Definition

end Expr

/-! ### Lists of parts -/

def Argument.reworded (f : Rewording) : Argument Expr → Argument Expr
  | .positional e => .positional (e.reworded f)
  | .keyword s n e => .keyword s (f.word n) (e.reworded f)

def Clause.reworded (f : Rewording) (c : Clause Expr) : Clause Expr :=
  ⟨c.targets.map f.word, c.iter.reworded f, c.conditions.map (Expr.reworded f)⟩

namespace Expr

variable (f g : Rewording)

@[simp] theorem rewordedAll_eq (es : List Expr) : rewordedAll f es = es.map (reworded f) := by
  induction es with
  | nil => rfl
  | cons e es ih => rw [rewordedAll, ih, List.map_cons]

@[simp] theorem rewordedOption_eq (o : Option Expr) :
    rewordedOption f o = o.map (reworded f) := by
  cases o <;> rfl

@[simp] theorem rewordedLinks_eq (links : List (CompareOp × Expr)) :
    rewordedLinks f links = links.map fun l => (l.1, l.2.reworded f) := by
  induction links with
  | nil => rfl
  | cons l rest ih => rw [rewordedLinks, ih, List.map_cons]

@[simp] theorem rewordedArgs_eq (args : List (Argument Expr)) :
    rewordedArgs f args = args.map (Argument.reworded f) := by
  induction args with
  | nil => rfl
  | cons arg rest ih =>
    cases arg with
    | positional e => rw [rewordedArgs, ih, List.map_cons, Argument.reworded]
    | keyword s n e => rw [rewordedArgs, ih, List.map_cons, Argument.reworded]

@[simp] theorem rewordedEntries_eq (entries : List (Expr × Expr)) :
    rewordedEntries f entries =
      entries.map fun entry => (entry.1.reworded f, entry.2.reworded f) := by
  induction entries with
  | nil => rfl
  | cons entry rest ih => rw [rewordedEntries, ih, List.map_cons]

@[simp] theorem rewordedClauses_eq (clauses : List (Clause Expr)) :
    rewordedClauses f clauses = clauses.map (Clause.reworded f) := by
  induction clauses with
  | nil => rfl
  | cons c rest ih => rw [rewordedClauses, rewordedAll_eq, ih, List.map_cons, Clause.reworded]

/-! ### Node by node -/

end Expr

/-- The argument with another span, name and value. -/
def Argument.mapParts (place : Span → Span) (word : String → String) (g : Expr → Expr) :
    Argument Expr → Argument Expr
  | .positional e => .positional (g e)
  | .keyword s n e => .keyword (place s) (word n) (g e)

def Clause.mapParts (word : String → String) (g : Expr → Expr) (c : Clause Expr) : Clause Expr :=
  ⟨c.targets.map word, g c.iter, c.conditions.map g⟩

namespace Expr

section MapParts

variable (place : Span → Span) (word : String → String) (g : Expr → Expr)

/-- The node with other spans, words and parts. -/
def mapParts : Expr → Expr
  | .literal s v => .literal (place s) v
  | .name s n => .name (place s) n
  | .unary s op e => .unary (place s) op (g e)
  | .binary s op l r => .binary (place s) op (g l) (g r)
  | .boolOp s op l r => .boolOp (place s) op (g l) (g r)
  | .compare s l links => .compare (place s) (g l) (links.map fun l => (l.1, g l.2))
  | .conditional s c yes no => .conditional (place s) (g c) (g yes) (g no)
  | .call s callee args => .call (place s) (g callee) (args.map (Argument.mapParts place word g))
  | .list s es => .list (place s) (es.map g)
  | .tuple s es => .tuple (place s) (es.map g)
  | .set s es => .set (place s) (es.map g)
  | .dict s entries => .dict (place s) (entries.map fun entry => (g entry.1, g entry.2))
  | .paren s e => .paren (place s) (g e)
  | .member s e attr => .member (place s) (g e) (word attr)
  | .subscript s e i => .subscript (place s) (g e) (g i)
  | .slice s l u t => .slice (place s) (l.map g) (u.map g) (t.map g)
  | .lambda s params e => .lambda (place s) (params.map word) (g e)
  | .comprehension s kind e v clauses =>
    .comprehension (place s) kind (g e) (v.map g) (clauses.map (Clause.mapParts word g))
  | .starred s double e => .starred (place s) double (g e)
  | .named s target e => .named (place s) (g target) (g e)
  | .assign s op target e => .assign (place s) op (g target) (g e)
  | .statement s keyword => .statement (place s) keyword

theorem children_mapParts (e : Expr) : (e.mapParts place word g).children = e.children.map g := by
  cases e with
  | compare | list | tuple | set => simp [mapParts, children, Function.comp_def]
  | call s callee args =>
    have hvalue : ∀ arg : Argument Expr, (arg.mapParts place word g).value = g arg.value := by
      intro arg
      cases arg <;> rfl
    simp [mapParts, children, Function.comp_def, hvalue]
  | dict s entries => simp [mapParts, children, List.flatMap_map, List.map_flatMap]
  | slice s l u t => cases l <;> cases u <;> cases t <;> simp [mapParts, children]
  | comprehension s kind e v clauses =>
    have hparts : ∀ c : Clause Expr, clauseParts (c.mapParts word g) = (clauseParts c).map g :=
      fun c => rfl
    cases v <;> simp [mapParts, children, List.flatMap_map, List.map_flatMap, hparts]
  | _ => rfl

variable {g} in
theorem mapParts_congr {g' : Expr → Expr} {e : Expr} (h : ∀ c ∈ e.children, g c = g' c) :
    e.mapParts place word g = e.mapParts place word g' := by
  cases e with
  | literal | name | statement => rfl
  | unary | paren | starred | member | lambda | binary | boolOp | subscript | named | assign
  | list | tuple | set => simpa [mapParts, children] using h
  | conditional s c yes no =>
    simp only [children, List.forall_mem_cons] at h
    rw [mapParts, mapParts, h.1, h.2.1, h.2.2.1]
  | compare s l links =>
    simp only [children, List.forall_mem_cons, List.forall_mem_map] at h
    simpa [mapParts, h.1] using fun op x hx => h.2 (op, x) hx
  | call s callee args =>
    simp only [children, List.forall_mem_cons, List.forall_mem_map] at h
    have hargs : ∀ arg ∈ args, arg.mapParts place word g = arg.mapParts place word g' := by
      intro arg harg
      have hvalue := h.2 arg harg
      cases arg with
      | positional e => exact congrArg Argument.positional hvalue
      | keyword s n e => exact congrArg (Argument.keyword (place s) (word n)) hvalue
    simpa [mapParts, h.1] using hargs
  | dict s entries =>
    simp only [children, List.forall_mem_flatMap, List.forall_mem_cons] at h
    have hentries : ∀ entry ∈ entries, (g entry.1, g entry.2) = (g' entry.1, g' entry.2) := by
      intro entry hentry
      obtain ⟨hkey, hvalue, -⟩ := h entry hentry
      rw [hkey, hvalue]
    rw [mapParts, mapParts, List.map_congr_left hentries]
  | slice s l u t =>
    cases l <;> cases u <;> cases t <;> simp_all [mapParts, children]
  | comprehension s kind e v clauses =>
    simp only [children, List.forall_mem_cons, List.forall_mem_append, Option.mem_toList,
      List.forall_mem_flatMap, clauseParts] at h
    obtain ⟨he, hv, hclauses⟩ := h
    have hsame : ∀ c ∈ clauses, c.mapParts word g = c.mapParts word g' := by
      intro c hc
      obtain ⟨hiter, hconditions⟩ := hclauses c hc
      rw [Clause.mapParts, Clause.mapParts, hiter, List.map_congr_left hconditions]
    rw [mapParts, mapParts, he, List.map_congr_left hsame, Option.map_congr hv]

theorem mapParts_mapParts (place' : Span → Span) (word' : String → String) (g' : Expr → Expr)
    (e : Expr) : (e.mapParts place word g).mapParts place' word' g' =
      e.mapParts (place' ∘ place) (word' ∘ word) (g' ∘ g) := by
  have hargs : Argument.mapParts place' word' g' ∘ Argument.mapParts place word g =
      Argument.mapParts (place' ∘ place) (word' ∘ word) (g' ∘ g) := by
    funext arg
    cases arg <;> rfl
  have hclauses : Clause.mapParts word' g' ∘ Clause.mapParts word g =
      Clause.mapParts (word' ∘ word) (g' ∘ g) := by
    funext c
    simp [Clause.mapParts]
  cases e <;> simp [mapParts, hargs, hclauses, Function.comp_def]

end MapParts

theorem mapParts_id (e : Expr) : e.mapParts id id id = e := by
  have hargs : Argument.mapParts id id id = id := by
    funext arg
    cases arg <;> rfl
  have hclauses : Clause.mapParts id id = id := by
    funext c
    simp [Clause.mapParts]
  cases e <;> simp [mapParts, hargs, hclauses]

/-! ### Ends of branches -/

def atom? : Expr → Option Atom
  | .literal _ v => some (.constant v)
  | .name _ n => some (.name n)
  | _ => none

theorem atom?_expr (s : Span) (a : Atom) : (a.expr s).atom? = some a := by
  cases a <;> rfl

theorem span_expr (s : Span) (a : Atom) : (a.expr s).span = s := by
  cases a <;> rfl

theorem eq_expr_of_atom? {e : Expr} {a : Atom} (h : e.atom? = some a) : e = a.expr e.span := by
  cases e with
  | literal | name =>
    cases h
    rfl
  | _ => cases h

theorem atom?_mapParts (place : Span → Span) (word : String → String) (g : Expr → Expr)
    (e : Expr) : (e.mapParts place word g).atom? = e.atom? := by
  cases e <;> rfl

variable {f g} {e : Expr}

theorem reworded_of_some {a : Atom} (h : e.atom? = some a) :
    e.reworded f = (f.atom a).expr e.span := by
  cases e with
  | literal | name =>
    cases h
    rfl
  | _ => cases h

theorem reworded_of_none (h : e.atom? = none) :
    e.reworded f = e.mapParts id f.word (reworded f) := by
  have hargs : Argument.reworded f = Argument.mapParts id f.word (reworded f) := by
    funext arg
    cases arg <;> rfl
  have hclauses : Clause.reworded f = Clause.mapParts f.word (reworded f) := rfl
  cases e with
  | literal | name => cases h
  | _ => simp [reworded, mapParts, hargs, hclauses]

theorem bare_of_not_paren (h : e.isParen = false) :
    e.bare = e.mapParts (fun _ => default) id bare := by
  have hargs : Argument.bare = Argument.mapParts (fun _ => default) id bare := by
    funext arg
    cases arg <;> rfl
  have hclauses : Clause.bare = Clause.mapParts id bare := by
    funext c
    simp [Clause.bare, Clause.mapParts]
  cases e with
  | paren => cases h
  | _ =>
    simp [bare, mapParts, hargs, hclauses, bareAll_eq, bareOption_eq, bareLinks_eq, bareArgs_eq,
      bareEntries_eq, bareClauses_eq]

/-! ### One rewording after another -/

/-- **Two rewordings are one.** -/
theorem reworded_reworded (f g : Rewording) (e : Expr) :
    (e.reworded f).reworded g = e.reworded (g.after f) := by
  induction e using Expr.induction with
  | step e ih =>
    cases h : e.atom? with
    | some a =>
      rw [reworded_of_some h, reworded_of_some h, reworded_of_some (atom?_expr _ _), span_expr]
      rfl
    | none =>
      rw [reworded_of_none h, reworded_of_none h, reworded_of_none (by rw [atom?_mapParts, h]),
        mapParts_mapParts]
      exact mapParts_congr _ _ ih

/-- It matters only what is put for the names and constants of the tree. -/
theorem reworded_congr (hword : f.word = g.word)
    (h : ∀ n ∈ e.nodes, ∀ a, n.atom? = some a → f.atom a = g.atom a) :
    e.reworded f = e.reworded g := by
  induction e using Expr.induction with
  | step e ih =>
    cases hatom : e.atom? with
    | some a => rw [reworded_of_some hatom, reworded_of_some hatom, h e e.mem_nodes_self a hatom]
    | none =>
      rw [reworded_of_none hatom, reworded_of_none hatom, hword]
      exact mapParts_congr _ _ fun c hc => ih c hc fun n hn => h n (mem_nodes_of_child hc hn)

theorem reworded_id (e : Expr) : e.reworded ⟨id, id⟩ = e := by
  induction e using Expr.induction with
  | step e ih =>
    cases hatom : e.atom? with
    | some a =>
      rw [reworded_of_some hatom]
      exact (eq_expr_of_atom? hatom).symm
    | none =>
      rw [reworded_of_none hatom]
      exact (mapParts_congr id id ih).trans e.mapParts_id

theorem bare_expr (s : Span) (a : Atom) : (a.expr s).bare = a.expr default := by
  cases a <;> rfl

/-- Spans and parentheses have no part in it. -/
theorem bare_reworded (f : Rewording) (e : Expr) : (e.reworded f).bare = e.bare.reworded f := by
  induction e using Expr.induction with
  | step e ih =>
    cases hatom : e.atom? with
    | some a =>
      rw [reworded_of_some hatom, bare_expr, eq_expr_of_atom? hatom, bare_expr,
        reworded_of_some (atom?_expr _ _), span_expr]
    | none =>
      cases hparen : e.isParen with
      | true =>
        cases e with
        | paren s inner => exact ih inner (List.mem_singleton_self inner)
        | _ => cases hparen
      | false =>
        have hparen' : (e.mapParts id f.word (reworded f)).isParen = false := by
          rw [← hparen]
          cases e <;> rfl
        rw [reworded_of_none hatom, bare_of_not_paren hparen', bare_of_not_paren hparen,
          reworded_of_none (by rw [atom?_mapParts, hatom]), mapParts_mapParts, mapParts_mapParts]
        exact mapParts_congr _ _ ih

theorem children_reworded (f : Rewording) (e : Expr) :
    (e.reworded f).children = e.children.map (reworded f) := by
  cases hatom : e.atom? with
  | some a =>
    have hnone : ∀ (s : Span) (a : Atom), (a.expr s).children = [] := by
      intro s a
      cases a <;> rfl
    rw [reworded_of_some hatom, eq_expr_of_atom? hatom, hnone, hnone]
    rfl
  | none => rw [reworded_of_none hatom, children_mapParts]

theorem nodes_reworded (f : Rewording) (e : Expr) :
    (e.reworded f).nodes = e.nodes.map (reworded f) := by
  induction e using Expr.induction with
  | step e ih =>
    rw [nodes_eq, nodes_eq e, children_reworded, List.flatMap_map, List.map_cons, List.map_flatMap]
    exact congrArg _ (List.flatMap_congr ih)

/-! ### Trees that fit -/

/-- What can be told from the node alone, whatever its words are, stays as it is. -/
theorem place_reworded (place : Expr → Bool) (hatom : ∀ s a, place (Atom.expr s a) = true)
    (hmap : ∀ (word : String → String) (g : Expr → Expr) (e : Expr),
      place (e.mapParts id word g) = place e) (f : Rewording) (e : Expr) :
    place (e.reworded f) = place e := by
  cases h : e.atom? with
  | some a => rw [reworded_of_some h, eq_expr_of_atom? h, hatom, hatom]
  | none => rw [reworded_of_none h, hmap]

section Places

variable (f : Rewording) (e : Expr)

@[simp] theorem isExpression_reworded : (e.reworded f).isExpression = e.isExpression :=
  place_reworded isExpression (fun s a => by cases a <;> rfl) (fun _ _ e => by cases e <;> rfl) f e

@[simp] theorem isItem_reworded : (e.reworded f).isItem = e.isItem :=
  place_reworded isItem (fun s a => by cases a <;> rfl) (fun _ _ e => by cases e <;> rfl) f e

@[simp] theorem isArgument_reworded : (e.reworded f).isArgument = e.isArgument :=
  place_reworded isArgument (fun s a => by cases a <;> rfl) (fun _ _ e => by cases e <;> rfl) f e

@[simp] theorem isIndex_reworded : (e.reworded f).isIndex = e.isIndex :=
  place_reworded isIndex (fun s a => by cases a <;> rfl) (fun _ _ e => by cases e <;> rfl) f e

@[simp] theorem isSource_reworded : (e.reworded f).isSource = e.isSource :=
  place_reworded isSource (fun s a => by cases a <;> rfl) (fun _ _ e => by cases e <;> rfl) f e

end Places

end Expr

/-- Names become names and words become words, and what is put for a name or a constant can be
    written, without quotes and points. -/
structure Rewording.Proper (f : Rewording) : Prop where
  name {n : String} : isName n = true → isName (f.word n) = true
  word {n : String} : isWord n.toList = true → isWord (f.word n).toList = true
  fits {a : Atom} {s : Span} : (a.expr s).Fits → ((f.atom a).expr s).Fits
  simple (a : Atom) (s : Span) : ((f.atom a).expr s).isSimple = true

namespace Expr

variable {f : Rewording} (hf : f.Proper)
include hf

theorem fits_argument {arg : Argument Expr} (h : arg.Fits) :
    (arg.mapParts id f.word (reworded f)).Fits := by
  cases arg with
  | positional e => simpa [Argument.mapParts, Argument.Fits] using h
  | keyword s n e => exact ⟨hf.name h.1, by simpa using h.2⟩

theorem fits_clause {c : Clause Expr} (h : c.Fits) : (c.mapParts f.word (reworded f)).Fits where
  targets_ne_nil := by simpa [Clause.mapParts] using h.targets_ne_nil
  targets := List.forall_mem_map.mpr fun n hn => hf.name (h.targets n hn)
  iter := by simpa [Clause.mapParts] using h.iter
  conditions := List.forall_mem_map.mpr fun e he => by simpa using h.conditions e he

omit hf in
theorem argumentsOrdered_mapParts (word : String → String) (seen : Bool)
    (args : List (Argument Expr)) :
    argumentsOrdered seen (args.map (Argument.mapParts id word (reworded f))) =
      argumentsOrdered seen args := by
  induction args generalizing seen with
  | nil => rfl
  | cons arg rest ih =>
    cases arg with
    | keyword s n e => exact ih true
    | positional e =>
      rw [List.map_cons, Argument.mapParts]
      by_cases he : e.isExpression = true
      · rw [argumentsOrdered_plain he, argumentsOrdered_plain (by simpa using he), ih]
      · cases e with
        | starred s double e => exact ih _
        | slice | assign | statement => simp only [reworded, argumentsOrdered, ih]
        | _ => exact absurd rfl he

theorem fits_reworded {e : Expr} (h : e.Fits) : (e.reworded f).Fits := by
  cases hatom : e.atom? with
  | some a =>
    rw [eq_expr_of_atom? hatom] at h
    rw [reworded_of_some hatom]
    exact hf.fits h
  | none =>
    rw [reworded_of_none hatom]
    cases e with
    | literal | name => cases hatom
    | statement => exact h
    | unary | paren | starred | binary | boolOp | named | assign | conditional | list | tuple
    | set | subscript =>
      simpa [mapParts, Fits] using h
    | member s e attr => exact ⟨by simpa using h.1, hf.word h.2⟩
    | compare s l links =>
      obtain ⟨hl, hsome, hlinks⟩ := h
      exact ⟨by simpa using hl, by simpa using hsome,
        List.forall_mem_map.mpr fun link hlink => by simpa using hlinks link hlink⟩
    | call s callee args =>
      obtain ⟨hcallee, hordered, hargs⟩ := h
      exact ⟨by simpa using hcallee, (argumentsOrdered_mapParts _ _ _).trans hordered,
        List.forall_mem_map.mpr fun arg harg => fits_argument hf (hargs arg harg)⟩
    | dict s entries =>
      exact List.forall_mem_map.mpr fun entry hentry => by simpa using h entry hentry
    | slice s l u t =>
      cases l <;> cases u <;> cases t <;> simp_all [mapParts, Fits]
    | lambda s params e =>
      exact ⟨List.forall_mem_map.mpr fun n hn => hf.name (h.1 n hn), by simpa using h.2⟩
    | comprehension s kind e v clauses =>
      obtain ⟨he, hkind, hv, hsome, hclauses⟩ := h
      refine ⟨by simpa using he, by simpa using hkind, ?_, by simpa using hsome,
        List.forall_mem_map.mpr fun c hc => fits_clause hf (hclauses c hc)⟩
      intro x hx
      obtain ⟨y, hy, rfl⟩ := Option.map_eq_some_iff.mp hx
      simpa using hv y hy

theorem allFit_reworded {e : Expr} (h : e.AllFit) : (e.reworded f).AllFit := by
  unfold AllFit
  rw [nodes_reworded]
  exact List.forall_mem_map.mpr fun n hn => fits_reworded hf (h n hn)

theorem isSimple_reworded (e : Expr) : (e.reworded f).isSimple = true := by
  cases hatom : e.atom? with
  | some a =>
    rw [reworded_of_some hatom]
    exact hf.simple a _
  | none =>
    rw [reworded_of_none hatom]
    cases e with
    | literal | name => cases hatom
    | _ => rfl

end Expr

end SafeExpr
