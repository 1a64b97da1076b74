/-
  SafeExpr/Proofs/Namespace/History.lean
  ======================================
  **What a module holds after any sequence of registrations.**

  A host fills a module step by step: it binds names, again if it likes, and declares what
  it exports, in parts or all at once.  `Registration` is one such step.  After a history of
  them a name is bound to what it was bound to last (`resolve_ofHistory`), and exporting
  everything lists each bound name once, in order (`names_ofHistory`).
-/
import SafeExpr.Namespace.Module

namespace SafeExpr

/-! ### Names of a table -/

namespace Table

variable {α : Type}

/-- The names of a table are those that it binds. -/
theorem isSome_find?_iff {name : String} {entries : List (String × α)} :
    (find? name entries).isSome = true ↔ name ∈ entries.map Prod.fst := by
  induction entries with
  | nil => simp [find?]
  | cons e rest ih =>
    obtain ⟨n, v⟩ := e
    rw [find?, List.map_cons, List.mem_cons]
    by_cases h : n = name
    · simp [h]
    · rw [if_neg h, ih]
      simp [Ne.symm h]

theorem mem_map_fst_put {name n : String} {value : α} {entries : List (String × α)} :
    n ∈ (put name value entries).map Prod.fst ↔ n = name ∨ n ∈ entries.map Prod.fst := by
  rw [← isSome_find?_iff, find?_put, ← isSome_find?_iff]
  by_cases h : n = name
  · simp [h]
  · simp [h]

/-- Binding a name lists it once, whether it was bound or not. -/
theorem nodup_put {entries : List (String × α)} (h : (entries.map Prod.fst).Nodup)
    (name : String) (value : α) : ((put name value entries).map Prod.fst).Nodup := by
  induction entries with
  | nil => simp [put]
  | cons e rest ih =>
    obtain ⟨n, v⟩ := e
    rw [List.map_cons, List.nodup_cons] at h
    obtain ⟨hn, hrest⟩ := h
    rw [put]
    by_cases heq : n = name
    · rw [if_pos heq, List.map_cons, List.nodup_cons, ← heq]
      exact ⟨hn, hrest⟩
    · rw [if_neg heq, List.map_cons, List.nodup_cons]
      refine ⟨?_, ih hrest⟩
      intro hmem
      rcases mem_map_fst_put.mp hmem with h | h
      · exact heq h
      · exact hn h

theorem mem_names_iff {t : Table α} {n : String} : n ∈ t.names ↔ (t.get? n).isSome = true := by
  rw [names, List.mem_mergeSort]
  exact isSome_find?_iff.symm

/-- The sorted names, each of them once. -/
theorem names_sorted (t : Table α) : t.names.Pairwise (· ≤ ·) := by
  have htotal : ∀ a b : String, (decide (a ≤ b) || decide (b ≤ a)) = true := by
    intro a b
    simpa using String.le_total a b
  have htrans : ∀ a b c : String, decide (a ≤ b) = true → decide (b ≤ c) = true →
      decide (a ≤ c) = true := by
    intro a b c hab hbc
    simp only [decide_eq_true_eq] at hab hbc ⊢
    exact String.le_trans hab hbc
  have hsorted := List.pairwise_mergeSort htrans htotal (t.entries.map Prod.fst)
  exact hsorted.imp fun h => of_decide_eq_true h

theorem names_nodup {t : Table α} (h : (t.entries.map Prod.fst).Nodup) : t.names.Nodup :=
  (List.mergeSort_perm _ _).nodup_iff.mpr h

end Table

/-! ### Registrations -/

/-- One step in which a host fills a module. -/
inductive Registration where
  | register (name : String) (b : Binding)
  | constant (name : String) (v : Value)
  | function (f : NativeFunction)
  | declare (names : List String)
  | declareAll

namespace Registration

def apply (m : Module) : Registration → Module
  | register name b => m.register name b
  | constant name v => m.constant name v
  | function f => m.function f
  | declare names => m.declare names
  | declareAll => m.declareAll

/-- The name that a step binds, and what it binds it to. -/
def binding? : Registration → Option (String × Binding)
  | register name b => some (name, b)
  | constant name v => some (name, .value v)
  | function f => some (f.name, .function f)
  | declare _ | declareAll => none

/-- What the last step that binds a name binds it to. -/
def lastBinding (history : List Registration) (n : String) : Option Binding :=
  (history.filterMap binding?).reverse.lookup n

theorem lastBinding_cons (r : Registration) (history : List Registration) (n : String) :
    lastBinding (r :: history) n =
      (lastBinding history n).or (r.binding?.toList.lookup n) := by
  unfold lastBinding
  cases h : r.binding? with
  | none => simp [h]
  | some b => simp [h, List.lookup_append]

/-- A step binds its name, if it has one, and leaves all other names alone. -/
theorem resolve_apply (r : Registration) (m : Module) (n : String) :
    (r.apply m).resolve n = (r.binding?.toList.lookup n).or (m.resolve n) := by
  have hinsert : ∀ name b, (m.bindings.insert name b).get? n =
      ([(name, b)].lookup n).or (m.resolve n) := by
    intro name b
    rw [Table.get?_insert, List.lookup_cons]
    by_cases h : n = name
    · simp [h]
    · simp [h, Module.resolve, beq_eq_false_iff_ne.mpr h]
  cases r with
  | register name b => exact hinsert name b
  | constant name v => exact hinsert name (.value v)
  | function f => exact hinsert f.name (.function f)
  | declare names | declareAll => rfl

theorem nodup_apply {m : Module} (h : (m.bindings.entries.map Prod.fst).Nodup)
    (r : Registration) : ((r.apply m).bindings.entries.map Prod.fst).Nodup := by
  cases r with
  | register name b => exact Table.nodup_put h name b
  | constant name v => exact Table.nodup_put h name (.value v)
  | function f => exact Table.nodup_put h f.name (.function f)
  | declare names | declareAll => exact h

end Registration

open Registration (lastBinding)

namespace Module

/-- The module that a host has after the steps of a history. -/
def ofHistory (name : String) (history : List Registration) : Module :=
  history.foldl Registration.apply { name := name }

theorem resolve_foldl (history : List Registration) (m : Module) (n : String) :
    (history.foldl Registration.apply m).resolve n =
      (lastBinding history n).or (m.resolve n) := by
  induction history generalizing m with
  | nil => rfl
  | cons r rest ih =>
    rw [List.foldl_cons, ih, Registration.resolve_apply, Registration.lastBinding_cons,
      Option.or_assoc]

/-- **A name is bound to what it was bound to last.** -/
theorem resolve_ofHistory (name : String) (history : List Registration) (n : String) :
    (ofHistory name history).resolve n = lastBinding history n := by
  rw [ofHistory, resolve_foldl]
  exact Option.or_none

theorem nodup_foldl (history : List Registration) {m : Module}
    (h : (m.bindings.entries.map Prod.fst).Nodup) :
    ((history.foldl Registration.apply m).bindings.entries.map Prod.fst).Nodup := by
  induction history generalizing m with
  | nil => exact h
  | cons r rest ih => exact ih (r.nodup_apply h)

/-- **Exporting everything lists each name that was ever bound, once and in order.** -/
theorem names_ofHistory (name : String) (history : List Registration) :
    let names := (ofHistory name history).bindings.names
    (ofHistory name (history ++ [.declareAll])).exports = some names ∧
      names.Pairwise (· ≤ ·) ∧ names.Nodup ∧
      ∀ n, n ∈ names ↔ (lastBinding history n).isSome = true := by
  intro names
  refine ⟨?_, Table.names_sorted _, ?_, ?_⟩
  · rw [ofHistory, List.foldl_append]
    rfl
  · exact Table.names_nodup (nodup_foldl history .nil)
  · intro n
    rw [← resolve_ofHistory name]
    exact Table.mem_names_iff

end Module

end SafeExpr
