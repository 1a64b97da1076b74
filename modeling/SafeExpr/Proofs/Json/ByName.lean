/-
  SafeExpr/Proofs/Json/ByName.lean
  ================================
  **Entries in the order of their names.**

  `Value.byName` puts the entries of all dicts in a value in the order of their names, and
  leaves a value alone if they are in this order (`NameOrdered`).  Members that are put in
  their place one by one are in this order, too: they are the entries of the dict that they
  make, sorted.
-/
import Mathlib.Data.List.Sort
import Mathlib.Data.String.Basic
import SafeExpr.Json.Tree
import SafeExpr.Proofs.Evaluation.Constant
import SafeExpr.Proofs.Json.Text
import SafeExpr.Proofs.Namespace.History

namespace SafeExpr

/-! ### Sorted values -/

namespace Value

mutual

/-- The value with the entries of all dicts in it in the order of their names. -/
def byName : Value → Value
  | list vs => list (byNameAll vs)
  | dict es =>
    dict ((byNameEntries es).insertionSort fun e f => e.1.plain ≤ f.1.plain)
  | v => v

def byNameAll : List Value → List Value
  | [] => []
  | v :: rest => byName v :: byNameAll rest

def byNameEntries : List (Value × Value) → List (Value × Value)
  | [] => []
  | (k, v) :: rest => (k, byName v) :: byNameEntries rest

end

theorem byNameAll_eq (vs : List Value) : byNameAll vs = vs.map byName := by
  induction vs with
  | nil => rfl
  | cons v rest ih => rw [byNameAll, ih, List.map_cons]

theorem byNameEntries_eq (es : List (Value × Value)) :
    byNameEntries es = es.map fun e => (e.1, e.2.byName) := by
  induction es with
  | nil => rfl
  | cons e rest ih => rw [byNameEntries, ih, List.map_cons]

/-- The names of all dicts in the value ascend. -/
inductive NameOrdered : Value → Prop
  | list {vs : List Value} (h : ∀ v ∈ vs, NameOrdered v) : NameOrdered (list vs)
  | dict {es : List (Value × Value)} (hnames : es.Pairwise fun e f => e.1.plain < f.1.plain)
    (h : ∀ e ∈ es, NameOrdered e.2) : NameOrdered (dict es)
  | other {v : Value} (hlist : ∀ vs, v ≠ list vs) (hdict : ∀ es, v ≠ dict es) : NameOrdered v

theorem NameOrdered.byName_eq {v : Value} (h : v.NameOrdered) : v.byName = v := by
  induction h with
  | @list vs _ ih =>
    rw [byName, byNameAll_eq, List.map_congr_left ih, List.map_id']
  | @dict es hnames _ ih =>
    have hentries : es.map (fun e => (e.1, e.2.byName)) = es := by
      refine (List.map_congr_left fun e he => ?_).trans (List.map_id' es)
      exact Prod.ext rfl (ih e he)
    rw [byName, byNameEntries_eq, hentries,
      (hnames.imp fun hlt => le_of_lt hlt).insertionSort_eq]
  | @other v hlist hdict =>
    cases v with
    | list vs => exact absurd rfl (hlist vs)
    | dict es => exact absurd rfl (hdict es)
    | _ => rfl

end Value

namespace JsonText

open Value (byName)

/-! ### Members that are put in order -/

section Members

variable {α : Type} {es fs : List (String × α)} {name : String} {x : α}

/-- The names ascend. -/
def Ascending (es : List (String × α)) : Prop := es.Pairwise fun e f => e.1 < f.1

theorem mem_putMember {e : String × α} (h : e ∈ putMember name x es) :
    e = (name, x) ∨ e ∈ es := by
  induction es with
  | nil => exact Or.inl (List.mem_singleton.mp h)
  | cons f rest ih =>
    obtain ⟨n, y⟩ := f
    rw [putMember] at h
    split at h
    · next heq =>
      rcases List.mem_cons.mp h with rfl | h
      · exact Or.inl (heq ▸ rfl)
      · exact Or.inr (List.mem_cons_of_mem _ h)
    · split at h
      · rcases List.mem_cons.mp h with rfl | h
        · exact Or.inl rfl
        · exact Or.inr h
      · rcases List.mem_cons.mp h with rfl | h
        · exact Or.inr List.mem_cons_self
        · exact (ih h).imp_right (List.mem_cons_of_mem _)

theorem Ascending.putMember (h : Ascending es) (name : String) (x : α) :
    Ascending (putMember name x es) := by
  induction es with
  | nil => exact List.pairwise_singleton _ _
  | cons f rest ih =>
    obtain ⟨n, y⟩ := f
    obtain ⟨hbefore, hrest⟩ := List.pairwise_cons.mp h
    rw [JsonText.putMember]
    split
    · exact List.pairwise_cons.mpr ⟨hbefore, hrest⟩
    · next hne =>
      split
      · next hlt =>
        refine List.pairwise_cons.mpr ⟨List.forall_mem_cons.mpr ⟨hlt, ?_⟩, h⟩
        exact fun e he => lt_trans hlt (hbefore e he)
      · next hnlt =>
        have hlt : n < name := lt_of_le_of_ne (not_lt.mp hnlt) (Ne.symm hne)
        refine List.pairwise_cons.mpr ⟨fun e he => ?_, ih hrest⟩
        rcases mem_putMember he with rfl | he
        · exact hlt
        · exact hbefore e he

/-- Members are found as bindings of a table are. -/
theorem find?_putMember (n : String) :
    Table.find? n (putMember name x es) = if n = name then some x else Table.find? n es := by
  induction es with
  | nil => grind [putMember, Table.find?]
  | cons e rest ih => grind [putMember, Table.find?]

theorem Ascending.nodup_names (h : Ascending es) : (es.map Prod.fst).Nodup :=
  List.pairwise_map.mpr (h.imp fun hlt => ne_of_lt hlt)

/-- Each name is bound once, so an entry is found by its name. -/
theorem mem_iff_find? (h : (es.map Prod.fst).Nodup) {e : String × α} :
    e ∈ es ↔ Table.find? e.1 es = some e.2 := by
  induction es with
  | nil => simp [Table.find?]
  | cons f rest ih =>
    obtain ⟨hnew, hrest⟩ := List.nodup_cons.mp h
    rw [List.mem_cons, Table.find?]
    by_cases hname : f.1 = e.1
    · rw [if_pos hname, Option.some_inj]
      constructor
      · rintro (rfl | he)
        · rfl
        · exact absurd (hname ▸ List.mem_map_of_mem he) hnew
      · intro hvalue
        exact Or.inl (Prod.ext hname.symm hvalue.symm)
    · rw [if_neg hname, ← ih hrest]
      refine ⟨?_, Or.inr⟩
      rintro (rfl | he)
      · exact absurd rfl hname
      · exact he

/-- **Sorting by names gives the members that ascend and are found alike.** -/
theorem Ascending.insertionSort_eq (hfs : Ascending fs) (hes : (es.map Prod.fst).Nodup)
    (h : ∀ n, Table.find? n es = Table.find? n fs) :
    es.insertionSort (fun e f => e.1 ≤ f.1) = fs := by
  have hperm : es.Perm fs := by
    rw [List.perm_ext_iff_of_nodup hes.of_map hfs.nodup_names.of_map]
    intro e
    rw [mem_iff_find? hes, h, ← mem_iff_find? hfs.nodup_names]
  have htotal : Std.Total fun e f : String × α => e.1 ≤ f.1 := ⟨fun e f => le_total e.1 f.1⟩
  have htrans : IsTrans (String × α) fun e f => e.1 ≤ f.1 := ⟨fun _ _ _ => le_trans⟩
  have hsorted := List.pairwise_insertionSort (fun e f : String × α => e.1 ≤ f.1) es
  refine ((es.perm_insertionSort _).trans hperm).eq_of_pairwise ?_ hsorted
    (hfs.imp fun hlt => le_of_lt hlt)
  intro e f he hf hle hge
  have hname : e.1 = f.1 := le_antisymm hle hge
  have hfound := (mem_iff_find? hes).mp ((List.mem_insertionSort _).mp he)
  rw [hname, h, (mem_iff_find? hfs.nodup_names).mp hf] at hfound
  exact Prod.ext hname (Option.some.inj hfound).symm

end Members

/-- The entries of a dict whose keys are names. -/
def named (e : String × Value) : Value × Value := (.str e.1, e.2)

/-! ### Dicts that are gathered member by member -/

theorem putEntry_named (es : List (String × Value)) (name : String) (v : Value) :
    Value.putEntry (es.map named) (.str name) v = (Table.put name v es).map named := by
  induction es with
  | nil => rfl
  | cons e rest ih =>
    obtain ⟨n, w⟩ := e
    rw [List.map_cons, named, Value.putEntry, Table.put, Value.eq, ih]
    by_cases hname : n = name
    · rw [if_pos hname, if_pos (beq_iff_eq.mpr hname), hname]
      rfl
    · rw [if_neg hname, if_neg (fun h => hname (beq_iff_eq.mp h))]
      rfl

/-- A dict of names is the table of its entries. -/
theorem mkDict_named (es : List (String × Value)) :
    Value.mkDict (es.map named) = .ok (.dict ((Table.ofList es).entries.map named)) := by
  have hgo : ∀ (t : Table Value) (es : List (String × Value)),
      Value.mkDict.go (t.entries.map named) (es.map named) =
        .ok (.dict ((es.foldl (fun t e => t.insert e.1 e.2) t).entries.map named)) := by
    intro t es
    induction es generalizing t with
    | nil => rfl
    | cons e rest ih =>
      have hhash : (Value.str e.1).requireHashable = .ok () := rfl
      rw [List.map_cons, named, Value.mkDict.go, hhash]
      dsimp only
      rw [putEntry_named]
      exact ih (t.insert e.1 e.2)
  exact hgo {} es

/-- The members in order, as they are gathered one by one. -/
def gather (es : List (String × Value)) : List (String × Value) :=
  es.foldl (fun made e => putMember e.1 e.2 made) []

theorem gather_append_singleton (es : List (String × Value)) (e : String × Value) :
    gather (es ++ [e]) = putMember e.1 e.2 (gather es) := by
  rw [gather, List.foldl_append]
  rfl

theorem ofList_append_singleton (es : List (String × Value)) (e : String × Value) :
    Table.ofList (es ++ [e]) = (Table.ofList es).insert e.1 e.2 := by
  rw [Table.ofList, List.foldl_append]
  rfl

theorem gather_ascending (es : List (String × Value)) : Ascending (gather es) := by
  induction es using List.reverseRecOn with
  | nil => exact .nil
  | append_singleton es e ih =>
    rw [gather_append_singleton]
    exact ih.putMember e.1 e.2

/-- **What is gathered in order is what a table holds.** -/
theorem find?_gather (es : List (String × Value)) (n : String) :
    Table.find? n (gather es) = (Table.ofList es).get? n := by
  induction es using List.reverseRecOn with
  | nil => rfl
  | append_singleton es e ih =>
    rw [gather_append_singleton, ofList_append_singleton, find?_putMember, Table.get?_insert, ih]

theorem nodup_names_ofList (es : List (String × Value)) :
    ((Table.ofList es).entries.map Prod.fst).Nodup := by
  induction es using List.reverseRecOn with
  | nil => exact List.nodup_nil
  | append_singleton es e ih =>
    rw [ofList_append_singleton]
    exact Table.nodup_put ih e.1 e.2

/-- The dict that entries make, in the order of the names. -/
theorem byName_mkDict (es : List (String × Value)) :
    (Value.dict ((Table.ofList es).entries.map named)).byName =
      .dict ((gather es).map fun e => named (e.1, e.2.byName)) := by
  have hsort : (Table.ofList es).entries.insertionSort (fun e f => e.1 ≤ f.1) = gather es :=
    (gather_ascending es).insertionSort_eq (nodup_names_ofList es) fun n => (find?_gather es n).symm
  have hmap := List.map_insertionSort (fun e f : String × Value => e.1 ≤ f.1)
    (fun e f : Value × Value => e.1.plain ≤ f.1.plain) (fun e => named (e.1, e.2.byName))
    (Table.ofList es).entries (fun _ _ _ _ => Iff.rfl)
  rw [hsort] at hmap
  rw [byName, Value.byNameEntries_eq, List.map_map, hmap]
  rfl

/-- Entries whose names ascend are a dict as they are. -/
theorem Ascending.mkDict {es : List (String × Value)} (h : Ascending es) :
    Value.mkDict (es.map named) = .ok (.dict (es.map named)) := by
  refine Value.mkDict_eq_ok ?_ ?_
  · intro e he
    obtain ⟨f, -, rfl⟩ := List.mem_map.mp he
    rfl
  · refine List.pairwise_map.mpr (h.imp fun hlt => ?_)
    exact Value.str_eq_eq_false fun heq => ne_of_lt hlt (Value.str.inj heq)

end JsonText

end SafeExpr
