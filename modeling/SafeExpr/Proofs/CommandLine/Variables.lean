/-
  SafeExpr/Proofs/CommandLine/Variables.lean
  ==========================================
  **What the members of a JSON object are bound to.**

  Variables are made from the tree of an object.  They are the entries of the value that the
  text is decoded to, in the order of their names, and so each of them is what the text of
  its own member is decoded to, except that the entries of all dicts in it are in the order
  of their names, too.  A dict keeps its entries in the order in which they came only if that
  is the order of their names.
-/
import SafeExpr.CommandLine.Run
import SafeExpr.Proofs.Json.Tree

namespace SafeExpr

open JsonText

namespace CommandLine

/-! ### Members and entries -/

/-- The members of a tree are bound as the entries that they make. -/
theorem bindMembers_of_entries? {ms : List (String × JsonTree)} {es : List (Value × Value)}
    (h : JsonTree.entries? ms = some es) :
    ∃ bs : List (String × Value), es = bs.map named ∧
      ∀ vars, bindMembers vars ms = some (bs.foldl (fun t e => t.insert e.1 e.2) vars) := by
  induction ms generalizing es with
  | nil =>
    cases h
    exact ⟨[], rfl, fun _ => rfl⟩
  | cons m rest ih =>
    obtain ⟨name, t⟩ := m
    obtain ⟨v, hv, h⟩ := Option.bind_eq_some_iff.mp h
    obtain ⟨es', hes', h⟩ := Option.bind_eq_some_iff.mp h
    cases h
    obtain ⟨bs, rfl, hbind⟩ := ih hes'
    refine ⟨(name, v) :: bs, rfl, fun vars => ?_⟩
    rw [bindMembers, hv]
    exact hbind _

/-- The variables of an object are the entries of its value. -/
theorem bindMembers_of_fits {ms : List (String × JsonTree)} {v : Value}
    (h : Fits (.object ms) v) :
    ∃ vars : Variables, bindMembers {} ms = some vars ∧ v.byName = .dict (vars.entries.map named) := by
  rw [Fits, JsonTree.value?] at h
  obtain ⟨es, hes, hdict⟩ := Option.bind_eq_some_iff.mp h
  obtain ⟨bs, rfl, hbind⟩ := bindMembers_of_entries? hes
  refine ⟨Table.ofList bs, hbind {}, ?_⟩
  rw [mkDict_named] at hdict
  exact (Option.some.inj hdict).symm

theorem named_injective : Function.Injective named := by
  rintro ⟨n, v⟩ ⟨n', v'⟩ h
  cases h
  rfl

/-- Only objects have dicts for values. -/
theorem object_of_value?_dict {t : JsonTree} {es : List (Value × Value)}
    (h : t.value? = some (.dict es)) : ∃ ms, t = .object ms := by
  cases t with
  | object ms => exact ⟨ms, rfl⟩
  | number n =>
    have hvalue : n.value = .dict es := Option.some.inj h
    rcases number_value_cases n with ⟨m, hm⟩ | ⟨x, hx⟩
    · cases hm.symm.trans hvalue
    · cases hx.symm.trans hvalue
  | array items =>
    obtain ⟨vs, -, hvs⟩ := Option.bind_eq_some_iff.mp h
    cases hvs
  | _ => cases h

/-- **The variables are the entries of the decoded value, in the order of their names.** -/
theorem jsonVariables?_eq_some_iff {text : String} {vars : Variables} :
    jsonVariables? text = some vars ↔
      ∃ v, Value.ofJson? text = some v ∧ v.byName = .dict (vars.entries.map named) := by
  rcases JsonTree.ofText?_agrees text with ⟨htree, hvalue⟩ | ⟨t, v, htree, hvalue, hfits⟩
  · simp [jsonVariables?, htree, hvalue]
  · constructor
    · intro h
      rw [jsonVariables?, htree] at h
      cases t with
      | object ms =>
        obtain ⟨vars', hvars', hv⟩ := bindMembers_of_fits hfits
        cases hvars'.symm.trans h
        exact ⟨v, hvalue, hv⟩
      | _ => cases h
    · rintro ⟨w, hw, hdict⟩
      cases hvalue.symm.trans hw
      rw [Fits, hdict] at hfits
      obtain ⟨ms, rfl⟩ := object_of_value?_dict hfits
      rw [← hdict] at hfits
      obtain ⟨vars', hvars', hv⟩ := bindMembers_of_fits hfits
      rw [hdict] at hv
      have hentries : vars.entries = vars'.entries :=
        List.map_injective_iff.mpr named_injective (Value.dict.inj hv)
      have hvars : vars = vars' := congrArg Table.mk hentries
      rw [jsonVariables?, htree, hvars]
      exact hvars'

/-! ### Several members of one name -/

section Tables

variable {α β : Type}

theorem find?_map_values (f : α → β) (n : String) (es : List (String × α)) :
    Table.find? n (es.map fun e => (e.1, f e.2)) = (Table.find? n es).map f := by
  induction es with
  | nil => rfl
  | cons e rest ih =>
    rw [List.map_cons, Table.find?, Table.find?, ih]
    split
    · rfl
    · rfl

/-- The names that are bound are those of the members. -/
theorem isSome_get?_ofList (es : List (String × Value)) (n : String) :
    ((Table.ofList es).get? n).isSome = true ↔ n ∈ es.map Prod.fst := by
  induction es using List.reverseRecOn with
  | nil => simp [Table.ofList, Table.get?, Table.find?]
  | append_singleton es e ih =>
    rw [ofList_append_singleton, Table.get?_insert, List.map_append, List.mem_append, ← ih]
    by_cases hn : n = e.1
    · simp [hn]
    · simp [hn]

/-- Of several members of one name the last counts. -/
theorem get?_ofList_last {front behind : List (String × Value)} {e : String × Value}
    (h : ∀ f ∈ behind, f.1 ≠ e.1) :
    (Table.ofList (front ++ e :: behind)).get? e.1 = some e.2 := by
  induction behind using List.reverseRecOn with
  | nil => rw [ofList_append_singleton, Table.get?_insert, if_pos rfl]
  | append_singleton behind f ih =>
    obtain ⟨hbehind, hf⟩ := List.forall_mem_append.mp h
    rw [← List.cons_append, ← List.append_assoc, ofList_append_singleton, Table.get?_insert,
      if_neg (hf f (List.mem_singleton_self f)).symm]
    exact ih hbehind

end Tables

/-! ### Members of a text -/

/-- The text is an object of these members, and the text of each member is decoded to its
    value. -/
structure Decodes (text : String) (members : List Member) : Prop where
  object : ObjectText text.toList members
  value : ∀ m ∈ members, Value.ofJson? (String.ofList m.text) = some m.value

theorem Decodes.denotes {text : String} {members : List Member} (h : Decodes text members)
    {m : Member} (hm : m ∈ members) : JsonText.Denotes maxNesting m.text m.value := by
  have hvalue := Value.ofJson?_eq_some_iff.mp (h.value m hm)
  rwa [String.toList_ofList] at hvalue

theorem mkDict_members (members : List Member) :
    Value.mkDict (members.map Member.entry) = .ok (.dict ((Table.ofList
      (members.map fun m => (m.name, m.value))).entries.map named)) := by
  rw [← mkDict_named, List.map_map]
  rfl

/-- The text that variables come from is an object. -/
theorem exists_decodes {text : String} {vars : Variables} (h : jsonVariables? text = some vars) :
    ∃ members, Decodes text members := by
  obtain ⟨v, hv, hdict⟩ := jsonVariables?_eq_some_iff.mp h
  cases v with
  | dict es =>
    obtain ⟨members, hobject, hvalues, -⟩ :=
      (Value.ofJson?_eq_some_iff.mp hv).exists_objectText
    refine ⟨members, hobject, fun m hm => Value.ofJson?_eq_some_iff.mpr ?_⟩
    rw [String.toList_ofList]
    exact hvalues m hm
  | _ => cases hdict

/-- However the text is taken apart, its variables are those of the members. -/
theorem Decodes.get? {text : String} {members : List Member} (h : Decodes text members)
    {vars : Variables} (hvars : jsonVariables? text = some vars) (n : String) :
    vars.get? n =
      ((Table.ofList (members.map fun m => (m.name, m.value))).get? n).map Value.byName := by
  obtain ⟨v, hv, hdict⟩ := jsonVariables?_eq_some_iff.mp hvars
  have hmade := h.object.denotes (fun m hm => h.denotes hm) (mkDict_members members)
  rw [(Value.ofJson?_eq_some_iff.mp hv).unique hmade, byName_mkDict] at hdict
  have hentries : (gather (members.map fun m => (m.name, m.value))).map
      (fun e => (e.1, e.2.byName)) = vars.entries := by
    refine List.map_injective_iff.mpr named_injective ?_
    rw [List.map_map]
    exact Value.dict.inj hdict
  rw [Table.get?, ← hentries, find?_map_values, find?_gather]

/-- **What the variables of a JSON object are.**  The text is an object, and however it is
    taken apart into members, the names of the members are the bound ones, and each is bound
    to what the text of its last member is decoded to, with the entries of all dicts in it in
    the order of their names.  That is the decoded value itself if and only if the names of
    all dicts in it ascend. -/
theorem variables_of_members {text : String} {vars : Variables}
    (h : jsonVariables? text = some vars) :
    (∃ members, Decodes text members) ∧
    ∀ members, Decodes text members →
      (∀ n, (vars.get? n).isSome = true ↔ n ∈ members.map Member.name) ∧
      ∀ front m behind, members = front ++ m :: behind → (∀ m' ∈ behind, m'.name ≠ m.name) →
        vars.get? m.name = some m.value.byName ∧
        (m.value.byName = m.value ↔ m.value.NameOrdered) := by
  refine ⟨exists_decodes h, fun members hmembers => ⟨fun n => ?_, ?_⟩⟩
  · rw [hmembers.get? h, Option.isSome_map, isSome_get?_ofList, List.map_map]
    rfl
  · rintro front m behind rfl hlast
    refine ⟨?_, (hmembers.denotes (by simp)).byName_eq_iff⟩
    have hbehind : ∀ f ∈ behind.map fun m => (m.name, m.value), f.1 ≠ m.name :=
      List.forall_mem_map.mpr hlast
    rw [hmembers.get? h, List.map_append, List.map_cons, get?_ofList_last hbehind]
    rfl

/-- A nested object whose names descend is bound in another order than it is decoded in. -/
theorem variables_reordered :
    let member := " \x7b\"b\": 1, \"a\": 2\x7d"
    let text := "\x7b\"x\":" ++ member ++ "\x7d"
    (jsonVariables? text).any (fun vars =>
      (vars.get? "x").map Value.render = some "\x7b'a': 2, 'b': 1\x7d") = true ∧
    (Value.ofJson? member).map Value.render = some "\x7b'b': 1, 'a': 2\x7d" := by
  refine ⟨?_, ?_⟩
  · decide +kernel
  · decide +kernel

end CommandLine

end SafeExpr
