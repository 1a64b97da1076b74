/-
  SafeExpr/Proofs/Json/Text.lean
  ==============================
  **The JSON text of a value, and what of a value it tells.**

  The text of an array is that of its items with commas between them, and the text of an
  object that of its members.  `Value.decoded` is the value that such a text stands for:
  arrays are lists, whatever they were written from, and an object is the dict that its
  members make, with the texts of the keys for keys.  `Value.nesting` is how deep arrays and
  objects lie in one another.
-/
import SafeExpr.Json.Write
import SafeExpr.Proofs.Evaluation.Constant

namespace SafeExpr

/-! ### Texts with commas between them -/

/-- The texts, each with a comma in front of it. -/
def afterCommas (texts : List (List Char)) : List Char := texts.flatMap fun cs => ',' :: cs

/-- The texts, separated by commas. -/
def commaSeparated : List (List Char) → List Char
  | [] => []
  | cs :: texts => cs ++ afterCommas texts

theorem commaSeparated_singleton (cs : List Char) : commaSeparated [cs] = cs :=
  List.append_nil cs

theorem commaSeparated_cons_cons (cs cs' : List Char) (texts : List (List Char)) :
    commaSeparated (cs :: cs' :: texts) = cs ++ ',' :: commaSeparated (cs' :: texts) := rfl

namespace Value

/-! ### The text of a value -/

/-- The characters of the JSON text. -/
def jsonText (v : Value) : List Char := v.toJson.toList

/-- A member of an object: a string, a colon and a value. -/
def memberText (entry : Value × Value) : List Char :=
  (JsonText.quote entry.1.plain).toList ++ ':' :: entry.2.jsonText

mutual

/-- What is written goes behind what was there. -/
theorem toList_writeJson (out : String) (v : Value) :
    (JsonText.write out v).toList = out.toList ++ v.jsonText := by
  unfold jsonText toJson
  cases v with
  | none | int n | float x | str s => simp [JsonText.write]
  | bool b => cases b <;> simp [JsonText.write]
  | list items | tuple items | set items =>
    simp [JsonText.write, toList_writeJsonItems]
  | dict entries => simp [JsonText.write, toList_writeJsonEntries]

theorem toList_writeJsonItems (out : String) (vs : List Value) :
    (JsonText.writeItems out vs).toList = out.toList ++ commaSeparated (vs.map jsonText) := by
  rcases vs with _ | ⟨x, _ | ⟨y, rest⟩⟩
  · simp [JsonText.writeItems, commaSeparated]
  · simp [JsonText.writeItems, commaSeparated, afterCommas, toList_writeJson _ x]
  · simp [JsonText.writeItems, commaSeparated, afterCommas, toList_writeJson _ x,
      toList_writeJsonItems _ (y :: rest)]

theorem toList_writeJsonEntries (out : String) (es : List (Value × Value)) :
    (JsonText.writeEntries out es).toList =
      out.toList ++ commaSeparated (es.map memberText) := by
  rcases es with _ | ⟨⟨k, v⟩, _ | ⟨e, rest⟩⟩
  · simp [JsonText.writeEntries, commaSeparated]
  · simp [JsonText.writeEntries, commaSeparated, afterCommas, memberText, toList_writeJson _ v]
  · simp [JsonText.writeEntries, commaSeparated, afterCommas, memberText, toList_writeJson _ v,
      toList_writeJsonEntries _ (e :: rest)]

end

/-- A whole number is written as the language spells it. -/
theorem jsonText_int (n : Int64) : (int n).jsonText = (int n).spelling := by
  simp [jsonText, toJson, JsonText.write, spelling, render, write]

theorem jsonText_str (s : String) : (str s).jsonText = (JsonText.quote s).toList := by
  simp [jsonText, toJson, JsonText.write]

/-- Lists, tuples and sets are arrays. -/
theorem jsonText_list (vs : List Value) :
    (list vs).jsonText = '[' :: commaSeparated (vs.map jsonText) ++ [']'] := by
  simp [jsonText, toJson, JsonText.write, toList_writeJsonItems]

theorem jsonText_tuple (vs : List Value) : (tuple vs).jsonText = (list vs).jsonText := by
  simp [jsonText, toJson, JsonText.write]

theorem jsonText_set (vs : List Value) : (set vs).jsonText = (list vs).jsonText := by
  simp [jsonText, toJson, JsonText.write]

theorem jsonText_dict (es : List (Value × Value)) :
    (dict es).jsonText = '\x7b' :: commaSeparated (es.map memberText) ++ ['\x7d'] := by
  simp [jsonText, toJson, JsonText.write, toList_writeJsonEntries]

/-! ### What is decoded -/

mutual

/-- The value that the text of a value stands for. -/
def decoded : Value → Value
  | list vs | tuple vs | set vs => list (decodedAll vs)
  | dict es =>
    match mkDict (decodedEntries es) with
    | .ok d => d
    | .error _ => none
  | v => v

def decodedAll : List Value → List Value
  | [] => []
  | v :: rest => decoded v :: decodedAll rest

def decodedEntries : List (Value × Value) → List (Value × Value)
  | [] => []
  | (k, v) :: rest => (str k.plain, decoded v) :: decodedEntries rest

end

theorem decodedAll_eq (vs : List Value) : decodedAll vs = vs.map decoded := by
  induction vs with
  | nil => rfl
  | cons v rest ih => rw [decodedAll, ih, List.map_cons]

theorem decodedEntries_eq (es : List (Value × Value)) :
    decodedEntries es = es.map fun e => (str e.1.plain, e.2.decoded) := by
  induction es with
  | nil => rfl
  | cons e rest ih => rw [decodedEntries, ih, List.map_cons]

/-- Entries with hashable keys always make a dict. -/
theorem exists_mkDict {es : List (Value × Value)} (h : ∀ e ∈ es, e.1.isHashable = true) :
    ∃ d, mkDict es = .ok d := by
  have hgo : ∀ made, ∃ d, mkDict.go made es = .ok d := by
    induction es with
    | nil => exact fun made => ⟨dict made, rfl⟩
    | cons e rest ih =>
      intro made
      obtain ⟨hfirst, hrest⟩ := List.forall_mem_cons.mp h
      obtain ⟨d, hd⟩ := ih hrest (putEntry made e.1 e.2)
      refine ⟨d, ?_⟩
      rw [mkDict.go, requireHashable, if_pos hfirst]
      exact hd
  exact hgo []

/-- **An object stands for the dict that its members make.** -/
theorem mkDict_decoded (es : List (Value × Value)) :
    mkDict (es.map fun e => (str e.1.plain, e.2.decoded)) = .ok (dict es).decoded := by
  have hhash : ∀ e ∈ decodedEntries es, e.1.isHashable = true := by
    rw [decodedEntries_eq]
    intro e he
    obtain ⟨e', -, rfl⟩ := List.mem_map.mp he
    rfl
  obtain ⟨d, hd⟩ := exists_mkDict hhash
  rw [← decodedEntries_eq, decoded, hd]

/-! ### Depth -/

mutual

/-- How deep arrays and objects lie in one another.  A key is only text. -/
def nesting : Value → Nat
  | list vs | tuple vs | set vs => 1 + nestingAll vs
  | dict es => 1 + nestingEntries es
  | _ => 0

def nestingAll : List Value → Nat
  | [] => 0
  | v :: rest => max (nesting v) (nestingAll rest)

def nestingEntries : List (Value × Value) → Nat
  | [] => 0
  | (_, v) :: rest => max (nesting v) (nestingEntries rest)

end

theorem nesting_le_of_mem {v : Value} {vs : List Value} (h : v ∈ vs) :
    v.nesting ≤ nestingAll vs := by
  induction vs with
  | nil => cases h
  | cons x rest ih =>
    rw [nestingAll]
    rcases List.mem_cons.mp h with rfl | h
    · exact Nat.le_max_left _ _
    · exact (ih h).trans (Nat.le_max_right _ _)

theorem nesting_le_of_mem_entries {e : Value × Value} {es : List (Value × Value)} (h : e ∈ es) :
    e.2.nesting ≤ nestingEntries es := by
  induction es with
  | nil => cases h
  | cons x rest ih =>
    obtain ⟨k, v⟩ := x
    rw [nestingEntries]
    rcases List.mem_cons.mp h with rfl | h
    · exact Nat.le_max_left _ _
    · exact (ih h).trans (Nat.le_max_right _ _)

/-! ### Values that a text can tell -/

/-- No float at any depth.  Keys may hold some, since only their texts are written. -/
inductive NoFloat : Value → Prop
  | none : NoFloat none
  | bool (b : Bool) : NoFloat (bool b)
  | int (n : Int64) : NoFloat (int n)
  | str (s : String) : NoFloat (str s)
  | list {vs : List Value} (h : ∀ v ∈ vs, NoFloat v) : NoFloat (list vs)
  | tuple {vs : List Value} (h : ∀ v ∈ vs, NoFloat v) : NoFloat (tuple vs)
  | set {vs : List Value} (h : ∀ v ∈ vs, NoFloat v) : NoFloat (set vs)
  | dict {es : List (Value × Value)} (h : ∀ e ∈ es, NoFloat e.2) : NoFloat (dict es)

/-- What JSON has a kind of its own for: scalars other than floats, lists, and dicts whose
    keys are strings, no two of them the same. -/
inductive JsonShaped : Value → Prop
  | none : JsonShaped none
  | bool (b : Bool) : JsonShaped (bool b)
  | int (n : Int64) : JsonShaped (int n)
  | str (s : String) : JsonShaped (str s)
  | list {vs : List Value} (h : ∀ v ∈ vs, JsonShaped v) : JsonShaped (list vs)
  | dict {es : List (Value × Value)} (hkeys : ∀ e ∈ es, ∃ s, e.1 = .str s)
    (hdiffer : es.Pairwise fun e e' => e.1 ≠ e'.1) (h : ∀ e ∈ es, JsonShaped e.2) :
    JsonShaped (dict es)

theorem JsonShaped.noFloat {v : Value} (h : v.JsonShaped) : v.NoFloat := by
  induction h with
  | none => exact .none
  | bool b => exact .bool b
  | int n => exact .int n
  | str s => exact .str s
  | list _ ih => exact .list ih
  | dict _ _ _ ih => exact .dict ih

/-- Different strings are not equal to one another. -/
theorem str_eq_eq_false {s t : String} (h : str s ≠ str t) : (str s).eq (str t) = false := by
  simp only [eq, beq_eq_false_iff_ne]
  intro heq
  exact h (congrArg str heq)

/-- **Such a value is decoded to itself.** -/
theorem JsonShaped.decoded_eq {v : Value} (h : v.JsonShaped) : v.decoded = v := by
  induction h with
  | none | bool b | int n | str s => rfl
  | @list vs _ ih =>
    have hmap : vs.map Value.decoded = vs := by
      rw [List.map_congr_left ih, List.map_id']
    rw [decoded, decodedAll_eq, hmap]
  | @dict es hkeys hdiffer _ ih =>
    have hmap : (es.map fun e => (Value.str e.1.plain, e.2.decoded)) = es := by
      have hentry : ∀ e ∈ es, (Value.str e.1.plain, e.2.decoded) = e := by
        intro e he
        obtain ⟨s, hs⟩ := hkeys e he
        rw [ih e he, hs, plain, ← hs]
      rw [List.map_congr_left hentry, List.map_id']
    have hhash : ∀ e ∈ es, e.1.isHashable = true := by
      intro e he
      obtain ⟨s, hs⟩ := hkeys e he
      rw [hs]
      rfl
    have hunequal : es.Pairwise fun e e' => e.1.eq e'.1 = false := by
      refine hdiffer.imp_of_mem ?_
      intro e e' he he' hne
      obtain ⟨s, hs⟩ := hkeys e he
      obtain ⟨t, ht⟩ := hkeys e' he'
      rw [hs, ht] at hne ⊢
      exact str_eq_eq_false hne
    have hmk := mkDict_decoded es
    rw [hmap, mkDict_eq_ok hhash hunequal] at hmk
    exact (Except.ok.inj hmk).symm

end Value

end SafeExpr
