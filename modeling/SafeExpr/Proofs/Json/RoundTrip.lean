/-
  SafeExpr/Proofs/Json/RoundTrip.lean
  ===================================
  **JSON text is read back as the value that it stands for.**

  A value is read back (`ReadsBack`) in front of everything that may follow a value, at
  every depth that leaves room for its own, and with every fuel beyond twice the length of
  its text.  For arrays and objects this follows from their items and members one by one:
  a comma is what pays for the fuel of the next step.
-/
import SafeExpr.Proofs.Json.Scalar

namespace SafeExpr

namespace JsonText

/-! ### Steps of the reader -/

/-- What a value may start with: no blank, and nothing that closes an array. -/
def StartsValue (c : Char) : Prop := isBlank c = false ∧ c ≠ ']'

theorem StartsNumber.startsValue {c : Char} (h : StartsNumber c) : StartsValue c := by
  have hall : "-0123456789".toList.all (fun c => !isBlank c && c != ']') = true := by decide
  have hc := List.all_eq_true.mp hall c h.mem
  rw [Bool.and_eq_true, Bool.not_eq_true', bne_iff_ne] at hc
  exact hc

theorem skipBlanks_cons {c : Char} (h : isBlank c = false) (cs : List Char) :
    skipBlanks (c :: cs) = c :: cs := by
  simp [skipBlanks, h]

theorem readValue_number {c : Char} (h : StartsNumber c) (nesting fuel : Nat)
    (cs : List Char) :
    readValue nesting (fuel + 1) (c :: cs) = do
      let (t, rest) ← readNumber (c :: cs)
      return (← t.value?, rest) := by
  have hmem := h.mem
  simp only [String.reduceToList, List.mem_cons, List.not_mem_nil, or_false] at hmem
  rcases hmem with rfl | rfl | rfl | rfl | rfl | rfl | rfl | rfl | rfl | rfl | rfl
  all_goals rfl

theorem quote_append (s : String) (rest : List Char) :
    (quote s).toList ++ rest = '"' :: (s.toList.flatMap stringChar ++ '"' :: rest) := by
  simp [quote]

theorem readValue_quote (s : String) (nesting fuel : Nat) (rest : List Char) :
    readValue nesting (fuel + 1) ((quote s).toList ++ rest) = some (.str s, rest) := by
  rw [quote_append, readValue, skipBlanks_cons (by decide)]
  simp [readString_flatMap]

theorem readValue_array {c : Char} (h : StartsValue c) (nesting fuel : Nat) (cs : List Char) :
    readValue (nesting + 1) (fuel + 1) ('[' :: c :: cs) = readItems nesting [] fuel (c :: cs) := by
  obtain ⟨hblank, hclose⟩ := h
  simp only [readValue, skipBlanks_cons (c := '[') (by decide)]
  rw [if_neg (Nat.succ_ne_zero nesting), skipBlanks_cons hblank]
  split
  · next heq => exact absurd (List.head_eq_of_cons_eq heq) hclose
  · rfl

theorem readItems_more {nesting fuel : Nat} {v : Value} {cs rest : List Char}
    (h : readValue nesting fuel cs = some (v, ',' :: rest)) (found : List Value) :
    readItems nesting found (fuel + 1) cs = readItems nesting (v :: found) fuel rest := by
  rw [readItems, h]
  rfl

theorem readItems_last {nesting fuel : Nat} {v : Value} {cs rest : List Char}
    (h : readValue nesting fuel cs = some (v, ']' :: rest)) (found : List Value) :
    readItems nesting found (fuel + 1) cs = some (.list (v :: found).reverse, rest) := by
  rw [readItems, h]
  rfl

theorem readValue_object (nesting fuel : Nat) (cs : List Char) :
    readValue (nesting + 1) (fuel + 1) ('\x7b' :: '"' :: cs) =
      readEntries nesting [] fuel ('"' :: cs) := by
  simp only [readValue, skipBlanks_cons (c := '\x7b') (by decide)]
  rw [if_neg (Nat.succ_ne_zero nesting), skipBlanks_cons (by decide)]
  rfl

theorem readEntries_more {nesting fuel : Nat} {v : Value} {cs rest : List Char}
    (h : readValue nesting fuel cs = some (v, ',' :: rest)) (key : String)
    (found : List (Value × Value)) :
    readEntries nesting found (fuel + 1) ((quote key).toList ++ ':' :: cs) =
      readEntries nesting ((.str key, v) :: found) fuel rest := by
  rw [quote_append, readEntries, skipBlanks_cons (by decide)]
  simp only [readString_flatMap, Option.bind_eq_bind, Option.bind_some,
    skipBlanks_cons (c := ':') (by decide), skipBlanks_cons (c := ',') (by decide), h,
    String.ofList_toList]

theorem readEntries_last {nesting fuel : Nat} {v d : Value} {cs rest : List Char}
    (h : readValue nesting fuel cs = some (v, '\x7d' :: rest)) {key : String}
    {found : List (Value × Value)} (hd : dictOf? ((.str key, v) :: found) = some d) :
    readEntries nesting found (fuel + 1) ((quote key).toList ++ ':' :: cs) = some (d, rest) := by
  rw [quote_append, readEntries, skipBlanks_cons (by decide)]
  simp only [readString_flatMap, Option.bind_eq_bind, Option.bind_some,
    skipBlanks_cons (c := ':') (by decide), skipBlanks_cons (c := '\x7d') (by decide), h,
    String.ofList_toList, hd]
  rfl

end JsonText

namespace Value

open JsonText (Delimited StartsValue signText readValue readItems readEntries)

/-! ### Scalars -/

theorem jsonText_digits (n : Int64) :
    (int n).jsonText = signText (decide (n.toInt < 0)) ++ Nat.toDigits 10 n.toInt.natAbs := by
  rw [jsonText_int, spelling_int, signText]
  split
  · next h => simp [h]
  · next h => simp [h]

theorem readValue_int (n : Int64) (nesting fuel : Nat) {rest : List Char}
    (hrest : Delimited rest) :
    readValue nesting (fuel + 1) ((int n).jsonText ++ rest) = some (int n, rest) := by
  have hsize : n.toInt.natAbs ≤ JsonText.maxSignificand :=
    Nat.le_trans (natAbs_toInt_le n) (by decide)
  have hread := JsonText.readNumber_toDigits (decide (n.toInt < 0)) hsize hrest
  obtain ⟨c, cs, hc, hcs⟩ :=
    JsonText.exists_signText_toDigits (decide (n.toInt < 0)) n.toInt.natAbs
  rw [jsonText_digits, hcs, List.cons_append, JsonText.readValue_number hc]
  rw [hcs, List.cons_append] at hread
  rw [hread]
  simp [JsonText.value?_int]

/-- The texts of all values start as values do. -/
theorem NoFloat.exists_jsonText {v : Value} (h : v.NoFloat) :
    ∃ c cs, StartsValue c ∧ v.jsonText = c :: cs := by
  cases h with
  | none => exact ⟨'n', _, ⟨by decide, by decide⟩, rfl⟩
  | bool b =>
    cases b with
    | true => exact ⟨'t', _, ⟨by decide, by decide⟩, rfl⟩
    | false => exact ⟨'f', _, ⟨by decide, by decide⟩, rfl⟩
  | int n =>
    obtain ⟨c, cs, hc, hcs⟩ :=
      JsonText.exists_signText_toDigits (decide (n.toInt < 0)) n.toInt.natAbs
    exact ⟨c, cs, hc.startsValue, (jsonText_digits n).trans hcs⟩
  | str s =>
    have hquote := JsonText.quote_append s []
    rw [List.append_nil] at hquote
    exact ⟨'"', _, ⟨by decide, by decide⟩, (jsonText_str s).trans hquote⟩
  | list => exact ⟨'[', _, ⟨by decide, by decide⟩, jsonText_list _⟩
  | tuple => exact ⟨'[', _, ⟨by decide, by decide⟩, (jsonText_tuple _).trans (jsonText_list _)⟩
  | set => exact ⟨'[', _, ⟨by decide, by decide⟩, (jsonText_set _).trans (jsonText_list _)⟩
  | dict => exact ⟨'\x7b', _, ⟨by decide, by decide⟩, jsonText_dict _⟩

/-! ### Items and members -/

/-- The text of a value is read as what it stands for. -/
def ReadsBack (v : Value) : Prop :=
  ∀ depth fuel rest, v.nesting ≤ depth → 2 * v.jsonText.length ≤ fuel → Delimited rest →
    readValue depth (fuel + 1) (v.jsonText ++ rest) = some (v.decoded, rest)

theorem readItems_commaSeparated {depth : Nat} {vs : List Value} (hne : vs ≠ [])
    (hvs : ∀ v ∈ vs, v.ReadsBack) (hdepth : ∀ v ∈ vs, v.nesting ≤ depth)
    (found : List Value) {fuel : Nat}
    (hfuel : 2 * (commaSeparated (vs.map jsonText)).length ≤ fuel) (rest : List Char) :
    readItems depth found (fuel + 2) (commaSeparated (vs.map jsonText) ++ ']' :: rest) =
      some (list (found.reverse ++ vs.map decoded), rest) := by
  induction vs generalizing found fuel with
  | nil => exact absurd rfl hne
  | cons v vs ih =>
    obtain ⟨hv, hvs⟩ := List.forall_mem_cons.mp hvs
    obtain ⟨hfirst, hdepth⟩ := List.forall_mem_cons.mp hdepth
    cases vs with
    | nil =>
      simp only [List.map_cons, List.map_nil, commaSeparated_singleton] at hfuel ⊢
      have hread := hv depth fuel (']' :: rest) hfirst hfuel (JsonText.delimited_cons (by simp))
      rw [JsonText.readItems_last hread, List.reverse_cons]
    | cons v' vs =>
      simp only [List.map_cons, commaSeparated_cons_cons, List.length_append,
        List.length_cons] at hfuel ih ⊢
      have hread := hv depth fuel
        (',' :: (commaSeparated (v'.jsonText :: vs.map jsonText) ++ ']' :: rest)) hfirst
        (by omega) (JsonText.delimited_cons (by simp))
      obtain ⟨left, rfl⟩ : ∃ k, fuel = k + 1 := ⟨fuel - 1, by omega⟩
      rw [List.append_assoc, List.cons_append, JsonText.readItems_more hread,
        ih (List.cons_ne_nil v' vs) hvs hdepth (v.decoded :: found) (by omega)]
      simp

theorem readEntries_commaSeparated {depth : Nat} {es : List (Value × Value)} (hne : es ≠ [])
    (hes : ∀ e ∈ es, e.2.ReadsBack) (hdepth : ∀ e ∈ es, e.2.nesting ≤ depth)
    (found : List (Value × Value)) {d : Value}
    (hd : mkDict (found.reverse ++ es.map fun e => (str e.1.plain, e.2.decoded)) = .ok d)
    {fuel : Nat} (hfuel : 2 * (commaSeparated (es.map memberText)).length ≤ fuel)
    (rest : List Char) :
    readEntries depth found (fuel + 2) (commaSeparated (es.map memberText) ++ '\x7d' :: rest) =
      some (d, rest) := by
  induction es generalizing found fuel with
  | nil => exact absurd rfl hne
  | cons e es ih =>
    obtain ⟨hv, hes⟩ := List.forall_mem_cons.mp hes
    obtain ⟨hfirst, hdepth⟩ := List.forall_mem_cons.mp hdepth
    have hshorter : e.2.jsonText.length ≤ (memberText e).length := by
      simp only [memberText, List.length_append, List.length_cons]
      omega
    cases es with
    | nil =>
      simp only [List.map_cons, List.map_nil, commaSeparated_singleton] at hfuel hd ⊢
      have hread := hv depth fuel ('\x7d' :: rest) hfirst (by omega)
        (JsonText.delimited_cons (by simp))
      have hmade : JsonText.dictOf? ((str e.1.plain, e.2.decoded) :: found) = some d := by
        rw [JsonText.dictOf?, List.reverse_cons, hd]
        rfl
      rw [memberText, List.append_assoc, List.cons_append, JsonText.readEntries_last hread hmade]
    | cons e' es =>
      have hd' : mkDict (((str e.1.plain, e.2.decoded) :: found).reverse ++
          (e' :: es).map fun e => (str e.1.plain, e.2.decoded)) = .ok d := by
        simpa using hd
      simp only [List.map_cons, commaSeparated_cons_cons, List.length_append,
        List.length_cons] at hfuel ih ⊢
      have hread := hv depth fuel
        (',' :: (commaSeparated (memberText e' :: es.map memberText) ++ '\x7d' :: rest)) hfirst
        (by omega) (JsonText.delimited_cons (by simp))
      obtain ⟨left, rfl⟩ : ∃ k, fuel = k + 1 := ⟨fuel - 1, by omega⟩
      rw [memberText, List.append_assoc, List.append_assoc, List.cons_append, List.cons_append,
        JsonText.readEntries_more hread]
      exact ih (List.cons_ne_nil e' es) hes hdepth _ hd' (by omega)

/-! ### Values -/

theorem readsBack_list {vs : List Value} (hvs : ∀ v ∈ vs, v.NoFloat)
    (h : ∀ v ∈ vs, v.ReadsBack) : (list vs).ReadsBack := by
  intro depth fuel rest hdepth hfuel hrest
  rw [jsonText_list] at hfuel ⊢
  rw [nesting] at hdepth
  simp only [List.length_append, List.length_cons] at hfuel
  obtain ⟨depth, rfl⟩ : ∃ k, depth = k + 1 := ⟨depth - 1, by omega⟩
  obtain ⟨fuel, rfl⟩ : ∃ k, fuel = k + 2 := ⟨fuel - 2, by omega⟩
  cases vs with
  | nil => rfl
  | cons v vs =>
    obtain ⟨c, cs, hc, hcs⟩ := (hvs v List.mem_cons_self).exists_jsonText
    have hopen : readValue (depth + 1) (fuel + 2 + 1)
        ('[' :: commaSeparated ((v :: vs).map jsonText) ++ [']'] ++ rest) =
        readItems depth [] (fuel + 2)
          (commaSeparated ((v :: vs).map jsonText) ++ ']' :: rest) := by
      rw [List.map_cons, commaSeparated, hcs]
      simp only [List.cons_append, List.append_assoc, List.nil_append]
      rw [JsonText.readValue_array hc]
    have hdepths : ∀ x ∈ v :: vs, x.nesting ≤ depth := by
      intro x hx
      exact (nesting_le_of_mem hx).trans (by omega)
    rw [hopen, readItems_commaSeparated (List.cons_ne_nil v vs) h hdepths [] (by omega), decoded,
      decodedAll_eq]
    rfl

theorem readsBack_dict {es : List (Value × Value)} (h : ∀ e ∈ es, e.2.ReadsBack) :
    (dict es).ReadsBack := by
  intro depth fuel rest hdepth hfuel hrest
  rw [jsonText_dict] at hfuel ⊢
  rw [nesting] at hdepth
  simp only [List.length_append, List.length_cons] at hfuel
  obtain ⟨depth, rfl⟩ : ∃ k, depth = k + 1 := ⟨depth - 1, by omega⟩
  obtain ⟨fuel, rfl⟩ : ∃ k, fuel = k + 2 := ⟨fuel - 2, by omega⟩
  cases es with
  | nil => rfl
  | cons e es =>
    have hopen : readValue (depth + 1) (fuel + 2 + 1)
        ('\x7b' :: commaSeparated ((e :: es).map memberText) ++ ['\x7d'] ++ rest) =
        readEntries depth [] (fuel + 2)
          (commaSeparated ((e :: es).map memberText) ++ '\x7d' :: rest) := by
      rw [List.map_cons, commaSeparated, memberText, JsonText.quote_append]
      simp only [List.cons_append, List.append_assoc, List.nil_append]
      rw [JsonText.readValue_object]
    have hdepths : ∀ x ∈ e :: es, x.2.nesting ≤ depth := by
      intro x hx
      exact (nesting_le_of_mem_entries hx).trans (by omega)
    rw [hopen]
    exact readEntries_commaSeparated (List.cons_ne_nil e es) h hdepths [] (mkDict_decoded (e :: es))
      (by omega) rest

/-- **Every value without floats is read back from its text.** -/
theorem NoFloat.readsBack {v : Value} (h : v.NoFloat) : v.ReadsBack := by
  induction h with
  | none =>
    intro depth fuel rest _ _ _
    rfl
  | bool b =>
    intro depth fuel rest _ _ _
    cases b with
    | true => rfl
    | false => rfl
  | int n =>
    intro depth fuel rest _ _ hrest
    exact readValue_int n depth fuel hrest
  | str s =>
    intro depth fuel rest _ _ _
    rw [jsonText_str]
    exact JsonText.readValue_quote s depth fuel rest
  | list hvs ih => exact readsBack_list hvs ih
  | @tuple vs hvs ih =>
    have hlist := readsBack_list hvs ih
    rwa [ReadsBack, ← jsonText_tuple] at hlist
  | @set vs hvs ih =>
    have hlist := readsBack_list hvs ih
    rwa [ReadsBack, ← jsonText_set] at hlist
  | dict _ ih => exact readsBack_dict ih

/-- **A text stands for what its value is decoded to.** -/
theorem NoFloat.ofJson?_toJson {v : Value} (h : v.NoFloat) (hnesting : v.nesting < 128) :
    ofJson? v.toJson = .some v.decoded := by
  have hlength : v.jsonText.length = v.toJson.length := String.length_toList
  have hread := h.readsBack JsonText.maxNesting (2 * v.toJson.length) []
    (Nat.le_of_lt_succ hnesting) (by omega) JsonText.delimited_nil
  rw [List.append_nil, jsonText] at hread
  rw [ofJson?, hread]
  rfl

/-- Values of the kinds that JSON has are told apart by their texts, however deep they are. -/
theorem JsonShaped.toJson_inj {v w : Value} (hv : v.JsonShaped) (hw : w.JsonShaped)
    (h : v.toJson = w.toJson) : v = w := by
  have htext : v.jsonText = w.jsonText := congrArg String.toList h
  have hreadv := hv.noFloat.readsBack (max v.nesting w.nesting) (2 * v.jsonText.length) []
    (Nat.le_max_left _ _) (Nat.le_refl _) JsonText.delimited_nil
  have hreadw := hw.noFloat.readsBack (max v.nesting w.nesting) (2 * w.jsonText.length) []
    (Nat.le_max_right _ _) (Nat.le_refl _) JsonText.delimited_nil
  rw [htext, hreadw] at hreadv
  rw [hv.decoded_eq, hw.decoded_eq] at hreadv
  cases hreadv
  rfl

end Value

/-- **What is written as JSON is read back.**  Values of the kinds that JSON has come back as
    they are.  Of the others, tuples and sets come back as lists, and a dict as the one that
    its entries make once their keys are texts. -/
theorem json_decodes_written :
    (∀ v : Value, v.JsonShaped → v.nesting < 128 → Value.ofJson? v.toJson = some v) ∧
    (∀ v : Value, v.NoFloat → v.nesting < 128 → Value.ofJson? v.toJson = some v.decoded) ∧
    (∀ vs : List Value,
      (Value.list vs).decoded = .list (vs.map Value.decoded) ∧
      (Value.tuple vs).decoded = .list (vs.map Value.decoded) ∧
      (Value.set vs).decoded = .list (vs.map Value.decoded)) ∧
    (∀ es : List (Value × Value),
      Value.mkDict (es.map fun e => (.str e.1.plain, e.2.decoded)) =
        .ok (Value.dict es).decoded) := by
  refine ⟨?_, ?_, ?_, Value.mkDict_decoded⟩
  · intro v hshaped hnesting
    rw [hshaped.noFloat.ofJson?_toJson hnesting, hshaped.decoded_eq]
  · intro v hfloat hnesting
    exact hfloat.ofJson?_toJson hnesting
  · intro vs
    refine ⟨?_, ?_, ?_⟩
    · rw [Value.decoded, Value.decodedAll_eq]
    · rw [Value.decoded, Value.decodedAll_eq]
    · rw [Value.decoded, Value.decodedAll_eq]

/-- Escapes, the smallest integer and an empty list come back; and of two keys with one text,
    the first has the place and the last has the value. -/
theorem json_decodes_written_nested :
    Value.ofJson? (Value.dict [(.str "\"\\\x01é", .list [.int Int64.minValue, .none, .list []]),
        (.str "", .bool false)]).toJson =
      some (.dict [(.str "\"\\\x01é", .list [.int Int64.minValue, .none, .list []]),
        (.str "", .bool false)]) ∧
    Value.ofJson? (Value.dict [(.int 1, .none), (.tuple [], .set [.int 2, .tuple []]),
        (.str "1", .str "last")]).toJson =
      some (.dict [(.str "1", .str "last"), (.str "()", .list [.int 2, .list []])]) := by
  have hitems : ∀ v ∈ [Value.int Int64.minValue, .none, .list []], v.JsonShaped := by
    simp [Value.JsonShaped.int, Value.JsonShaped.none, Value.JsonShaped.list]
  have hshaped : (Value.dict [(.str "\"\\\x01é", .list [.int Int64.minValue, .none, .list []]),
      (.str "", .bool false)]).JsonShaped := by
    refine .dict (by simp) (by simp) ?_
    simp [Value.JsonShaped.list hitems, Value.JsonShaped.bool]
  have hset : (Value.set [.int 2, .tuple []]).NoFloat :=
    .set (by simp [Value.NoFloat.int, Value.NoFloat.tuple])
  have hfloat : (Value.dict [(.int 1, .none), (.tuple [], .set [.int 2, .tuple []]),
      (.str "1", .str "last")]).NoFloat :=
    .dict (by simp [Value.NoFloat.none, Value.NoFloat.str, hset])
  exact ⟨json_decodes_written.1 _ hshaped (by decide),
    json_decodes_written.2.1 _ hfloat (by decide)⟩

end SafeExpr
