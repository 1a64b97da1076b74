/-
  SafeExpr/Proofs/Json/Names.lean
  ===============================
  **The names of written members, and what is lost with them.**

  An object is written with the texts of the keys for names.  Keys of one dict differ, and
  so do the texts that `repr` gives, but a string is written as it is.  So two members have
  one name if and only if a string is the text of another key of the same dict (`Clashing`).
  Where this does not happen in any dict of a value, decoding gives as many entries as were
  written, in every dict of it; and it gives a value if and only if arrays and objects do
  not nest deeper than the reader goes.
-/
import Mathlib.Data.List.Nodup
import SafeExpr.Proofs.Json.ByName
import SafeExpr.Proofs.Json.Grammar
import SafeExpr.Proofs.Value.KeyText

namespace SafeExpr

namespace Value

/-! ### Dicts in a value -/

mutual

/-- The entries of each dict in the value, outer ones first.  There are none in keys. -/
def dicts : Value → List (List (Value × Value))
  | list vs | tuple vs | set vs => dictsAll vs
  | dict es => es :: dictsEntries es
  | _ => []

def dictsAll : List Value → List (List (Value × Value))
  | [] => []
  | v :: rest => dicts v ++ dictsAll rest

def dictsEntries : List (Value × Value) → List (List (Value × Value))
  | [] => []
  | (_, v) :: rest => dicts v ++ dictsEntries rest

end

theorem dictsAll_eq (vs : List Value) : dictsAll vs = vs.flatMap dicts := by
  induction vs with
  | nil => rfl
  | cons v rest ih => rw [dictsAll, ih, List.flatMap_cons]

theorem dictsEntries_eq (es : List (Value × Value)) :
    dictsEntries es = es.flatMap fun e => e.2.dicts := by
  induction es with
  | nil => rfl
  | cons e rest ih => rw [dictsEntries, ih, List.flatMap_cons]

/-- The numbers of entries of the dicts in the value. -/
def dictSizes (v : Value) : List Nat := v.dicts.map List.length

/-! ### Names -/

/-- The names of the members that entries are written as. -/
def memberNames (es : List (Value × Value)) : List String := es.map fun e => e.1.plain

/-- A string is the text of another key. -/
def Clashing (es : List (Value × Value)) : Prop :=
  ∃ e ∈ es, ∃ f ∈ es, ∃ s, e.1 = str s ∧ (∀ t, f.1 ≠ str t) ∧ f.1.render = s

/-- Different keys of one name: one of them is a string, and the text of the other one. -/
theorem plain_eq_cases {v w : Value} (hv : v.IsKey) (hw : w.IsKey) (hne : v ≠ w)
    (h : v.plain = w.plain) :
    (∃ s, v = str s ∧ (∀ t, w ≠ str t) ∧ w.render = s) ∨
      ∃ s, w = str s ∧ (∀ t, v ≠ str t) ∧ v.render = s := by
  have hrender : ∀ {x : Value}, (∀ t, x ≠ str t) → x.plain = x.render := by
    intro x hx
    cases x with
    | str t => exact absurd rfl (hx t)
    | _ => rfl
  by_cases hvstr : ∃ s, v = str s
  · obtain ⟨s, rfl⟩ := hvstr
    by_cases hwstr : ∃ t, w = str t
    · obtain ⟨t, rfl⟩ := hwstr
      exact absurd (congrArg str h) hne
    · rw [not_exists] at hwstr
      exact Or.inl ⟨s, rfl, hwstr, (hrender hwstr).symm.trans h.symm⟩
  · rw [not_exists] at hvstr
    by_cases hwstr : ∃ t, w = str t
    · obtain ⟨t, rfl⟩ := hwstr
      exact Or.inr ⟨t, rfl, hvstr, (hrender hvstr).symm.trans h⟩
    · rw [not_exists] at hwstr
      rw [hrender hvstr, hrender hwstr] at h
      exact absurd (render_injective_of_isKey hv hw h) hne

/-- **The names of a dict are different if and only if no string in it is the text of another
    key.** -/
theorem nodup_memberNames_iff {es : List (Value × Value)} (hkeys : Distinct (es.map Prod.fst))
    (hfree : ∀ e ∈ es, e.1.FloatFree) : (memberNames es).Nodup ↔ ¬ Clashing es := by
  have hkey : ∀ e ∈ es, e.1.IsKey := fun e he =>
    ⟨hkeys.hashable e.1 (List.mem_map_of_mem he), hfree e he⟩
  constructor
  · rintro hnodup ⟨e, he, f, hf, s, hes, hfs, hrender⟩
    have hplain : e.1.plain = f.1.plain := by
      rw [hes, plain, ← hrender]
      cases hfst : f.1 with
      | str t => exact absurd hfst (hfs t)
      | _ => rfl
    have hsame := List.inj_on_of_nodup_map hnodup he hf hplain
    rw [hsame] at hes
    exact hfs s hes
  · intro hclash
    have hdiffer := List.pairwise_map.mp hkeys.differ
    refine List.pairwise_map.mpr (hdiffer.imp_of_mem fun {e f} he hf hunequal hplain => hclash ?_)
    have hne : e.1 ≠ f.1 := by
      intro heq
      rw [heq, (hkey f hf).eq_refl] at hunequal
      cases hunequal.1
    rcases plain_eq_cases (hkey e he) (hkey f hf) hne hplain with ⟨s, h⟩ | ⟨s, h⟩
    · exact ⟨e, he, f, hf, s, h⟩
    · exact ⟨f, hf, e, he, s, h⟩

/-! ### What holds of all dicts -/

/-- From the values directly in a value to the value. -/
theorem induction_parts {P : Value → Prop} (step : ∀ v : Value, (∀ p ∈ v.parts, P p) → P v)
    (v : Value) : P v :=
  step v fun p hp => by
    have := size_part_lt hp
    exact induction_parts step p
termination_by sizeOf v

theorem FloatFree.part {p v : Value} (h : v.FloatFree) (hp : p ∈ v.parts) : p.FloatFree :=
  fun x hx => h x (numbers_subset_of_part hp hx)

theorem FloatFree.noFloat {v : Value} (h : v.FloatFree) : v.NoFloat := by
  induction v using induction_parts with
  | step v ih =>
    have hparts : ∀ p ∈ v.parts, p.NoFloat := fun p hp => ih p hp (h.part hp)
    cases v with
    | none => exact .none
    | bool b => exact .bool b
    | int n => exact .int n
    | float x => exact absurd (List.mem_singleton_self _) (h x)
    | str s => exact .str s
    | list vs => exact .list hparts
    | tuple vs => exact .tuple hparts
    | set vs => exact .set hparts
    | dict es => exact .dict fun e he => hparts e.2 (mem_parts_of_entry he).2

/-- A dict in a value is the value or lies in a part of it. -/
theorem mem_dicts_cases {v : Value} {es : List (Value × Value)} (h : es ∈ v.dicts) :
    v = dict es ∨ ∃ p ∈ v.parts, es ∈ p.dicts := by
  cases v with
  | list vs | tuple vs | set vs =>
    rw [dicts, dictsAll_eq] at h
    exact Or.inr (List.mem_flatMap.mp h)
  | dict fs =>
    rw [dicts, dictsEntries_eq] at h
    rcases List.mem_cons.mp h with rfl | h
    · exact Or.inl rfl
    · obtain ⟨e, he, hes⟩ := List.mem_flatMap.mp h
      exact Or.inr ⟨e.2, (mem_parts_of_entry he).2, hes⟩
  | _ => cases h

/-- The dicts in a value are as good as the value. -/
theorem of_mem_dicts {P : Value → Prop} (hpart : ∀ {p v : Value}, P v → p ∈ v.parts → P p)
    {v : Value} (hv : P v) {es : List (Value × Value)} (hes : es ∈ v.dicts) : P (dict es) := by
  induction v using induction_parts with
  | step v ih =>
    rcases mem_dicts_cases hes with rfl | ⟨p, hp, hes⟩
    · exact hv
    · exact ih p hp (hpart hv hp) hes

/-- **Names in a value.**  Each dict in it is written with different names if and only if no
    string among its keys is the text of another one. -/
theorem nodup_memberNames_of_mem {v : Value} (hv : v.WellFormed) (hfree : v.FloatFree)
    {es : List (Value × Value)} (hes : es ∈ v.dicts) :
    (memberNames es).Nodup ↔ ¬ Clashing es := by
  have hwell : (dict es).WellFormed := of_mem_dicts WellFormed.part hv hes
  have hfloats : (dict es).FloatFree := of_mem_dicts FloatFree.part hfree hes
  cases hwell with
  | dict hkeys _ =>
    exact nodup_memberNames_iff hkeys fun e he => hfloats.part (mem_parts_of_entry he).1

/-! ### What is decoded -/

theorem decoded_dict {es : List (Value × Value)} (h : (memberNames es).Nodup) :
    (dict es).decoded = dict (es.map fun e => (str e.1.plain, e.2.decoded)) := by
  have hmk := mkDict_decoded es
  rw [mkDict_eq_ok] at hmk
  · exact (Except.ok.inj hmk).symm
  · intro e he
    obtain ⟨f, -, rfl⟩ := List.mem_map.mp he
    rfl
  · refine List.pairwise_map.mpr ((List.pairwise_map.mp h).imp fun hne => ?_)
    exact str_eq_eq_false fun heq => hne (str.inj heq)

/-- **No dict loses an entry** if its members have different names. -/
theorem dictSizes_decoded {v : Value} (h : v.NoFloat)
    (hnames : ∀ es ∈ v.dicts, (memberNames es).Nodup) : v.decoded.dictSizes = v.dictSizes := by
  have hall : ∀ {vs : List Value}, (∀ v ∈ vs, (∀ es ∈ v.dicts, (memberNames es).Nodup) →
      v.decoded.dictSizes = v.dictSizes) →
      (∀ es ∈ vs.flatMap dicts, (memberNames es).Nodup) →
      ((vs.map decoded).flatMap dicts).map List.length = (vs.flatMap dicts).map List.length := by
    intro vs ih hnames
    induction vs with
    | nil => rfl
    | cons v rest ihrest =>
      obtain ⟨hv, hrest⟩ := List.forall_mem_cons.mp ih
      rw [List.flatMap_cons, List.forall_mem_append] at hnames
      have hfirst : v.decoded.dicts.map List.length = v.dicts.map List.length := hv hnames.1
      rw [List.map_cons, List.flatMap_cons, List.flatMap_cons, List.map_append, List.map_append,
        hfirst, ihrest hrest hnames.2]
  induction h with
  | none | bool b | int n | str s => rfl
  | @list vs _ ih | @tuple vs _ ih | @set vs _ ih =>
    rw [dicts, dictsAll_eq] at hnames
    rw [decoded, decodedAll_eq, dictSizes, dictSizes, dicts, dicts, dictsAll_eq, dictsAll_eq]
    exact hall ih hnames
  | @dict es _ ih =>
    rw [dicts, dictsEntries_eq, List.forall_mem_cons] at hnames
    rw [decoded_dict hnames.1, dictSizes, dictSizes, dicts, dicts, dictsEntries_eq,
      dictsEntries_eq, List.map_cons, List.map_cons, List.length_map]
    have hvalues : (es.map fun e => (str e.1.plain, e.2.decoded)).flatMap (fun e => e.2.dicts) =
        ((es.map Prod.snd).map decoded).flatMap dicts := by
      simp only [List.flatMap_map, List.map_map, Function.comp_def]
    have hpairs : (es.flatMap fun e => e.2.dicts) = (es.map Prod.snd).flatMap dicts := by
      rw [List.flatMap_map]
    rw [hvalues, hpairs]
    refine congrArg (es.length :: ·) (hall (List.forall_mem_map.mpr ih) ?_)
    rw [← hpairs]
    exact hnames.2

/-! ### Depth -/

theorem nestingAll_le {vs : List Value} {n : Nat} (h : ∀ v ∈ vs, v.nesting ≤ n) :
    nestingAll vs ≤ n := by
  induction vs with
  | nil => exact Nat.zero_le n
  | cons v rest ih =>
    obtain ⟨hv, hrest⟩ := List.forall_mem_cons.mp h
    exact Nat.max_le.mpr ⟨hv, ih hrest⟩

theorem nestingEntries_eq (es : List (Value × Value)) :
    nestingEntries es = nestingAll (es.map Prod.snd) := by
  induction es with
  | nil => rfl
  | cons e rest ih => rw [nestingEntries, ih, List.map_cons, nestingAll]

theorem nestingAll_map {vs : List Value} {f : Value → Value}
    (h : ∀ v ∈ vs, (f v).nesting = v.nesting) : nestingAll (vs.map f) = nestingAll vs := by
  induction vs with
  | nil => rfl
  | cons v rest ih =>
    obtain ⟨hv, hrest⟩ := List.forall_mem_cons.mp h
    rw [List.map_cons, nestingAll, nestingAll, hv, ih hrest]

theorem nesting_decoded {v : Value} (h : v.NoFloat)
    (hnames : ∀ es ∈ v.dicts, (memberNames es).Nodup) : v.decoded.nesting = v.nesting := by
  induction h with
  | none | bool b | int n | str s => rfl
  | @list vs _ ih | @tuple vs _ ih | @set vs _ ih =>
    rw [dicts, dictsAll_eq] at hnames
    rw [decoded, decodedAll_eq, nesting, nesting, nestingAll_map]
    exact fun v hv => ih v hv fun es hes => hnames es (List.mem_flatMap.mpr ⟨v, hv, hes⟩)
  | @dict es _ ih =>
    rw [dicts, dictsEntries_eq, List.forall_mem_cons] at hnames
    have hvalues : (es.map fun e => (str e.1.plain, e.2.decoded)).map Prod.snd =
        (es.map Prod.snd).map decoded := by
      simp only [List.map_map, Function.comp_def]
    rw [decoded_dict hnames.1, nesting, nesting, nestingEntries_eq, nestingEntries_eq, hvalues,
      nestingAll_map]
    refine List.forall_mem_map.mpr fun e he => ih e he fun fs hfs => hnames.2 fs ?_
    exact List.mem_flatMap.mpr ⟨e, he, hfs⟩

open JsonText (Member named mkDict_named ofList_append_singleton)

theorem mem_ofList {es : List (String × Value)} {e : String × Value}
    (h : e ∈ (Table.ofList es).entries) : e ∈ es := by
  have hput : ∀ {name : String} {v : Value} {fs : List (String × Value)},
      e ∈ Table.put name v fs → e = (name, v) ∨ e ∈ fs := by
    intro name v fs he
    induction fs with
    | nil => exact Or.inl (List.mem_singleton.mp he)
    | cons f rest ih =>
      obtain ⟨n, w⟩ := f
      rw [Table.put] at he
      split at he
      · exact (List.mem_cons.mp he).imp_right (List.mem_cons_of_mem _)
      · rcases List.mem_cons.mp he with rfl | he
        · exact Or.inr List.mem_cons_self
        · exact (ih he).imp_right (List.mem_cons_of_mem _)
  induction es using List.reverseRecOn with
  | nil => cases h
  | append_singleton es f ih =>
    rw [ofList_append_singleton] at h
    rcases hput h with rfl | h
    · exact List.mem_append_right es (List.mem_singleton_self _)
    · exact List.mem_append_left [f] (ih h)

/-- What a text stands for nests no deeper than the text may. -/
theorem nesting_le_of_denotes {n : Nat} {cs : List Char} {v : Value}
    (h : JsonText.Denotes n cs v) : v.nesting ≤ n := by
  induction h with
  | null | yes | no | string => exact Nat.zero_le _
  | number _ hv =>
    rcases JsonText.number_of_value? hv with ⟨m, rfl⟩ | ⟨x, rfl⟩
    · exact Nat.zero_le _
    · exact Nat.zero_le _
  | emptyArray | emptyObject => exact Nat.le_add_left 1 _
  | @array n items _ _ ih =>
    have hitems : nestingAll (items.map Prod.snd) ≤ n := nestingAll_le (List.forall_mem_map.mpr ih)
    rw [nesting]
    omega
  | @object n members d _ _ _ hd ih =>
    have hentries : members.map Member.entry =
        (members.map fun m => (m.name, m.value)).map named := by
      rw [List.map_map]
      rfl
    rw [hentries, mkDict_named] at hd
    cases hd
    have hvalues : ∀ e ∈ (Table.ofList (members.map fun m => (m.name, m.value))).entries,
        e.2.nesting ≤ n := by
      intro e he
      obtain ⟨m, hm, rfl⟩ := List.mem_map.mp (mem_ofList he)
      exact ih m hm
    have hall : nestingEntries ((Table.ofList
        (members.map fun m => (m.name, m.value))).entries.map named) ≤ n := by
      rw [nestingEntries_eq, List.map_map]
      exact nestingAll_le (List.forall_mem_map.mpr hvalues)
    rw [nesting]
    omega
  | padded _ _ _ ih => exact ih

/-- The text of a value stands for what the value is decoded to. -/
theorem NoFloat.denotes {v : Value} (h : v.NoFloat) :
    JsonText.Denotes v.nesting v.jsonText v.decoded := by
  have hread := h.readsBack v.nesting (2 * v.jsonText.length) [] (Nat.le_refl _) (Nat.le_refl _)
    JsonText.delimited_nil
  obtain ⟨taken, htaken, hdenotes⟩ := (JsonText.read_sound _).1 hread
  rw [List.append_nil, List.append_nil] at htaken
  rwa [← htaken] at hdenotes

/-- **What decoding a written value gives**, and that it gives something exactly where the
    reader goes deep enough. -/
theorem ofJson?_toJson_eq_some_iff {v w : Value} (h : v.NoFloat)
    (hnames : ∀ es ∈ v.dicts, (memberNames es).Nodup) :
    ofJson? v.toJson = some w ↔ w = v.decoded ∧ v.nesting < 128 := by
  rw [ofJson?_eq_some_iff]
  constructor
  · intro hw
    have hdecoded : w = v.decoded := hw.unique h.denotes
    have hdepth := nesting_le_of_denotes hw
    rw [hdecoded, nesting_decoded h hnames] at hdepth
    exact ⟨hdecoded, Nat.lt_succ_of_le hdepth⟩
  · rintro ⟨rfl, hdepth⟩
    exact h.denotes.mono (Nat.le_of_lt_succ hdepth)

/-! ### Values in lists -/

/-- The value in so many lists. -/
def wrapped : Nat → Value → Value
  | 0, v => v
  | n + 1, v => list [wrapped n v]

variable {v : Value}

theorem WellFormed.wrapped (h : v.WellFormed) (n : Nat) : (v.wrapped n).WellFormed := by
  induction n with
  | zero => exact h
  | succ n ih => exact .list (List.forall_mem_singleton.mpr ih)

theorem numbers_wrapped (n : Nat) (v : Value) : (v.wrapped n).numbers = v.numbers := by
  induction n with
  | zero => rfl
  | succ n ih => rw [wrapped, numbers, numbersAll, numbersAll, List.append_nil, ih]

theorem dicts_wrapped (n : Nat) (v : Value) : (v.wrapped n).dicts = v.dicts := by
  induction n with
  | zero => rfl
  | succ n ih => rw [wrapped, dicts, dictsAll, dictsAll, List.append_nil, ih]

theorem nesting_wrapped (n : Nat) (v : Value) : (v.wrapped n).nesting = v.nesting + n := by
  induction n with
  | zero => rfl
  | succ n ih =>
    rw [wrapped, nesting, nestingAll, nestingAll, Nat.max_eq_left (Nat.zero_le _), ih]
    omega

end Value

/-- **Which entries a written value keeps.**  Dicts are written as objects, with the texts of
    the keys for names.  In a well-formed value without floats these names are different in
    each dict if and only if no string among its keys is the text of another key.  If that is so
    in all dicts of the value, decoding succeeds exactly where the value nests less than 128
    deep, and then every dict has as many entries as were written. -/
theorem written_entries_kept :
    (∀ es : List (Value × Value), (Value.dict es).toJson.toList =
      '\x7b' :: commaSeparated (es.map fun e =>
        (JsonText.quote e.1.plain).toList ++ ':' :: e.2.toJson.toList) ++ ['\x7d']) ∧
    ∀ v : Value, v.WellFormed → v.FloatFree →
      (∀ es ∈ v.dicts, (Value.memberNames es).Nodup ↔ ¬ Value.Clashing es) ∧
      ((∀ es ∈ v.dicts, ¬ Value.Clashing es) →
        ((∃ w, Value.ofJson? v.toJson = some w) ↔ v.nesting < 128) ∧
        ∀ w, Value.ofJson? v.toJson = some w → w.dictSizes = v.dictSizes) := by
  refine ⟨fun es => Value.jsonText_dict es, fun v hwell hfree => ?_⟩
  have hiff := fun es (hes : es ∈ v.dicts) => Value.nodup_memberNames_of_mem hwell hfree hes
  refine ⟨hiff, fun hclash => ?_⟩
  have hnames : ∀ es ∈ v.dicts, (Value.memberNames es).Nodup := fun es hes =>
    (hiff es hes).mpr (hclash es hes)
  have hdecodes := fun w => Value.ofJson?_toJson_eq_some_iff (w := w) hfree.noFloat hnames
  refine ⟨⟨?_, fun hdepth => ⟨_, (hdecodes _).mpr ⟨rfl, hdepth⟩⟩⟩, ?_⟩
  · rintro ⟨w, hw⟩
    exact ((hdecodes w).mp hw).2
  · intro w hw
    rw [((hdecodes w).mp hw).1]
    exact Value.dictSizes_decoded hfree.noFloat hnames

/-- A tuple among the keys, and a dict below it: nothing is the text of anything else. -/
theorem written_entries_kept_tuple_key :
    let es : List (Value × Value) :=
      [(.tuple [.int 1, .int 2], .dict [(.str "a", .none)]), (.str "x", .bool true)]
    (Value.dict es).WellFormed ∧ (Value.dict es).FloatFree ∧
      ∃ w, Value.ofJson? (Value.dict es).toJson = some w ∧ w.dictSizes = [2, 1] := by
  intro es
  have hwell : (Value.dict es).WellFormed := by
    refine .dict ⟨by decide, by decide⟩ ?_
    simp only [List.forall_mem_cons, es]
    refine ⟨.dict ⟨by decide, by decide⟩ ?_, .bool true, List.forall_mem_nil _⟩
    exact List.forall_mem_singleton.mpr .none
  have hfree : (Value.dict es).FloatFree := by
    simp [es, Value.FloatFree, Value.numbers, Value.numbersAll, Value.numbersEntries]
  obtain ⟨hnames, hkept⟩ := written_entries_kept.2 (Value.dict es) hwell hfree
  have hdiffer : ∀ fs ∈ (Value.dict es).dicts, (Value.memberNames fs).Nodup := by
    decide
  obtain ⟨hdecodes, hsizes⟩ := hkept fun fs hfs => (hnames fs hfs).mp (hdiffer fs hfs)
  obtain ⟨w, hw⟩ := hdecodes.mpr (by decide)
  exact ⟨hwell, hfree, w, hw, hsizes w hw⟩

/-- The string `1` and the number are two keys and two members of one name, of which the decoder
    keeps one.  A dict in 127 lists is written, and not decoded at all. -/
theorem written_entry_lost :
    let es : List (Value × Value) := [(.str "1", .bool true), (.int 1, .bool false)]
    let deep : Value := (Value.dict []).wrapped 127
    ((Value.dict es).WellFormed ∧ (Value.dict es).FloatFree ∧
      ¬ (Value.memberNames es).Nodup ∧
      (Value.dict es).toJson = "\x7b\"1\":true,\"1\":false\x7d" ∧
      Value.ofJson? (Value.dict es).toJson = some (.dict [(.str "1", .bool false)])) ∧
    deep.WellFormed ∧ deep.FloatFree ∧ deep.dicts = [[]] ∧ Value.ofJson? deep.toJson = none := by
  intro es deep
  have hwell : (Value.dict es).WellFormed := by
    refine .dict ⟨by decide, by decide⟩ ?_
    simp only [List.forall_mem_cons, es]
    exact ⟨.bool true, .bool false, List.forall_mem_nil _⟩
  have hfree : (Value.dict es).FloatFree := by
    simp [es, Value.FloatFree, Value.numbers, Value.numbersEntries]
  have hdeepWell : deep.WellFormed :=
    Value.WellFormed.wrapped (.dict ⟨List.forall_mem_nil _, List.Pairwise.nil⟩
      (List.forall_mem_nil _)) 127
  have hdeepFree : deep.FloatFree := fun x hx => by
    rw [Value.numbers_wrapped] at hx
    cases hx
  have hdicts : deep.dicts = [[]] := Value.dicts_wrapped 127 (.dict [])
  have hnames : ∀ fs ∈ deep.dicts, (Value.memberNames fs).Nodup := by
    rw [hdicts]
    exact List.forall_mem_singleton.mpr List.nodup_nil
  have hdecoded : (Value.dict es).decoded = .dict [(.str "1", .bool false)] := by rfl
  have hkept : Value.ofJson? (Value.dict es).toJson = some (Value.dict es).decoded :=
    Value.ofJson?_eq_some_iff.mpr (hfree.noFloat.denotes.mono (by decide))
  rw [hdecoded] at hkept
  refine ⟨⟨hwell, hfree, by decide, by decide, hkept⟩, hdeepWell, hdeepFree,
    hdicts, Option.eq_none_iff_forall_ne_some.mpr fun w hw => ?_⟩
  have hdepth := ((Value.ofJson?_toJson_eq_some_iff hdeepFree.noFloat hnames).mp hw).2
  rw [Value.nesting_wrapped] at hdepth
  exact absurd hdepth (by decide)

end SafeExpr
