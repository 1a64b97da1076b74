/-
  SafeExpr/Proofs/Json/Tree.lean
  ==============================
  **A tree has the value of its text, but for the order of entries.**

  Values are made of a text at once, or by way of a tree.  Both readers accept the same
  texts and leave the same rest.  The value of the tree is the other one with the entries of
  all its dicts in the order of their names (`Value.byName`): a tree keeps no other order.
-/
import SafeExpr.Proofs.Json.ByName
import SafeExpr.Proofs.Json.Grammar

namespace SafeExpr

namespace JsonText

open Value (byName)

/-! ### Members of a tree and entries of a value -/

/-- The tree has the value, once its entries are in order. -/
def Fits (t : JsonTree) (v : Value) : Prop := t.value? = some v.byName

def MembersFit : List (String × JsonTree) → List (String × Value) → Prop :=
  List.Forall₂ fun m e => m.1 = e.1 ∧ Fits m.2 e.2

theorem MembersFit.putMember {ms : List (String × JsonTree)} {es : List (String × Value)}
    {t : JsonTree} {v : Value} (h : MembersFit ms es) (name : String) (ht : Fits t v) :
    MembersFit (putMember name t ms) (putMember name v es) := by
  induction h with
  | nil => exact .cons ⟨rfl, ht⟩ .nil
  | @cons m e ms es hfirst hrest ih =>
    obtain ⟨n, y⟩ := m
    obtain ⟨n', w⟩ := e
    obtain ⟨hname, hw⟩ := hfirst
    cases hname
    rw [JsonText.putMember, JsonText.putMember]
    split
    · exact .cons ⟨rfl, ht⟩ hrest
    · split
      · exact .cons ⟨rfl, ht⟩ (.cons ⟨rfl, hw⟩ hrest)
      · exact .cons ⟨rfl, hw⟩ ih

theorem MembersFit.entries? {ms : List (String × JsonTree)} {es : List (String × Value)}
    (h : MembersFit ms es) :
    JsonTree.entries? ms = some (es.map fun e => named (e.1, e.2.byName)) := by
  induction h with
  | nil => rfl
  | @cons m e ms es hfirst hrest ih =>
    obtain ⟨n, t⟩ := m
    obtain ⟨hname, ht⟩ := hfirst
    rw [JsonTree.entries?, ht, ih, List.map_cons, ← hname]
    rfl

theorem Fits.values? {ts : List JsonTree} {vs : List Value} (h : List.Forall₂ Fits ts vs) :
    JsonTree.values? ts = some (vs.map byName) := by
  induction h with
  | nil => rfl
  | cons ht hrest ih =>
    rw [JsonTree.values?, ht, ih]
    rfl

theorem fits_object {ms : List (String × JsonTree)} {es : List (String × Value)}
    (h : MembersFit ms (gather es)) :
    Fits (.object ms) (.dict ((Table.ofList es).entries.map named)) := by
  have hascending : Ascending ((gather es).map fun e => (e.1, e.2.byName)) :=
    List.pairwise_map.mpr (gather_ascending es)
  have hdict := hascending.mkDict
  rw [List.map_map] at hdict
  rw [Fits, byName_mkDict, JsonTree.value?, h.entries?]
  exact Except.toOption_eq_some_iff.mpr hdict

/-! ### Numbers -/

/-- The kind that a number has in a tree does not change its value. -/
theorem number?_value (t : NumberText) : t.number?.map JsonNumber.value = t.value? := by
  unfold NumberText.number? NumberText.value?
  dsimp only
  cases t.whole with
  | false =>
    rw [if_neg Bool.false_ne_true, if_neg Bool.false_ne_true, Option.map_map]
    rfl
  | true =>
    rw [if_pos rfl, if_pos rfl]
    cases t.negative with
    | false =>
      have hzero : (false && ((t.significand : Int) == 0)) = false := rfl
      simp only [Bool.false_eq_true, if_false, Option.map_some, JsonNumber.value, hzero]
      cases fitInt64 t.significand with
      | none => rfl
      | some m => rfl
    | true =>
      simp only [if_true, Bool.true_and]
      cases fitInt64 (-(t.significand : Int)) with
      | none => rfl
      | some m =>
        by_cases hzero : ((t.significand : Int) == 0) = true
        · simp only [hzero, if_true]
          rfl
        · simp only [hzero]
          rfl

theorem number_value_cases (n : JsonNumber) :
    (∃ m, n.value = .int m) ∨ ∃ x, n.value = .float x := by
  unfold JsonNumber.value
  split
  · split
    · exact Or.inl ⟨_, rfl⟩
    · exact Or.inr ⟨_, rfl⟩
  · exact Or.inl ⟨_, rfl⟩
  · exact Or.inr ⟨_, rfl⟩

theorem nameOrdered_number (n : JsonNumber) : n.value.NameOrdered := by
  rcases number_value_cases n with ⟨m, hm⟩ | ⟨x, hx⟩
  · rw [hm]
    exact .other (fun _ h => by cases h) (fun _ h => by cases h)
  · rw [hx]
    exact .other (fun _ h => by cases h) (fun _ h => by cases h)

/-! ### The two readers -/

/-- Both readers fail, or both take the same and the tree has the value. -/
inductive Agree : Option (JsonTree × List Char) → Option (Value × List Char) → Prop
  | none : Agree none none
  | some {t v rest} (h : Fits t v) : Agree (some (t, rest)) (some (v, rest))

/-- A first step that both take. -/
theorem Agree.then {α : Type} {o : Option α} {k : α → Option (JsonTree × List Char)}
    {k' : α → Option (Value × List Char)} (h : ∀ a, Agree (k a) (k' a)) :
    Agree (o >>= k) (o >>= k') := by
  cases o with
  | none => exact .none
  | some a => exact h a

/-- Going on behind what both have read. -/
theorem Agree.bind {o : Option (JsonTree × List Char)} {o' : Option (Value × List Char)}
    {k : JsonTree × List Char → Option (JsonTree × List Char)}
    {k' : Value × List Char → Option (Value × List Char)} (h : Agree o o')
    (hk : ∀ t v rest, Fits t v → Agree (k (t, rest)) (k' (v, rest))) :
    Agree (o >>= k) (o' >>= k') := by
  cases h with
  | none => exact .none
  | some h => exact hk _ _ _ h

/-- The members found so far, as the tree holds them and in reverse as they were read. -/
def Gathered (ms : List (String × JsonTree)) (found : List (Value × Value)) : Prop :=
  ∃ es, found = (es.map named).reverse ∧ MembersFit ms (gather es)

theorem gathered_nil : Gathered [] [] := ⟨[], rfl, .nil⟩

theorem Gathered.put {ms : List (String × JsonTree)} {found : List (Value × Value)}
    (h : Gathered ms found) {t : JsonTree} {v : Value} (ht : Fits t v) (name : String) :
    Gathered (putMember name t ms) ((.str name, v) :: found) := by
  obtain ⟨es, rfl, hms⟩ := h
  refine ⟨es ++ [(name, v)], by simp [named], ?_⟩
  rw [gather_append_singleton]
  exact hms.putMember name ht

theorem Gathered.dictOf? {ms : List (String × JsonTree)} {found : List (Value × Value)}
    (h : Gathered ms found) : ∃ d, JsonText.dictOf? found = some d ∧ Fits (.object ms) d := by
  obtain ⟨es, rfl, hms⟩ := h
  refine ⟨_, ?_, fits_object hms⟩
  rw [JsonText.dictOf?, List.reverse_reverse, mkDict_named]
  rfl

/-- With some fuel, the readers of values agree. -/
def ValuesAgree (fuel : Nat) : Prop :=
  ∀ nesting cs, Agree (readTree nesting fuel cs) (readValue nesting fuel cs)

def ItemsAgree (fuel : Nat) : Prop :=
  ∀ {nesting ts vs} cs, List.Forall₂ Fits ts vs →
    Agree (readTrees nesting ts fuel cs) (readItems nesting vs fuel cs)

def EntriesAgree (fuel : Nat) : Prop :=
  ∀ {nesting ms found} cs, Gathered ms found →
    Agree (readMembers nesting ms fuel cs) (readEntries nesting found fuel cs)

/-- What may stand behind a part: a comma, the mark that closes, or neither. -/
theorem separator_cases (close : Char) (cs : List Char) :
    (∃ behind, cs = ',' :: behind) ∨ (∃ behind, cs = close :: behind) ∨
      ((∀ behind, cs = ',' :: behind → False) ∧ ∀ behind, cs = close :: behind → False) := by
  by_cases hcomma : ∃ behind, cs = ',' :: behind
  · exact Or.inl hcomma
  · by_cases hclose : ∃ behind, cs = close :: behind
    · exact Or.inr (Or.inl hclose)
    · exact Or.inr (Or.inr ⟨not_exists.mp hcomma, not_exists.mp hclose⟩)

variable {fuel : Nat}

theorem valuesAgree_succ (hitems : ItemsAgree fuel) (hentries : EntriesAgree fuel) :
    ValuesAgree (fuel + 1) := by
  intro nesting cs
  -- the second reader is unfolded where it is known which case the first one takes
  unfold readTree
  split
  · next rest hcs =>
    simp only [readValue, hcs]
    exact .then fun _ => .some rfl
  · next rest hcs =>
    simp only [readValue, hcs]
    exact .then fun _ => .some rfl
  · next rest hcs =>
    simp only [readValue, hcs]
    exact .then fun _ => .some rfl
  · next rest hcs =>
    simp only [readValue, hcs]
    exact .then fun _ => .some rfl
  · next rest hcs =>
    split
    · next hnesting =>
      simp only [readValue, hcs, hnesting, if_true]
      exact .none
    · next hnesting =>
      split
      · next behind hclose =>
        simp only [readValue, hcs, hnesting, if_false, hclose]
        exact .some rfl
      · next hopen =>
        simp only [readValue, hcs, hnesting, if_false]
        exact hitems _ .nil
  · next rest hcs =>
    split
    · next hnesting =>
      simp only [readValue, hcs, hnesting, if_true]
      exact .none
    · next hnesting =>
      split
      · next behind hclose =>
        simp only [readValue, hcs, hnesting, if_false, hclose]
        exact .some rfl
      · next hopen =>
        simp only [readValue, hcs, hnesting, if_false]
        exact hentries _ gathered_nil
  · next hn ht hf hquote hopen hbrace =>
    simp only [readValue]
    refine .then fun r => ?_
    rw [← number?_value]
    cases r.1.number? with
    | none => exact .none
    | some n => exact .some (congrArg some (nameOrdered_number n).byName_eq.symm)

theorem itemsAgree_succ (hvalue : ValuesAgree fuel) (hitems : ItemsAgree fuel) :
    ItemsAgree (fuel + 1) := by
  intro nesting ts vs cs hfound
  unfold readTrees readItems
  refine (hvalue nesting cs).bind fun t v rest ht => ?_
  rcases separator_cases ']' (skipBlanks rest) with
    ⟨behind, hcomma⟩ | ⟨behind, hclose⟩ | ⟨hcomma, hclose⟩
  · simp only [hcomma]
    exact hitems behind (.cons ht hfound)
  · simp only [hclose]
    refine .some ?_
    have hvalues := Fits.values? (List.rel_reverse (.cons ht hfound))
    rw [Fits, byName, Value.byNameAll_eq, JsonTree.value?, hvalues]
    rfl
  · simp only
    exact .none

theorem entriesAgree_succ (hvalue : ValuesAgree fuel) (hentries : EntriesAgree fuel) :
    EntriesAgree (fuel + 1) := by
  intro nesting ms found cs hfound
  unfold readMembers
  split
  · next rest hquote =>
    simp only [readEntries, hquote]
    refine .then fun key => ?_
    by_cases hcolon : ∃ behind, skipBlanks key.2 = ':' :: behind
    · obtain ⟨behind, hcolon⟩ := hcolon
      simp only [hcolon]
      refine (hvalue nesting behind).bind fun t v rest ht => ?_
      have hmore := hfound.put ht (String.ofList key.1)
      rcases separator_cases '}' (skipBlanks rest) with
        ⟨behind, hcomma⟩ | ⟨behind, hclose⟩ | ⟨hcomma, hclose⟩
      · simp only [hcomma]
        exact hentries behind hmore
      · simp only [hclose]
        obtain ⟨d, hd, hfits⟩ := hmore.dictOf?
        rw [hd]
        exact .some hfits
      · simp only
        exact .none
    · have hcolon' : ∀ behind, skipBlanks key.2 = ':' :: behind → False :=
        fun behind h => hcolon ⟨behind, h⟩
      simp only
      exact .none
  · next hquote =>
    simp only [readEntries]
    exact .none

theorem readers_agree (fuel : Nat) : ValuesAgree fuel ∧ ItemsAgree fuel ∧ EntriesAgree fuel := by
  induction fuel with
  | zero => exact ⟨fun _ _ => .none, fun _ _ => .none, fun _ _ => .none⟩
  | succ fuel ih =>
    obtain ⟨hvalue, hitems, hentries⟩ := ih
    exact ⟨valuesAgree_succ hitems hentries, itemsAgree_succ hvalue hitems,
      entriesAgree_succ hvalue hentries⟩

end JsonText

open JsonText

/-! ### Whole texts -/

/-- **Both ways of decoding a text.**  They accept the same texts, and the value of the tree is
    the decoded one with its entries in order. -/
theorem JsonTree.ofText?_agrees (text : String) :
    (JsonTree.ofText? text = none ∧ Value.ofJson? text = none) ∨
      ∃ t v, JsonTree.ofText? text = some t ∧ Value.ofJson? text = some v ∧ Fits t v := by
  have hagree := (readers_agree (2 * text.length + 1)).1 maxNesting text.toList
  unfold JsonTree.ofText? Value.ofJson?
  generalize readTree maxNesting (2 * text.length + 1) text.toList = tree at hagree
  generalize readValue maxNesting (2 * text.length + 1) text.toList = value at hagree
  cases hagree with
  | none => exact Or.inl ⟨rfl, rfl⟩
  | @some t v rest h =>
    by_cases hrest : (skipBlanks rest).isEmpty = true
    · exact Or.inr ⟨t, v, if_pos hrest, if_pos hrest, h⟩
    · exact Or.inl ⟨if_neg hrest, if_neg hrest⟩

/-! ### What JSON texts stand for, in order -/

theorem nameOrdered_gather {es : List (String × Value)}
    (h : ∀ e ∈ es, e.2.byName.NameOrdered) :
    (Value.dict ((gather es).map fun e => named (e.1, e.2.byName))).NameOrdered := by
  have hmem : ∀ e ∈ gather es, e.2.byName.NameOrdered := by
    induction es using List.reverseRecOn with
    | nil => exact List.forall_mem_nil _
    | append_singleton es e ih =>
      obtain ⟨hes, he⟩ := List.forall_mem_append.mp h
      rw [gather_append_singleton]
      intro f hf
      rcases mem_putMember hf with rfl | hf
      · exact he e (List.mem_singleton_self e)
      · exact ih hes f hf
  refine .dict (List.pairwise_map.mpr (gather_ascending es)) ?_
  intro f hf
  obtain ⟨e, he, rfl⟩ := List.mem_map.mp hf
  exact hmem e he

theorem JsonText.Denotes.nameOrdered_byName {n : Nat} {cs : List Char} {v : Value}
    (h : Denotes n cs v) : v.byName.NameOrdered := by
  have hscalar : ∀ {v : Value}, (∀ vs, v ≠ .list vs) → (∀ es, v ≠ .dict es) →
      v.byName.NameOrdered := by
    intro v hlist hdict
    have hordered : v.NameOrdered := .other hlist hdict
    rwa [hordered.byName_eq]
  induction h with
  | null | yes | no | string => exact hscalar (fun _ h => by cases h) (fun _ h => by cases h)
  | @number _ cs t v ht hv =>
    rw [← number?_value] at hv
    obtain ⟨n, -, rfl⟩ := Option.map_eq_some_iff.mp hv
    rw [(nameOrdered_number n).byName_eq]
    exact nameOrdered_number n
  | emptyArray => exact .list (List.forall_mem_nil _)
  | @array n items hne hitems ih =>
    rw [Value.byName, Value.byNameAll_eq]
    refine .list fun v hv => ?_
    simp only [List.map_map, List.mem_map] at hv
    obtain ⟨i, hi, rfl⟩ := hv
    exact ih i hi
  | emptyObject => exact .dict .nil (List.forall_mem_nil _)
  | @object n members d hne hnames _ hd ih =>
    have hentries : members.map Member.entry =
        (members.map fun m => (m.name, m.value)).map named := by
      rw [List.map_map]
      rfl
    rw [hentries, mkDict_named] at hd
    cases hd
    rw [byName_mkDict]
    refine nameOrdered_gather fun e he => ?_
    obtain ⟨m, hm, rfl⟩ := List.mem_map.mp he
    exact ih m hm
  | padded _ _ _ ih => exact ih

/-- **Decoded values are left alone if their names ascend, and only then.** -/
theorem JsonText.Denotes.byName_eq_iff {n : Nat} {cs : List Char} {v : Value}
    (h : Denotes n cs v) : v.byName = v ↔ v.NameOrdered := by
  refine ⟨fun heq => ?_, Value.NameOrdered.byName_eq⟩
  rw [← heq]
  exact h.nameOrdered_byName

end SafeExpr
